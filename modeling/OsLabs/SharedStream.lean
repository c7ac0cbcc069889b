import Mathlib.Data.List.Flatten
import Mathlib.Data.List.Perm.Basic
import Mathlib.Logic.Function.Basic

/-! Buffered readers that share one file offset. A reader with an empty buffer fetches the
next block of at most `size` elements, so the blocks cut the file, in file order, into
pieces with one owner each. The block log and what each reader has taken are histories. -/
namespace OsLabs.SharedStream

section Owned
variable {ι α : Type} [DecidableEq ι]

def owned (log : List (ι × α)) (i : ι) : List α := (log.filter (fun e => e.1 = i)).map Prod.snd

theorem ownedAppend (left right : List (ι × α)) (i : ι) :
    owned (left ++ right) i = owned left i ++ owned right i := by
  simp [owned]

theorem ownedNone {log : List (ι × α)} {i : ι} (absent : ∀ e ∈ log, e.1 ≠ i) : owned log i = [] := by
  have empty : log.filter (fun e => e.1 = i) = [] :=
    List.filter_eq_nil_iff.mpr (fun e mem => by simpa using absent e mem)
  rw [owned, empty, List.map_nil]

theorem ownedAll {log : List (ι × α)} {i : ι} (all : ∀ e ∈ log, e.1 = i) :
    owned log i = log.map Prod.snd := by
  rw [owned, List.filter_eq_self.mpr (fun e mem => by simpa using all e mem)]

theorem insideBlock {before block after left right : List (ι × α)} {e : ι × α} {i : ι}
    (split : before ++ (block ++ after) = left ++ e :: right) (clear : ∀ x ∈ before, x.1 ≠ i)
    (own : ∀ x ∈ block, x.1 = i) (begun : 0 < (owned left i).length)
    (less : (owned left i).length < block.length) : e.1 = i := by
  have whole : (owned block i).length = block.length := by rw [ownedAll own, List.length_map]
  rcases List.append_eq_append_iff.mp split with ⟨inner, same, rest⟩ | ⟨inner, same, rest⟩
  · rw [same, ownedAppend, ownedNone clear, List.nil_append] at begun less
    rcases List.append_eq_append_iff.mp rest with ⟨more, same, _⟩ | ⟨more, same, ends⟩
    · rw [same, ownedAppend, List.length_append] at less
      omega
    · cases more with
      | nil =>
        rw [List.append_nil] at same
        rw [← same] at less
        omega
      | cons x more =>
        have first : e = x := (List.cons.inj ends).1
        exact own e (by rw [same, first]; simp)
  · have nothing : owned left i = [] :=
      ownedNone (fun x mem => clear x (same ▸ List.mem_append_left _ mem))
    rw [nothing] at begun
    exact absurd begun (Nat.lt_irrefl 0)

theorem ownedHere (log : List (ι × α)) (i : ι) (x : α) :
    owned (log ++ [(i, x)]) i = owned log i ++ [x] := by
  simp [owned]

theorem ownedOther (log : List (ι × α)) {i j : ι} (other : j ≠ i) (x : α) :
    owned (log ++ [(j, x)]) i = owned log i := by
  simp [owned, other]

theorem ownedMem {log : List (ι × α)} {i : ι} {x : α} (mem : x ∈ owned log i) :
    x ∈ log.map Prod.snd := by
  obtain ⟨e, inside, same⟩ := List.mem_map.mp mem
  exact List.mem_map.mpr ⟨e, List.mem_of_mem_filter inside, same⟩

theorem ownedPerm {a b : ι} (apart : a ≠ b) {log : List (ι × α)}
    (two : ∀ e ∈ log, e.1 = a ∨ e.1 = b) : (log.map Prod.snd).Perm (owned log a ++ owned log b) := by
  have rest : log.filter (fun e => !decide (e.1 = a)) = log.filter (fun e => decide (e.1 = b)) := by
    apply List.filter_congr
    intro e mem
    rcases two e mem with first | second
    · simp [first, apart]
    · simp [second, Ne.symm apart]
  have split := (List.filter_append_perm (fun e : ι × α => decide (e.1 = a)) log).symm.map Prod.snd
  rw [rest, List.map_append] at split
  exact split

end Owned

variable {ι β : Type} [DecidableEq ι]

structure Pool (ι β : Type) where
  offset : Nat
  buffer : ι → List β
  taken : ι → List β
  blocks : List (ι × List β)

def Pool.start : Pool ι β := ⟨0, fun _ => [], fun _ => [], []⟩

def fetch (file : List β) (size : Nat) (s : Pool ι β) (i : ι) (k : Nat) : Option (Pool ι β) :=
  if 0 < k ∧ k ≤ size ∧ s.offset + k ≤ file.length then
    some {s with
      offset := s.offset + k,
      buffer := Function.update s.buffer i ((file.drop s.offset).take k),
      blocks := s.blocks ++ [(i, (file.drop s.offset).take k)]}
  else none

def fill (file : List β) (size : Nat) (s : Pool ι β) (i : ι) (k : Nat) : Option (Pool ι β) :=
  match s.buffer i with
  | [] => fetch file size s i k
  | _ :: _ => some s

def takeOne (s : Pool ι β) (i : ι) : Option (β × Pool ι β) :=
  match s.buffer i with
  | [] => none
  | c :: rest => some (c, {s with
      buffer := Function.update s.buffer i rest,
      taken := Function.update s.taken i (s.taken i ++ [c])})

def Exhausted (file : List β) (s : Pool ι β) (i : ι) : Prop :=
  s.buffer i = [] ∧ file.length ≤ s.offset

instance (file : List β) (s : Pool ι β) (i : ι) : Decidable (Exhausted file s i) :=
  inferInstanceAs (Decidable (_ ∧ _))

def readOne (file : List β) (size : Nat) (s : Pool ι β) (i : ι) (k : Nat) :
    Option (Option β × Pool ι β) :=
  if Exhausted file s i then some (none, s)
  else ((fill file size s i k).bind (takeOne · i)).map (fun out => (some out.1, out.2))

structure Consistent (file : List β) (size : Nat) (s : Pool ι β) : Prop where
  range : s.offset ≤ file.length
  covered : file.take s.offset = (s.blocks.map Prod.snd).flatten
  share : ∀ i, s.taken i ++ s.buffer i = (owned s.blocks i).flatten
  sized : ∀ b ∈ s.blocks, b.2 ≠ [] ∧ b.2.length ≤ size

theorem startConsistent (file : List β) (size : Nat) :
    Consistent file size (Pool.start : Pool ι β) :=
  ⟨Nat.zero_le _, rfl, fun _ => rfl, by simp [Pool.start]⟩

theorem fetchConsistent {file : List β} {size k : Nat} {s t : Pool ι β} {i : ι}
    (consistent : Consistent file size s) (empty : s.buffer i = [])
    (fetched : fetch file size s i k = some t) : Consistent file size t := by
  unfold fetch at fetched
  split at fetched
  · rename_i room
    obtain ⟨positive, small, inside⟩ := room
    cases Option.some.inj fetched
    have length : ((file.drop s.offset).take k).length = k := by
      rw [List.length_take, List.length_drop]
      omega
    refine ⟨inside, ?_, ?_, ?_⟩
    · simp only [List.map_append, List.flatten_append, ← consistent.covered, List.take_add]
      simp
    · intro j
      by_cases same : j = i
      · subst same
        have before := consistent.share j
        rw [empty, List.append_nil] at before
        simp [ownedHere, before]
      · simpa [Function.update_of_ne same, ownedOther s.blocks (Ne.symm same)] using consistent.share j
    · intro b mem
      rcases List.mem_append.mp mem with old | new
      · exact consistent.sized b old
      · rw [List.mem_singleton.mp new]
        exact ⟨List.length_pos_iff.mp (by rw [length]; exact positive), by rw [length]; exact small⟩
  · contradiction

theorem fillConsistent {file : List β} {size k : Nat} {s t : Pool ι β} {i : ι}
    (consistent : Consistent file size s) (filled : fill file size s i k = some t) :
    Consistent file size t := by
  unfold fill at filled
  split at filled
  · rename_i empty
    exact fetchConsistent consistent empty filled
  · cases Option.some.inj filled
    exact consistent

theorem takeConsistent {file : List β} {size : Nat} {s t : Pool ι β} {i : ι} {c : β}
    (consistent : Consistent file size s) (took : takeOne s i = some (c, t)) :
    Consistent file size t := by
  unfold takeOne at took
  split at took
  · contradiction
  · rename_i rest filled
    cases Option.some.inj took
    refine ⟨consistent.range, consistent.covered, fun j => ?_, consistent.sized⟩
    by_cases same : j = i
    · subst same
      have before := consistent.share j
      rw [filled] at before
      simpa using before
    · simpa [Function.update_of_ne same] using consistent.share j

theorem fillKeeps {file : List β} {size k : Nat} {s t : Pool ι β} {i : ι}
    (filled : fill file size s i k = some t) :
    t.taken = s.taken ∧ s.offset ≤ t.offset ∧ ∀ j, j ≠ i → t.buffer j = s.buffer j := by
  unfold fill at filled
  split at filled
  · unfold fetch at filled
    split at filled
    · cases Option.some.inj filled
      exact ⟨rfl, Nat.le_add_right _ _, fun j other => Function.update_of_ne other _ _⟩
    · contradiction
  · cases Option.some.inj filled
    exact ⟨rfl, Nat.le_refl _, fun _ _ => rfl⟩

theorem takeKeeps {s t : Pool ι β} {i : ι} {c : β} (took : takeOne s i = some (c, t)) :
    t.taken i = s.taken i ++ [c] ∧ t.offset = s.offset ∧
      ∀ j, j ≠ i → t.buffer j = s.buffer j ∧ t.taken j = s.taken j := by
  unfold takeOne at took
  split at took
  · contradiction
  · cases Option.some.inj took
    exact ⟨Function.update_self _ _ _, rfl, fun j other =>
      ⟨Function.update_of_ne other _ _, Function.update_of_ne other _ _⟩⟩

theorem fillExhausted {file : List β} {size k : Nat} {s t : Pool ι β} {i : ι}
    (filled : fill file size s i k = some t) : ¬ Exhausted file s i := by
  rintro ⟨empty, ended⟩
  unfold fill at filled
  rw [empty] at filled
  simp only [fetch] at filled
  split at filled
  · omega
  · contradiction

theorem exhaustedFill {file : List β} {size k : Nat} {s t : Pool ι β} {i j : ι}
    (exhausted : Exhausted file s j) (filled : fill file size s i k = some t) :
    Exhausted file t j := by
  obtain ⟨_, grows, kept⟩ := fillKeeps filled
  by_cases same : j = i
  · exact absurd exhausted (same ▸ fillExhausted filled)
  · exact ⟨(kept j same).trans exhausted.1, Nat.le_trans exhausted.2 grows⟩

theorem exhaustedTake {file : List β} {s t : Pool ι β} {i j : ι} {c : β}
    (exhausted : Exhausted file s j) (took : takeOne s i = some (c, t)) : Exhausted file t j := by
  obtain ⟨_, offset, kept⟩ := takeKeeps took
  by_cases same : j = i
  · unfold takeOne at took
    rw [← same, exhausted.1] at took
    contradiction
  · exact ⟨(kept j same).1.trans exhausted.1, offset ▸ exhausted.2⟩

theorem readCases {file : List β} {size k : Nat} {s t : Pool ι β} {i : ι} {out : Option β}
    (read : readOne file size s i k = some (out, t)) :
    out = none ∧ t = s ∧ Exhausted file s i ∨
      ∃ c u, out = some c ∧ fill file size s i k = some u ∧ takeOne u i = some (c, t) := by
  unfold readOne at read
  split at read
  · rename_i ended
    cases Option.some.inj read
    exact .inl ⟨rfl, rfl, ended⟩
  · obtain ⟨⟨c, v⟩, both, same⟩ := Option.map_eq_some_iff.mp read
    obtain ⟨u, filled, took⟩ := Option.bind_eq_some_iff.mp both
    cases same
    exact .inr ⟨c, u, rfl, filled, took⟩

theorem bufferedInside {file : List β} {size : Nat} {s : Pool ι β} (consistent : Consistent file size s)
    {i : ι} {c : β} (mem : c ∈ s.buffer i) : c ∈ file := by
  have shared : c ∈ (owned s.blocks i).flatten := by
    rw [← consistent.share i]
    exact List.mem_append_right _ mem
  obtain ⟨block, inside, here⟩ := List.mem_flatten.mp shared
  have whole : c ∈ file.take s.offset := by
    rw [consistent.covered]
    exact List.mem_flatten.mpr ⟨block, ownedMem inside, here⟩
  exact List.mem_of_mem_take whole

theorem exhaustedCovers {file : List β} {size : Nat} {s : Pool ι β}
    (consistent : Consistent file size s) (ended : ∀ i, Exhausted file s i) [Nonempty ι] :
    (s.blocks.map Prod.snd).flatten = file ∧ ∀ i, s.taken i = (owned s.blocks i).flatten := by
  constructor
  · obtain ⟨i⟩ := ‹Nonempty ι›
    rw [← consistent.covered]
    exact List.take_of_length_le (ended i).2
  · intro i
    simpa [(ended i).1] using consistent.share i

end OsLabs.SharedStream
