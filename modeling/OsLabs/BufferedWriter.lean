import Mathlib.Data.List.TakeDrop
import OsLabs.SharedStream

/-! Buffered writers of one file. A writer keeps what it is given in a buffer and passes
the first bytes of it on when it likes, either at an offset of its own or at the end of the
file. What each writer has been given is a history. -/
namespace OsLabs.BufferedWriter
open SharedStream

variable {ι β : Type} [DecidableEq ι]

structure Writers (ι β : Type) where
  file : List β
  offset : ι → Nat
  buffer : ι → List β
  given : ι → List β

def Writers.opened (file : List β) : Writers ι β := ⟨file, fun _ => 0, fun _ => [], fun _ => []⟩

def put (s : Writers ι β) (i : ι) (c : β) : Writers ι β :=
  {s with
    buffer := Function.update s.buffer i (s.buffer i ++ [c]),
    given := Function.update s.given i (s.given i ++ [c])}

/- write at an offset; a hole reads as `default`. -/
def writeAt [Inhabited β] (file : List β) (offset : Nat) (block : List β) : List β :=
  file.take offset ++ List.replicate (offset - file.length) default ++ block ++
    file.drop (offset + block.length)

def passAt [Inhabited β] (s : Writers ι β) (i : ι) (k : Nat) : Writers ι β :=
  {s with
    file := writeAt s.file (s.offset i) ((s.buffer i).take k),
    offset := Function.update s.offset i (s.offset i + ((s.buffer i).take k).length),
    buffer := Function.update s.buffer i ((s.buffer i).drop k)}

def passEnd (s : Writers ι β) (i : ι) (k : Nat) : Writers ι β :=
  {s with
    file := s.file ++ (s.buffer i).take k,
    offset := Function.update s.offset i (s.file.length + ((s.buffer i).take k).length),
    buffer := Function.update s.buffer i ((s.buffer i).drop k)}

section OwnOffsets
variable [Inhabited β]

theorem writeLength {file : List β} {offset : Nat} (inside : offset ≤ file.length) (block : List β) :
    (writeAt file offset block).length = max file.length (offset + block.length) := by
  simp only [writeAt, List.length_append, List.length_take, List.length_replicate, List.length_drop]
  omega

theorem writeIndex {file : List β} {offset : Nat} (inside : offset ≤ file.length) (block : List β)
    (p : Nat) : (writeAt file offset block)[p]? =
      if offset ≤ p ∧ p < offset + block.length then block[p - offset]? else file[p]? := by
  have overlap : offset - file.length = 0 := by omega
  rw [writeAt, overlap, List.replicate_zero, List.append_nil, List.append_assoc, List.getElem?_append,
    List.length_take, Nat.min_eq_left inside, List.getElem?_append, List.getElem?_drop]
  by_cases before : p < offset
  · rw [if_pos before, if_neg (by omega), List.getElem?_take_of_lt before]
  · rw [if_neg before]
    by_cases within : p - offset < block.length
    · rw [if_pos within, if_pos (by omega)]
    · rw [if_neg within, if_neg (by omega), show offset + block.length + (p - offset - block.length) = p by
        omega]

structure Placed (s : Writers ι β) : Prop where
  inside : ∀ i, s.offset i ≤ s.file.length
  given : ∀ i, s.offset i ≤ (s.given i).length
  rest : ∀ i, s.buffer i = (s.given i).drop (s.offset i)
  filled : ∀ p, p < s.file.length → ∃ i, p < s.offset i ∧ s.file[p]? = (s.given i)[p]?

omit [DecidableEq ι] [Inhabited β] in
theorem openedPlaced : Placed (Writers.opened [] : Writers ι β) :=
  ⟨fun _ => Nat.le_refl 0, fun _ => Nat.le_refl 0, fun _ => rfl, fun p less => absurd less (by simp [Writers.opened])⟩

omit [Inhabited β] in
theorem putPlaced {s : Writers ι β} (placed : Placed s) (i : ι) (c : β) : Placed (put s i c) := by
  have longer : ∀ j, s.offset j ≤ ((put s i c).given j).length := by
    intro j
    have bound := placed.given j
    by_cases here : j = i
    · subst here
      simp only [put, Function.update_self, List.length_append, List.length_singleton]
      omega
    · simpa only [put, Function.update_of_ne here] using bound
  refine ⟨placed.inside, longer, fun j => ?_, fun p less => ?_⟩
  · by_cases here : j = i
    · subst here
      simp only [put, Function.update_self]
      rw [List.drop_append_of_le_length (placed.given j), placed.rest j]
    · simp only [put, Function.update_of_ne here]
      exact placed.rest j
  · obtain ⟨j, passed, same⟩ := placed.filled p less
    refine ⟨j, passed, same.trans ?_⟩
    have bound := placed.given j
    by_cases here : j = i
    · subst here
      simp only [put, Function.update_self]
      rw [List.getElem?_append_left (by omega)]
    · simp only [put, Function.update_of_ne here]

theorem passIndex {s : Writers ι β} (placed : Placed s) (i : ι) (k p : Nat) :
    (passAt s i k).file[p]? =
      if s.offset i ≤ p ∧ p < (passAt s i k).offset i then (s.given i)[p]? else s.file[p]? := by
  simp only [passAt, Function.update_self, writeIndex (placed.inside i)]
  split
  · rename_i within
    have less : p - s.offset i < k := by
      have := List.length_take_le k (s.buffer i)
      omega
    rw [List.getElem?_take_of_lt less, placed.rest i, List.getElem?_drop,
      Nat.add_sub_cancel' within.1]
  · rfl

theorem passLength {s : Writers ι β} (placed : Placed s) (i : ι) (k : Nat) :
    (passAt s i k).file.length = max s.file.length ((passAt s i k).offset i) := by
  simp only [passAt, Function.update_self, writeLength (placed.inside i)]

theorem passOffset (s : Writers ι β) (i j : ι) (k : Nat) : s.offset j ≤ (passAt s i k).offset j := by
  by_cases here : j = i
  · subst here
    simp only [passAt, Function.update_self]
    omega
  · simp only [passAt, Function.update_of_ne here]
    exact Nat.le_refl _

theorem passPlaced {s : Writers ι β} (placed : Placed s) (i : ι) (k : Nat) : Placed (passAt s i k) := by
  have given : (s.buffer i).length = (s.given i).length - s.offset i := by
    rw [placed.rest i, List.length_drop]
  refine ⟨fun j => ?_, fun j => ?_, fun j => ?_, fun p less => ?_⟩
  · rw [passLength placed]
    by_cases here : j = i
    · subst here
      exact Nat.le_max_right _ _
    · have bound := placed.inside j
      simp only [passAt, Function.update_of_ne here]
      omega
  · have bound := placed.given j
    by_cases here : j = i
    · subst here
      simp only [passAt, Function.update_self, List.length_take]
      omega
    · simpa only [passAt, Function.update_of_ne here] using bound
  · by_cases here : j = i
    · subst here
      simp only [passAt, Function.update_self, List.length_take]
      rw [placed.rest j, List.drop_drop, List.length_drop]
      rcases Nat.le_total k ((s.given j).length - s.offset j) with fits | short
      · rw [Nat.min_eq_left fits]
      · rw [Nat.min_eq_right short, List.drop_of_length_le (by omega),
          List.drop_of_length_le (by have := placed.given j; omega)]
    · simp only [passAt, Function.update_of_ne here]
      exact placed.rest j
  · rw [passIndex placed]
    split
    · rename_i within
      exact ⟨i, within.2, rfl⟩
    · rename_i outside
      rw [passLength placed] at less
      by_cases old : p < s.file.length
      · obtain ⟨j, passed, same⟩ := placed.filled p old
        exact ⟨j, Nat.lt_of_lt_of_le passed (passOffset s i j k), same⟩
      · have bound := placed.inside i
        exact absurd ⟨by omega, by omega⟩ outside

def Prevails (s : Writers ι β) (i : ι) : Prop := ∀ p, p < s.offset i → s.file[p]? = (s.given i)[p]?

def Overwritten (s : Writers ι β) (i : ι) : Prop :=
  ∃ j p, j ≠ i ∧ p < s.offset i ∧ p < s.offset j ∧ s.file[p]? = (s.given j)[p]?

omit [Inhabited β] in
theorem putPrevails {s : Writers ι β} (placed : Placed s) {i : ι} (prevails : Prevails s i) (j : ι)
    (c : β) : Prevails (put s j c) i := by
  intro p passed
  rw [show (put s j c).file = s.file from rfl, prevails p passed]
  by_cases here : i = j
  · subst here
    have bound := placed.given i
    simp only [put] at passed
    simp only [put, Function.update_self]
    rw [List.getElem?_append_left (by omega)]
  · simp only [put, Function.update_of_ne here]

omit [Inhabited β] in
theorem putOverwritten {s : Writers ι β} (placed : Placed s) {i : ι} (overwritten : Overwritten s i)
    (j : ι) (c : β) : Overwritten (put s j c) i := by
  obtain ⟨other, p, apart, passed, taken, same⟩ := overwritten
  refine ⟨other, p, apart, passed, taken, same.trans ?_⟩
  by_cases here : other = j
  · subst here
    have bound := placed.given other
    simp only [put, Function.update_self]
    rw [List.getElem?_append_left (by omega)]
  · simp only [put, Function.update_of_ne here]

theorem passPrevails {s : Writers ι β} (placed : Placed s) {i j : ι} {k : Nat}
    (prevails : Prevails s i)
    (behind : j = i ∨ (s.buffer j).take k = [] ∨ s.offset i ≤ s.offset j) :
    Prevails (passAt s j k) i := by
  intro p passed
  have keeps : (passAt s j k).given = s.given := rfl
  rw [passIndex placed, keeps]
  split
  · rename_i within
    by_cases here : j = i
    · rw [here]
    · have own : (passAt s j k).offset i = s.offset i := by
        simp only [passAt, Function.update_of_ne (Ne.symm here)]
      rcases behind with same | empty | less
      · exact absurd same here
      · simp only [passAt, Function.update_self, empty, List.length_nil] at within
        omega
      · omega
  · rename_i outside
    refine prevails p ?_
    by_cases here : j = i
    · subst here
      omega
    · simpa only [passAt, Function.update_of_ne (Ne.symm here)] using passed

theorem passOverwrites {s : Writers ι β} (placed : Placed s) {i j : ι} {k : Nat} (apart : j ≠ i)
    (passed : (s.buffer j).take k ≠ []) (ahead : s.offset j < s.offset i) :
    Overwritten (passAt s j k) i := by
  have own : (passAt s j k).offset i = s.offset i := by
    simp only [passAt, Function.update_of_ne (Ne.symm apart)]
  have moved : s.offset j < (passAt s j k).offset j := by
    have := List.length_pos_iff.mpr passed
    simp only [passAt, Function.update_self]
    omega
  refine ⟨j, s.offset j, apart, by omega, moved, ?_⟩
  rw [passIndex placed, if_pos ⟨Nat.le_refl _, moved⟩]
  rfl

theorem passOverwritten {s : Writers ι β} (placed : Placed s) {i j : ι} {k : Nat}
    (overwritten : Overwritten s i) : Overwritten (passAt s j k) i := by
  obtain ⟨other, p, apart, passed, taken, same⟩ := overwritten
  have still := Nat.lt_of_lt_of_le passed (passOffset s j i k)
  by_cases within : s.offset j ≤ p ∧ p < (passAt s j k).offset j
  · -- the byte is new, so its writer cannot be `i`, which has passed it before
    have other : j ≠ i := by
      intro here
      subst here
      omega
    exact ⟨j, p, other, still, within.2, by rw [passIndex placed, if_pos within]; rfl⟩
  · refine ⟨other, p, apart, still, Nat.lt_of_lt_of_le taken (passOffset s j other k), ?_⟩
    rw [passIndex placed, if_neg within]
    exact same

omit [DecidableEq ι] [Inhabited β] in
theorem prevailsApart {s : Writers ι β} (placed : Placed s) {i : ι} (prevails : Prevails s i)
    (apart : ∀ j, j ≠ i → ∀ c ∈ s.given i, c ∉ s.given j) : ¬ Overwritten s i := by
  rintro ⟨j, p, other, passed, taken, same⟩
  have less : p < (s.given i).length := Nat.lt_of_lt_of_le passed (placed.given i)
  rw [prevails p passed, List.getElem?_eq_getElem less] at same
  exact apart j other _ (List.getElem_mem less) (List.mem_of_getElem? same.symm)

omit [DecidableEq ι] [Inhabited β] in
theorem prevailsWhole {s : Writers ι β} (placed : Placed s) {i : ι} (prevails : Prevails s i)
    (done : s.buffer i = []) (furthest : ∀ j, s.offset j ≤ s.offset i) : s.file = s.given i := by
  have length : s.offset i = (s.given i).length := by
    have bound := placed.given i
    have rest := List.drop_eq_nil_iff.mp (placed.rest i ▸ done)
    omega
  have filled : s.file.length = s.offset i := by
    refine Nat.le_antisymm (Nat.le_of_not_lt fun longer => ?_) (placed.inside i)
    obtain ⟨j, passed, _⟩ := placed.filled _ longer
    exact absurd (furthest j) (Nat.not_le_of_lt passed)
  apply List.ext_getElem? fun p => ?_
  by_cases passed : p < s.offset i
  · exact prevails p passed
  · rw [List.getElem?_eq_none (by omega), List.getElem?_eq_none (by omega)]

end OwnOffsets

section Appending

structure Appended (old : List β) (s : Writers ι β) (log : List (ι × β)) : Prop where
  file : s.file = old ++ log.map Prod.snd
  given : ∀ i, s.given i = owned log i ++ s.buffer i

theorem openedAppended (old : List β) : Appended old (Writers.opened old : Writers ι β) [] :=
  ⟨(List.append_nil old).symm, fun _ => rfl⟩

theorem putAppended {old : List β} {s : Writers ι β} {log : List (ι × β)} (appended : Appended old s log)
    (i : ι) (c : β) : Appended old (put s i c) log := by
  refine ⟨appended.file, fun j => ?_⟩
  by_cases here : j = i
  · subst here
    simp only [put, Function.update_self, appended.given j, List.append_assoc]
  · simp only [put, Function.update_of_ne here, appended.given j]

theorem ownedBlock (block : List β) (i : ι) : owned (block.map (fun c => (i, c))) i = block := by
  rw [ownedAll (fun e mem => by obtain ⟨c, _, rfl⟩ := List.mem_map.mp mem; rfl), List.map_map]
  exact List.map_id _

theorem ownedForeign (block : List β) {i j : ι} (other : j ≠ i) :
    owned (block.map (fun c => (i, c))) j = [] :=
  ownedNone (fun e mem => by obtain ⟨c, _, rfl⟩ := List.mem_map.mp mem; exact Ne.symm other)

theorem passAppended {old : List β} {s : Writers ι β} {log : List (ι × β)} (appended : Appended old s log)
    (i : ι) (k : Nat) :
    Appended old (passEnd s i k) (log ++ ((s.buffer i).take k).map (fun c => (i, c))) := by
  refine ⟨?_, fun j => ?_⟩
  · simp only [passEnd, appended.file, List.map_append, List.map_map, List.append_assoc]
    exact congrArg (fun block => old ++ (log.map Prod.snd ++ block)) (List.map_id _).symm
  · rw [ownedAppend, List.append_assoc]
    by_cases here : j = i
    · subst here
      simp only [passEnd, Function.update_self, ownedBlock, List.take_append_drop, appended.given j]
    · simp only [passEnd, Function.update_of_ne here, ownedForeign _ here, List.nil_append,
        appended.given j]

end Appending

end OsLabs.BufferedWriter
