import Mathlib.Data.Nat.Notation

/-! Byte memory around a base address, written by explicit lists of stores, and the
NUL-terminated strings read from it. Indices are integers, so that a store before
the base is a value of the model and not an impossible case. -/
namespace OsLabs.CMemory

abbrev Byte := UInt8
abbrev Mem := Int → Byte

structure Store where
  index : Int
  value : Byte
  deriving DecidableEq, Repr

def put (m : Mem) (s : Store) : Mem := fun j => if j = s.index then s.value else m j

def putAll (m : Mem) (stores : List Store) : Mem := stores.foldl put m

def copyTo (start : Int) : List Byte → List Store
  | [] => []
  | b :: rest => ⟨start, b⟩ :: copyTo (start + 1) rest

def memset (m : Mem) (start : Int) (value : Byte) (size : Nat) : Mem :=
  fun j => if start ≤ j ∧ j < start + size then value else m j

def Holds (m : Mem) (start : Int) : List Byte → Prop
  | [] => True
  | b :: rest => m start = b ∧ Holds m (start + 1) rest

theorem putAllAppend (m : Mem) (xs ys : List Store) :
    putAll m (xs ++ ys) = putAll (putAll m xs) ys := by
  simp [putAll]

theorem putAllFrame (m : Mem) (stores : List Store) (j : Int)
    (apart : ∀ s ∈ stores, s.index ≠ j) : putAll m stores j = m j := by
  induction stores generalizing m with
  | nil => rfl
  | cons s rest ih =>
    have here := apart s List.mem_cons_self
    change putAll (put m s) rest j = m j
    rw [ih (put m s) (fun x hx => apart x (List.mem_cons_of_mem _ hx))]
    exact if_neg (fun same => here same.symm)

theorem putAllAgree (m n : Mem) (stores : List Store) (j : Int)
    (same : m j = n j ∨ ∃ s ∈ stores, s.index = j) : putAll m stores j = putAll n stores j := by
  induction stores generalizing m n with
  | nil => simpa [putAll] using same
  | cons s rest ih =>
    change putAll (put m s) rest j = putAll (put n s) rest j
    by_cases here : j = s.index
    · exact ih _ _ (.inl (by simp only [put, if_pos here]))
    · have kept : ∀ m : Mem, put m s j = m j := fun m => if_neg here
      have other : s.index ≠ j := fun h => here h.symm
      have later : m j = n j ∨ ∃ s ∈ rest, s.index = j := by simpa [other] using same
      simpa only [kept] using ih (put m s) (put n s) (by simpa only [kept] using later)

theorem copyToIndex {start : Int} {bytes : List Byte} {s : Store}
    (mem : s ∈ copyTo start bytes) : start ≤ s.index ∧ s.index < start + bytes.length := by
  induction bytes generalizing start with
  | nil => simp [copyTo] at mem
  | cons b rest ih =>
    rcases List.mem_cons.mp mem with rfl | later
    · simp only [List.length_cons]; omega
    · have bound := ih later
      simp only [List.length_cons]; omega

theorem copyToCovers (start : Int) (bytes : List Byte) {j : Int}
    (low : start ≤ j) (high : j < start + bytes.length) : ∃ s ∈ copyTo start bytes, s.index = j := by
  induction bytes generalizing start with
  | nil => simp only [List.length_nil] at high; omega
  | cons b rest ih =>
    simp only [List.length_cons] at high
    by_cases first : j = start
    · exact ⟨⟨start, b⟩, List.mem_cons_self, first.symm⟩
    · obtain ⟨s, mem, same⟩ := ih (start + 1) (by omega) (by omega)
      exact ⟨s, List.mem_cons_of_mem _ mem, same⟩

theorem holdsAppend (m : Mem) (start : Int) (xs ys : List Byte) :
    Holds m start (xs ++ ys) ↔ Holds m start xs ∧ Holds m (start + xs.length) ys := by
  induction xs generalizing start with
  | nil => simp [Holds]
  | cons x xs ih =>
    have shift : start + 1 + (xs.length : Int) = start + ((x :: xs).length : Int) := by
      simp only [List.length_cons]; omega
    simp only [List.cons_append, Holds, ih, shift, and_assoc]

theorem holdsFrame {m n : Mem} {start : Int} {bytes : List Byte} (held : Holds m start bytes)
    (same : ∀ j, start ≤ j → j < start + bytes.length → n j = m j) : Holds n start bytes := by
  induction bytes generalizing start with
  | nil => trivial
  | cons b rest ih =>
    simp only [List.length_cons] at same
    refine ⟨(same start (by omega) (by omega)).trans held.1, ih held.2 ?_⟩
    intro j low high
    exact same j (by omega) (by omega)

theorem copyHolds (m : Mem) (start : Int) (bytes : List Byte) :
    Holds (putAll m (copyTo start bytes)) start bytes := by
  induction bytes generalizing start m with
  | nil => trivial
  | cons b rest ih =>
    refine ⟨?_, ih (put m ⟨start, b⟩) (start + 1)⟩
    change putAll (put m ⟨start, b⟩) (copyTo (start + 1) rest) start = b
    rw [putAllFrame]
    · exact if_pos rfl
    · intro s mem
      have := copyToIndex mem
      omega

def readMem (m : Mem) (start : Int) : Nat → List Byte
  | 0 => []
  | n + 1 => m start :: readMem m (start + 1) n

theorem readHolds {m : Mem} {start : Int} {bytes : List Byte} (held : Holds m start bytes) :
    readMem m start bytes.length = bytes := by
  induction bytes generalizing start with
  | nil => rfl
  | cons b rest ih =>
    simp only [List.length_cons, readMem, ih held.2, List.cons.injEq, and_true]
    exact held.1

theorem readMemLength (m : Mem) (start : Int) (count : Nat) :
    (readMem m start count).length = count := by
  induction count generalizing start with
  | zero => rfl
  | succ count ih => simp only [readMem, List.length_cons, ih]

theorem readMemSucc (m : Mem) (start : Int) (count : Nat) :
    readMem m start (count + 1) = readMem m start count ++ [m (start + count)] := by
  induction count generalizing start with
  | zero => simp [readMem]
  | succ count ih =>
    have shift : start + 1 + (count : Int) = start + ((count + 1 : Nat) : Int) := by omega
    rw [readMem, ih (start + 1), shift]
    rfl

theorem holdsRead (m : Mem) (start : Int) (count : Nat) : Holds m start (readMem m start count) := by
  induction count generalizing start with
  | zero => trivial
  | succ count ih => exact ⟨rfl, ih (start + 1)⟩

theorem readMemFrame {m n : Mem} {start : Int} {count : Nat}
    (same : ∀ j, start ≤ j → j < start + count → n j = m j) :
    readMem n start count = readMem m start count := by
  induction count generalizing start with
  | zero => rfl
  | succ count ih =>
    have here := same start (by omega) (by omega)
    have later := @ih (start + 1) (fun j low high => same j (by omega) (by omega))
    simp only [readMem, here, later]

theorem readPrefix {m : Mem} {start : Int} {bytes : List Byte} (held : Holds m start bytes)
    {count : Nat} (short : bytes.length ≤ count) : bytes <+: readMem m start count := by
  induction bytes generalizing start count with
  | nil => exact List.nil_prefix
  | cons b rest ih =>
    obtain ⟨count, rfl⟩ := Nat.exists_eq_succ_of_ne_zero
      (Nat.ne_of_gt (Nat.lt_of_lt_of_le (Nat.succ_pos rest.length) short))
    obtain ⟨here, later⟩ := held
    simpa only [readMem, here, List.cons_prefix_cons, true_and] using ih later (by simpa using short)

def snprintf (m : Mem) (size : Nat) (output : List Byte) : Mem :=
  putAll m (copyTo 0 (output.take (size - 1) ++ [0]))

theorem snprintfCut (m : Mem) (size : Nat) (output : List Byte) :
    Holds (snprintf m size output) 0 (output.take (size - 1)) :=
  ((holdsAppend _ _ _ _).mp (copyHolds m 0 (output.take (size - 1) ++ [0]))).1

theorem snprintfHolds (m : Mem) {size : Nat} {output : List Byte} (fits : output.length < size) :
    Holds (snprintf m size output) 0 output := by
  have all : output.take (size - 1) = output := List.take_of_length_le (by omega)
  simpa only [all] using snprintfCut m size output

theorem snprintfPrints (m n : Mem) {size : Nat} {output : List Byte} (fits : output.length ≤ size) :
    readMem (snprintf m size output) 0 output.length =
      readMem (snprintf n size output) 0 output.length := by
  apply readMemFrame
  intro j low high
  have covered := copyToCovers 0 (output.take (size - 1) ++ [0]) low
    (by simp only [List.length_append, List.length_take, List.length_singleton]; omega)
  exact putAllAgree _ _ _ _ (.inr covered)

/- The string at `i` of a memory readable for `room` more bytes: `none` when no NUL
stands among them, where the C library would read on past the object. -/
def cstring (m : Mem) (i : Int) : Nat → Option (List Byte)
  | 0 => none
  | room + 1 => if m i = 0 then some [] else (cstring m (i + 1) room).map (m i :: ·)

theorem cstringOfHolds {m : Mem} {i : Int} {bytes : List Byte} {room : Nat}
    (held : Holds m i (bytes ++ [0])) (clean : 0 ∉ bytes) (fits : bytes.length < room) :
    cstring m i room = some bytes := by
  induction bytes generalizing i room with
  | nil =>
    obtain ⟨room, rfl⟩ := Nat.exists_eq_succ_of_ne_zero (by omega : room ≠ 0)
    exact if_pos held.1
  | cons b rest ih =>
    obtain ⟨room, rfl⟩ := Nat.exists_eq_succ_of_ne_zero (by omega : room ≠ 0)
    have here : m i = b := held.1
    have later : cstring m (i + 1) room = some rest :=
      ih held.2 (fun mem => clean (List.mem_cons_of_mem _ mem)) (by simpa using fits)
    have nonzero : b ≠ 0 := fun zero => clean (zero ▸ List.mem_cons_self)
    simp [cstring, here, nonzero, later]

theorem cstringHolds {m : Mem} {i : Int} {bytes : List Byte} {room : Nat}
    (found : cstring m i room = some bytes) :
    Holds m i (bytes ++ [0]) ∧ 0 ∉ bytes ∧ bytes.length < room := by
  induction room generalizing i bytes with
  | zero => simp [cstring] at found
  | succ room ih =>
    simp only [cstring] at found
    split at found
    · rename_i zero
      cases Option.some.inj found
      exact ⟨⟨zero, trivial⟩, by simp, Nat.succ_pos room⟩
    · rename_i nonzero
      obtain ⟨rest, later, same⟩ := Option.map_eq_some_iff.mp found
      obtain ⟨held, clean, short⟩ := ih later
      subst same
      exact ⟨⟨rfl, held⟩, by simpa using ⟨fun h => nonzero h.symm, clean⟩, by simpa using short⟩

theorem holdsUnique {m : Mem} {i : Int} {xs ys : List Byte} (left : Holds m i (xs ++ [0]))
    (right : Holds m i (ys ++ [0])) (cleanLeft : 0 ∉ xs) (cleanRight : 0 ∉ ys) : xs = ys := by
  have one := @cstringOfHolds m i xs (max xs.length ys.length + 1) left cleanLeft (by omega)
  have two := @cstringOfHolds m i ys (max xs.length ys.length + 1) right cleanRight (by omega)
  exact Option.some.inj (one.symm.trans two)

theorem holdsPrefix {m : Mem} {i : Int} {xs ys : List Byte} (held : Holds m i xs) (clean : 0 ∉ xs)
    (string : Holds m i (ys ++ [0])) : xs <+: ys := by
  induction xs generalizing i ys with
  | nil => exact List.nil_prefix
  | cons x xs ih =>
    obtain ⟨here, later⟩ := held
    cases ys with
    | nil =>
      have zero : m i = 0 := string.1
      exact absurd (here.symm.trans zero ▸ List.mem_cons_self) clean
    | cons y ys =>
      obtain ⟨same, rest⟩ := string
      have tail := ih later (fun mem => clean (List.mem_cons_of_mem _ mem)) rest
      rw [← here, ← same]
      exact (List.prefix_cons_inj _).mpr tail

theorem cstringEnds {m : Mem} {i j : Int} {room : Nat} (low : i ≤ j) (high : j < i + room)
    (zero : m j = 0) : ∃ bytes, cstring m i room = some bytes ∧ i + bytes.length ≤ j := by
  induction room generalizing i with
  | zero => omega
  | succ room ih =>
    by_cases here : m i = 0
    · exact ⟨[], by simp [cstring, here], by simpa using low⟩
    · have other : i ≠ j := fun same => here (same ▸ zero)
      obtain ⟨bytes, found, bound⟩ := @ih (i + 1) (by omega) (by omega)
      refine ⟨m i :: bytes, by simp [cstring, here, found], ?_⟩
      simp only [List.length_cons]
      omega

theorem cstringFrame {m n : Mem} {i : Int} {room : Nat}
    (same : ∀ j, i ≤ j → j < i + room → n j = m j) : cstring n i room = cstring m i room := by
  induction room generalizing i with
  | zero => rfl
  | succ room ih =>
    have here := same i (by omega) (by omega)
    have later := @ih (i + 1) (fun j low high => same j (by omega) (by omega))
    simp only [cstring, here, later]

end OsLabs.CMemory
