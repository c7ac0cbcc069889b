import Mathlib.Data.List.TakeWhile
import OsLabs.CMemory

/-! Index scans of a byte buffer: where a forward or backward search for a byte stops
when the text at the position is known, and how pieces of a text that end with a
terminator fall into its lines. Bytes behind the buffer's size may be asked for, as the
scans of the labs test a byte before they test the index. -/
namespace OsLabs.BufferScan
open CMemory

abbrev Buffer := Nat → Byte

def HoldsAt (buf : Buffer) : Nat → List Byte → Prop
  | _, [] => True
  | x, b :: rest => buf x = b ∧ HoldsAt buf (x + 1) rest

def fill (buf : Buffer) (x : Nat) (bytes : List Byte) : Buffer :=
  fun k => if x ≤ k ∧ k < x + bytes.length then bytes.getD (k - x) 0 else buf k

def seek (buf : Buffer) (stop : Byte → Bool) : Nat → Nat → Nat
  | 0, x => x
  | room + 1, x => if stop (buf x) then x else seek buf stop room (x + 1)

def seekBack (buf : Buffer) (stop : Byte) : Nat → Nat
  | 0 => 0
  | x + 1 => if buf (x + 1) = stop then x + 1 else seekBack buf stop x

def slice (buf : Buffer) (x y : Nat) : List Byte := (List.range' x (y - x)).map buf

theorem holdsAtAppend (buf : Buffer) (x : Nat) (xs ys : List Byte) :
    HoldsAt buf x (xs ++ ys) ↔ HoldsAt buf x xs ∧ HoldsAt buf (x + xs.length) ys := by
  induction xs generalizing x with
  | nil => simp [HoldsAt]
  | cons b rest ih =>
    simp only [List.cons_append, HoldsAt, ih, List.length_cons, and_assoc]
    rw [Nat.add_assoc, Nat.add_comm 1]

theorem holdsAtIff (buf : Buffer) (x : Nat) (bytes : List Byte) :
    HoldsAt buf x bytes ↔ ∀ k (h : k < bytes.length), buf (x + k) = bytes[k] := by
  induction bytes generalizing x with
  | nil => simp [HoldsAt]
  | cons b rest ih =>
    simp only [HoldsAt, ih]
    constructor
    · rintro ⟨head, tail⟩ k inside
      cases k with
      | zero => exact head
      | succ k =>
        have later := tail k (Nat.lt_of_succ_lt_succ inside)
        rwa [Nat.add_right_comm, Nat.add_assoc] at later
    · intro all
      refine ⟨all 0 (Nat.succ_pos _), fun k inside => ?_⟩
      have later := all (k + 1) (Nat.succ_lt_succ inside)
      rwa [Nat.add_right_comm, Nat.add_assoc]

theorem fillHolds (buf : Buffer) (x : Nat) (bytes : List Byte) : HoldsAt (fill buf x bytes) x bytes := by
  refine (holdsAtIff _ _ _).mpr fun k inside => ?_
  unfold fill
  rw [if_pos ⟨Nat.le_add_right _ _, Nat.add_lt_add_left inside x⟩, Nat.add_sub_cancel_left]
  simp only [List.getD_eq_getElem?_getD, List.getElem?_eq_getElem inside, Option.getD_some]

theorem seekFinds {buf : Buffer} {stop : Byte → Bool} {x room : Nat} {bytes : List Byte} {b : Byte}
    (held : HoldsAt buf x (bytes ++ [b])) (skips : ∀ c ∈ bytes, stop c = false) (found : stop b = true)
    (fits : bytes.length < room) : seek buf stop room x = x + bytes.length := by
  induction bytes generalizing x room with
  | nil =>
    obtain ⟨room, rfl⟩ := Nat.exists_eq_succ_of_ne_zero (Nat.ne_of_gt fits)
    have here : buf x = b := held.1
    simp only [seek, here, found, if_true, List.length_nil, Nat.add_zero]
  | cons c rest ih =>
    obtain ⟨room, rfl⟩ := Nat.exists_eq_succ_of_ne_zero (Nat.ne_of_gt (Nat.zero_lt_of_lt fits))
    have here : buf x = c := held.1
    have later := ih held.2 (fun d mem => skips d (List.mem_cons_of_mem _ mem))
      (Nat.lt_of_succ_lt_succ fits)
    simp only [seek, here, skips c List.mem_cons_self, Bool.false_eq_true, if_false, later,
      List.length_cons]
    omega

theorem seekBackFinds {buf : Buffer} {stop : Byte} {x n : Nat}
    (absent : ∀ k, x < k → k ≤ x + n → buf k ≠ stop) (found : x = 0 ∨ buf x = stop) :
    seekBack buf stop (x + n) = x := by
  induction n with
  | zero =>
    cases x with
    | zero => rfl
    | succ x =>
      rcases found with zero | here
      · cases zero
      · exact if_pos here
  | succ n ih =>
    have here := absent (x + (n + 1)) (by omega) (Nat.le_refl _)
    rw [← Nat.add_assoc] at here ⊢
    rw [seekBack, if_neg here]
    exact ih fun k above below => absent k above (by omega)

theorem sliceHolds {buf : Buffer} {x : Nat} {bytes : List Byte} (held : HoldsAt buf x bytes) :
    slice buf x (x + bytes.length) = bytes := by
  have each := (holdsAtIff _ _ _).mp held
  refine List.ext_getElem (by simp [slice]) fun k inside other => ?_
  simp only [slice, List.getElem_map, List.getElem_range', Nat.one_mul]
  exact each k other

theorem seekFrom (buf : Buffer) (stop : Byte → Bool) (room x : Nat) : x ≤ seek buf stop room x := by
  induction room generalizing x with
  | zero => exact Nat.le_refl _
  | succ room ih =>
    rw [seek]
    split
    · exact Nat.le_refl _
    · exact Nat.le_trans (Nat.le_succ x) (ih (x + 1))

theorem seekStops {buf : Buffer} {stop : Byte → Bool} {room x : Nat}
    (inside : seek buf stop room x < x + room) : stop (buf (seek buf stop room x)) = true := by
  induction room generalizing x with
  | zero => exact absurd inside (Nat.lt_irrefl _)
  | succ room ih =>
    rw [seek] at inside ⊢
    split
    · assumption
    · rename_i passed
      rw [if_neg passed] at inside
      exact ih (by omega)

section Slices

theorem sliceNone (buf : Buffer) {x n : Nat} (behind : n ≤ x) : slice buf x n = [] := by
  rw [slice, Nat.sub_eq_zero_of_le behind]
  rfl

theorem sliceNext (buf : Buffer) {x n : Nat} (inside : x < n) :
    slice buf x n = buf x :: slice buf (x + 1) n := by
  have length : n - x = n - (x + 1) + 1 := by omega
  rw [slice, length]
  rfl

theorem sliceTail (buf : Buffer) (x n : Nat) : (slice buf x n).tail = slice buf (x + 1) n := by
  by_cases inside : x < n
  · rw [sliceNext buf inside]
    rfl
  · rw [sliceNone buf (Nat.le_of_not_lt inside), sliceNone buf (by omega)]
    rfl

theorem sliceLast (buf : Buffer) (n : Nat) : slice buf 0 (n + 1) = slice buf 0 n ++ [buf n] := by
  simp [slice, List.range'_concat]

theorem sliceFilled (buf : Buffer) (x n : Nat) : slice buf x n ≠ [] ↔ x < n := by
  by_cases inside : x < n
  · simp [sliceNext buf inside, inside]
  · simp [sliceNone buf (Nat.le_of_not_lt inside), inside]

theorem sliceHeld {buf : Buffer} {bytes : List Byte} (held : HoldsAt buf 0 bytes) {k : Nat}
    (inside : k ≤ bytes.length) :
    slice buf 0 k = bytes.take k ∧ slice buf k bytes.length = bytes.drop k := by
  obtain ⟨front, rest⟩ := (holdsAtAppend buf 0 (bytes.take k) (bytes.drop k)).mp (by
    rwa [List.take_append_drop])
  have before := sliceHolds front
  have behind := sliceHolds rest
  rw [List.length_take, Nat.min_eq_left inside, Nat.zero_add] at before behind
  rw [List.length_drop, Nat.add_sub_cancel' inside] at behind
  exact ⟨before, behind⟩

theorem seekSlice (buf : Buffer) (stop : Byte → Bool) {room x n : Nat} (enough : n ≤ x + room) :
    slice buf (seek buf stop room x) n = (slice buf x n).dropWhile (fun c => !stop c) := by
  induction room generalizing x with
  | zero =>
    have behind : n ≤ x := enough
    rw [seek, sliceNone buf behind, List.dropWhile_nil]
  | succ room ih =>
    by_cases inside : x < n
    · rw [seek, sliceNext buf inside, List.dropWhile_cons]
      cases found : stop (buf x) with
      | true => simp [sliceNext buf inside]
      | false => simpa using ih (x := x + 1) (by omega)
    · have behind := seekFrom buf stop (room + 1) x
      rw [sliceNone buf (Nat.le_of_not_lt inside), sliceNone buf (by omega), List.dropWhile_nil]

theorem seekBelow (buf : Buffer) (stop : Byte → Bool) {room x n : Nat} (enough : n ≤ x + room) :
    seek buf stop room x < n ↔ ∃ c ∈ slice buf x n, stop c = true := by
  rw [← sliceFilled buf, seekSlice buf stop enough, Ne, List.dropWhile_eq_nil_iff]
  simp

theorem seekBackStart (buf : Buffer) (stop : Byte) (x : Nat) :
    (if buf (seekBack buf stop x) = stop then seekBack buf stop x + 1 else seekBack buf stop x) =
      x + 1 - ((slice buf 0 (x + 1)).reverse.takeWhile (fun c => c != stop)).length := by
  induction x with
  | zero =>
    rw [sliceLast, sliceNone buf (Nat.le_refl 0), seekBack]
    by_cases found : buf 0 = stop
    · simp [found]
    · simp [found]
  | succ x ih =>
    rw [sliceLast, List.reverse_concat, List.takeWhile_cons, seekBack]
    by_cases found : buf (x + 1) = stop
    · simp [found]
    · rw [if_neg found, ih]
      simp [found]

end Slices

section Reads

/- The indices a search looks at: the byte is tested before the room. -/
def seekReads (buf : Buffer) (stop : Byte → Bool) : Nat → Nat → List Nat
  | 0, x => [x]
  | room + 1, x => x :: if stop (buf x) then [] else seekReads buf stop room (x + 1)

def seekBackReads (buf : Buffer) (stop : Byte) : Nat → List Nat
  | 0 => []
  | x + 1 => (x + 1) :: if buf (x + 1) = stop then [] else seekBackReads buf stop x

theorem seekReadsTo {buf : Buffer} {stop : Byte → Bool} {room x j : Nat}
    (read : j ∈ seekReads buf stop room x) : j ≤ seek buf stop room x := by
  induction room generalizing x with
  | zero => exact Nat.le_of_eq (List.mem_singleton.mp read)
  | succ room ih =>
    rw [seekReads] at read
    rw [seek]
    rcases List.mem_cons.mp read with rfl | later
    · split
      · exact Nat.le_refl _
      · exact Nat.le_trans (Nat.le_succ j) (seekFrom buf stop room (j + 1))
    · split
      · rename_i found
        rw [if_pos found] at later
        contradiction
      · rename_i passed
        rw [if_neg passed] at later
        exact ih later

theorem seekReadsLast (buf : Buffer) (stop : Byte → Bool) (room x : Nat) :
    seek buf stop room x ∈ seekReads buf stop room x := by
  induction room generalizing x with
  | zero => exact List.mem_singleton_self x
  | succ room ih =>
    rw [seek, seekReads]
    split
    · exact List.mem_cons_self
    · exact List.mem_cons_of_mem _ (ih (x + 1))

theorem seekBackBelow (buf : Buffer) (stop : Byte) (x : Nat) : seekBack buf stop x ≤ x := by
  induction x with
  | zero => exact Nat.le_refl _
  | succ x ih =>
    rw [seekBack]
    split
    · exact Nat.le_refl _
    · exact Nat.le_succ_of_le ih

theorem seekBackReadsBelow {buf : Buffer} {stop : Byte} {x j : Nat}
    (read : j ∈ seekBackReads buf stop x) : j ≤ x := by
  induction x with
  | zero => cases read
  | succ x ih =>
    rw [seekBackReads] at read
    rcases List.mem_cons.mp read with rfl | later
    · exact Nat.le_refl _
    · split at later
      · contradiction
      · exact Nat.le_succ_of_le (ih later)

end Reads

section Lines
variable {α β : Type*} {mark : β}

theorem wholeLines {body : α → List β} (plain : ∀ line, mark ∉ body line) {lines : List α}
    {front rest : List β} (text : front ++ rest = lines.flatMap (fun line => body line ++ [mark]))
    (ends : front = [] ∨ ∃ init, front = init ++ [mark]) :
    ∃ first second, lines = first ++ second ∧
      front = first.flatMap (fun line => body line ++ [mark]) ∧
      rest = second.flatMap (fun line => body line ++ [mark]) := by
  induction lines generalizing front with
  | nil =>
    obtain ⟨rfl, rfl⟩ := List.append_eq_nil_iff.mp text
    exact ⟨[], [], rfl, rfl, rfl⟩
  | cons line lines ih =>
    rw [List.flatMap_cons] at text
    rcases List.append_eq_append_iff.mp text with ⟨left, same, tail⟩ | ⟨more, same, tail⟩
    · rcases ends with rfl | ⟨init, rfl⟩
      · exact ⟨[], line :: lines, rfl, rfl, by rw [List.flatMap_cons, same, tail]; rfl⟩
      · rcases List.eq_nil_or_concat left with rfl | ⟨inner, b, rfl⟩
        · exact ⟨[line], lines, rfl, by simpa using same.symm, by simpa using tail⟩
        · rw [List.concat_eq_append, ← List.append_assoc] at same
          have inside := (List.append_inj' same rfl).1
          exact absurd (by rw [inside]; simp) (plain line)
    · have stops : more = [] ∨ ∃ init, more = init ++ [mark] := by
        rcases List.eq_nil_or_concat more with rfl | ⟨inner, b, rfl⟩
        · exact .inl rfl
        · rcases ends with rfl | ⟨init, rfl⟩
          · simp at same
          · rw [List.concat_eq_append, ← List.append_assoc] at same
            have last := (List.append_inj' same rfl).2
            exact .inr ⟨inner, by rw [List.concat_eq_append, ← last]⟩
      obtain ⟨first, second, rfl, whole, kept⟩ := ih tail.symm stops
      exact ⟨line :: first, second, rfl, by rw [List.flatMap_cons, same, whole], kept⟩

theorem piecesAreLines {body : α → List β} (plain : ∀ line, mark ∉ body line) {lines : List α}
    {pieces : List (List β)}
    (text : pieces.flatten = lines.flatMap (fun line => body line ++ [mark]))
    (ends : ∀ piece ∈ pieces, ∃ init, piece = init ++ [mark]) :
    ∃ groups : List (List α), lines = groups.flatten ∧
      pieces = groups.map (fun group => group.flatMap (fun line => body line ++ [mark])) := by
  induction pieces generalizing lines with
  | nil =>
    cases lines with
    | nil => exact ⟨[], rfl, rfl⟩
    | cons line lines => simp at text
  | cons piece pieces ih =>
    obtain ⟨first, second, rfl, whole, rest⟩ := wholeLines plain text
      (.inr (ends piece List.mem_cons_self))
    obtain ⟨groups, rfl, parts⟩ := ih rest fun p mem => ends p (List.mem_cons_of_mem _ mem)
    exact ⟨first :: groups, rfl, by rw [List.map_cons, ← whole, ← parts]⟩

end Lines

end OsLabs.BufferScan
