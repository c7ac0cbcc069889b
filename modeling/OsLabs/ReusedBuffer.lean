import OsLabs.CMemory

/-! A buffer that is written again and again from its beginning and never cleared. What is
read from it as a string depends on all the lengths written before. -/
namespace OsLabs.ReusedBuffer
open CMemory

def overlay (m : Mem) (bytes : List Byte) : Mem := putAll m (copyTo 0 bytes)

structure Filled (m : Mem) (top room : Nat) : Prop where
  low : ∀ j : Int, 0 ≤ j → j < top → m j ≠ 0
  high : ∀ j : Int, top ≤ j → j < room → m j = 0

theorem overlayHolds (m : Mem) (bytes : List Byte) : Holds (overlay m bytes) 0 bytes :=
  copyHolds m 0 bytes

theorem overlayBehind (m : Mem) {bytes : List Byte} {j : Int} (behind : bytes.length ≤ j) :
    overlay m bytes j = m j := by
  refine putAllFrame m _ j (fun s mem => ?_)
  have range := copyToIndex mem
  omega

theorem overlayBefore (m : Mem) (bytes : List Byte) {j : Int} (before : j < 0) :
    overlay m bytes j = m j := by
  refine putAllFrame m _ j (fun s mem => ?_)
  have range := copyToIndex mem
  omega

theorem heldAt {m : Mem} {i : Int} {bytes : List Byte} (held : Holds m i bytes) {k : Nat}
    (inside : k < bytes.length) : m (i + k) = bytes[k] := by
  induction bytes generalizing i k with
  | nil => cases inside
  | cons b rest ih =>
    cases k with
    | zero => simpa using held.1
    | succ k =>
      have later := ih held.2 (Nat.lt_of_succ_lt_succ inside)
      have place : i + 1 + (k : Int) = i + ((k + 1 : Nat) : Int) := by omega
      simpa only [place, List.getElem_cons_succ] using later

theorem heldIndex {m : Mem} {i : Int} {bytes : List Byte} (held : Holds m i bytes) {j : Int}
    (low : i ≤ j) (high : j < i + bytes.length) : m j ∈ bytes := by
  obtain ⟨k, rfl⟩ := Int.le.dest low
  have inside : k < bytes.length := by omega
  rw [heldAt held inside]
  exact List.getElem_mem inside

theorem overlayPlain (m : Mem) {bytes : List Byte} (clean : 0 ∉ bytes) {j : Int} (low : 0 ≤ j)
    (inside : j < bytes.length) : overlay m bytes j ≠ 0 := by
  intro zero
  have mem := heldIndex (overlayHolds m bytes) low (by omega)
  exact clean (zero ▸ mem)

theorem overlayText {m : Mem} {bytes : List Byte} {room : Nat} (clean : 0 ∉ bytes)
    (short : bytes.length < room) :
    cstring (overlay m bytes) 0 room = some bytes ↔ m bytes.length = 0 := by
  have behind : overlay m bytes bytes.length = m bytes.length := overlayBehind m (Int.le_refl _)
  have place : (0 : Int) + bytes.length = bytes.length := Int.zero_add _
  constructor
  · intro found
    have held := ((holdsAppend _ _ _ _).mp (cstringHolds found).1).2.1
    rwa [place, behind] at held
  · intro zero
    refine cstringOfHolds ((holdsAppend _ _ _ _).mpr ⟨overlayHolds m bytes, ?_, trivial⟩) clean short
    rw [place, behind, zero]

theorem cstringNone {m : Mem} {i : Int} {room : Nat} (plain : ∀ j, i ≤ j → j < i + room → m j ≠ 0) :
    cstring m i room = none := by
  induction room generalizing i with
  | zero => rfl
  | succ room ih =>
    have here := plain i (Int.le_refl _) (by omega)
    have later := @ih (i + 1) (fun j low high => plain j (by omega) (by omega))
    simp only [cstring, if_neg here, later, Option.map_none]

theorem filledNone {m : Mem} {room : Nat} (filled : Filled m room room) : cstring m 0 room = none :=
  cstringNone (fun j low high => filled.low j low (by omega))

theorem filledText {m : Mem} {top room : Nat} (filled : Filled m top room) (below : top < room) :
    ∃ text, cstring m 0 room = some text ∧ text.length = top := by
  have zero := filled.high top (Int.le_refl _) (by omega)
  obtain ⟨text, found, bound⟩ := @cstringEnds m 0 top room (by omega) (by omega) zero
  have ended := ((holdsAppend _ _ _ _).mp (cstringHolds found).1).2.1
  refine ⟨text, found, ?_⟩
  by_cases same : text.length = top
  · exact same
  · exact absurd ended (filled.low (0 + text.length) (by omega) (by omega))

theorem overlayFilled {m : Mem} {top room : Nat} (filled : Filled m top room) {bytes : List Byte}
    (clean : 0 ∉ bytes) : Filled (overlay m bytes) (max top bytes.length) room := by
  constructor
  · intro j low high
    by_cases inside : j < bytes.length
    · exact overlayPlain m clean low inside
    · rw [overlayBehind m (by omega)]
      exact filled.low j low (by omega)
  · intro j low high
    rw [overlayBehind m (by omega)]
    exact filled.high j (by omega) high

end OsLabs.ReusedBuffer
