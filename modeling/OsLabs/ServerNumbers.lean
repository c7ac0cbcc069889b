import Mathlib.Data.List.TakeWhile
import Mathlib.Tactic.Linarith
import OsLabs.ServerLines
import OsLabs.ServerWords

/-! What the select server makes of one whole message: atoi, the test of its result and the
square, against the numbers that messages spell. -/
namespace OsLabs.SelectServer
open CInteger CMemory

def splitSign : List Byte → Int × List Byte
  | 45 :: rest => (-1, rest)
  | 43 :: rest => (1, rest)
  | rest => (1, rest)

structure Spells (m : List Byte) (v : Int) : Prop where
  some : (splitSign m).2 ≠ []
  digits : ∀ b ∈ (splitSign m).2, isDigit b = true
  value : v = (splitSign m).1 * decimal (splitSign m).2
  low : -2^31 ≤ v
  high : v < 2^31

structure Right (i : Slot) (m : List Byte) (line : Line) : Prop where
  square : ∀ v, Spells m v → line = .result i (v * v) ∧ v * v < 2^31
  other : line = .notNumber i m ↔ ∀ v, ¬ Spells m v

/- The number that atoi finds before it is cut to long and to int: leading blanks, a sign, and
the digits up to the first other byte. -/
def leading (m : List Byte) : Int := (signed m).1 * decimal ((signed m).2.takeWhile isDigit)

def largestRoot : Int := 46340

structure Meets (m : List Byte) : Prop where
  number : ∀ v, Spells m v → v ≠ 0 ∧ -largestRoot ≤ v ∧ v ≤ largestRoot
  other : (∀ v, ¬ Spells m v) → leading m ≤ -2^63 ∨ leading m < 2^63 ∧ leading m % 2^32 = 0

structure Whole (s : Sys) (set : List Fd) (i : Slot) (c : Conn) (count : Nat) (m : List Byte) :
    Prop where
  pc : s.pc = .clients set i
  due : reported s set i = some i
  live : s.fds (s.arrSock i) = some c
  alive : (s.peer c).reset = false
  taken : (s.peer c).inbox.take count = m ++ [0]
  clean : 0 ∉ m

theorem signedSplit (m : List Byte) : signed m = splitSign (m.dropWhile isSpace) := rfl

theorem atoiLeading (m : List Byte) :
    atoi m = toInt (max (-2^63) (min (2^63 - 1) (leading m))) := rfl

theorem atoiZero (m : List Byte) :
    atoi m = 0 ↔ leading m ≤ -2^63 ∨ leading m < 2^63 ∧ leading m % 2^32 = 0 := by
  rw [atoiLeading]
  unfold toInt
  omega

theorem digitNoSpace {b : Byte} (digit : isDigit b = true) : isSpace b = false := by
  simp only [isDigit, Bool.and_eq_true, decide_eq_true_eq, UInt8.le_iff_toNat_le] at digit
  have low : 48 ≤ b.toNat := digit.1
  have blank : b ≠ 32 := by
    rintro rfl
    exact absurd low (by decide)
  have control : ¬ b ≤ 13 := by
    rw [UInt8.le_iff_toNat_le]
    exact fun high => absurd (Nat.le_trans low high) (by decide)
  simp [isSpace, blank, control]

theorem spellsStart {m : List Byte} {v : Int} (spells : Spells m v) : m.dropWhile isSpace = m := by
  cases m with
  | nil => rfl
  | cons b rest =>
    have first : isSpace b = false := by
      have digits := spells.digits
      unfold splitSign at digits
      split at digits
      · rename_i same
        cases same
        rfl
      · rename_i same
        cases same
        rfl
      · exact digitNoSpace (digits b List.mem_cons_self)
    exact List.dropWhile_cons_of_neg (by simp [first])

theorem spellsLeading {m : List Byte} {v : Int} (spells : Spells m v) : leading m = v := by
  have all : (splitSign m).2.takeWhile isDigit = (splitSign m).2 :=
    List.takeWhile_eq_self_iff.mpr spells.digits
  rw [leading, signedSplit, spellsStart spells, all]
  exact spells.value.symm

theorem spellsAtoi {m : List Byte} {v : Int} (spells : Spells m v) : atoi m = v := by
  have low := spells.low
  have high := spells.high
  rw [atoiLeading, spellsLeading spells]
  exact (congrArg toInt (by omega)).trans (toIntExact low high)

theorem squareFits (v : Int) : v * v < 2^31 ↔ -largestRoot ≤ v ∧ v ≤ largestRoot := by
  have root : largestRoot = 46340 := rfl
  rw [root]
  constructor
  · intro small
    constructor
    · by_contra below
      nlinarith
    · by_contra above
      nlinarith
  · rintro ⟨low, high⟩
    nlinarith

theorem reportSpells {i : Slot} {buf : Buf} {m : List Byte} (text : bufText buf = m) {v : Int}
    (spells : Spells m v) :
    report i buf = if v ≠ 0 then .result i (toInt (v * v)) else .notNumber i m := by
  unfold report
  rw [text, spellsAtoi spells]

theorem rightExactly {i : Slot} {buf : Buf} {m : List Byte} (text : bufText buf = m) :
    Right i m (report i buf) ↔ Meets m := by
  by_cases number : ∃ v, Spells m v
  · obtain ⟨v, spells⟩ := number
    have line := @reportSpells i _ _ text _ spells
    constructor
    · intro right
      refine ⟨fun w other => ?_, fun spellsNothing => absurd spells (spellsNothing v)⟩
      obtain ⟨square, small⟩ := right.square w other
      refine ⟨fun zero => ?_, (squareFits w).mp small⟩
      rw [@reportSpells i _ _ text _ other, zero, if_neg (not_not_intro rfl)] at square
      cases square
    · intro meets
      obtain ⟨nonzero, bounds⟩ := meets.number v spells
      have small := (squareFits v).mpr bounds
      have exact : toInt (v * v) = v * v := toIntExact (by nlinarith [mul_self_nonneg v]) small
      rw [if_pos nonzero, exact] at line
      rw [line]
      refine ⟨fun w other => ?_, iff_of_false Line.noConfusion fun spellsNothing => spellsNothing v spells⟩
      rw [← (spellsAtoi spells).symm.trans (spellsAtoi other)]
      exact ⟨rfl, small⟩
  · have spellsNothing : ∀ v, ¬ Spells m v := fun v spells => number ⟨v, spells⟩
    have zero : report i buf = .notNumber i m ↔ atoi m = 0 := by
      unfold report
      rw [text]
      by_cases nothing : atoi m = 0
      · rw [if_neg (not_not_intro nothing)]
        exact iff_of_true rfl nothing
      · rw [if_pos nothing]
        exact iff_of_false Line.noConfusion nothing
    constructor
    · intro right
      exact ⟨fun v spells => absurd spells (spellsNothing v),
        fun _ => (atoiZero m).mp (zero.mp (right.other.mpr spellsNothing))⟩
    · intro meets
      exact ⟨fun v spells => absurd spells (spellsNothing v),
        iff_of_true (zero.mpr ((atoiZero m).mpr (meets.other spellsNothing))) spellsNothing⟩

theorem wholeReported {host : Host} {s t : Sys} {set : List Fd} {i : Slot} {c : Conn} {count : Nat}
    {m : List Byte} (whole : Whole s set i c count m)
    (taken : serverStep host s (.recv count) = some t) :
    t.out = s.out ++ [report i (received s.buf (m ++ [0]))] ∧
      bufText (received s.buf (m ++ [0])) = m := by
  have filled : (s.peer c).inbox ≠ [] := by
    intro empty
    have taken := whole.taken
    rw [empty, List.take_nil] at taken
    exact List.append_ne_nil_of_right_ne_nil _ (List.cons_ne_nil _ _) taken.symm
  simp only [serverStep, whole.pc, whole.due, Option.bind_some, whole.live, recvStep, whole.alive,
    Bool.false_eq_true, if_false, if_pos filled] at taken
  split at taken
  · rename_i room
    cases taken
    have length := congrArg List.length whole.taken
    rw [List.length_take, List.length_append, List.length_singleton] at length
    rw [whole.taken]
    exact ⟨rfl, ClientSession.textNul s.buf whole.clean (by omega)⟩
  · cases taken

theorem numbersExactly {host : Host} {s t : Sys} {set : List Fd} {i : Slot} {c : Conn} {count : Nat}
    {m : List Byte} (whole : Whole s set i c count m)
    (taken : serverStep host s (.recv count) = some t) :
    (∃ line, t.out = s.out ++ [line] ∧ Right i m line) ↔ Meets m := by
  obtain ⟨out, text⟩ := wholeReported whole taken
  rw [← @rightExactly i _ _ text, out]
  constructor
  · rintro ⟨line, same, right⟩
    cases List.append_cancel_left same
    exact right
  · exact fun right => ⟨_, rfl, right⟩

def waiting (m : List Byte) : Sys :=
  {boot (fun _ => 0) with
    pc := .clients [4] 0,
    arrSock := Function.update (fun _ => 0) firstSlot 4,
    fds := Function.update (fun _ => none) 4 (some 0),
    next := 1,
    peer := fun _ => ⟨m ++ [0], false, false⟩}

theorem waitingWhole {m : List Byte} (clean : 0 ∉ m) :
    Whole (waiting m) [4] firstSlot 0 (m.length + 1) m where
  pc := rfl
  due := rfl
  live := rfl
  alive := rfl
  taken := List.take_of_length_le (Nat.le_of_eq List.length_append)
  clean := clean

theorem waitingTaken (host : Host) {m : List Byte} (clean : 0 ∉ m) (short : m.length + 1 ≤ maxLenBuf) :
    ∃ t, serverStep host (waiting m) (.recv (m.length + 1)) = some t := by
  have filled : ((waiting m).peer 0).inbox ≠ [] :=
    List.append_ne_nil_of_right_ne_nil _ (List.cons_ne_nil _ _)
  have room : 0 < m.length + 1 ∧ m.length + 1 ≤ maxLenBuf ∧
      m.length + 1 ≤ ((waiting m).peer 0).inbox.length := by
    refine ⟨Nat.succ_pos _, short, ?_⟩
    simp [waiting]
  have whole := waitingWhole clean
  refine Option.isSome_iff_exists.mp ?_
  simp only [serverStep, whole.pc, whole.due, Option.bind_some, whole.live, recvStep, whole.alive,
    Bool.false_eq_true, if_false, if_pos filled, if_pos room, Option.isSome_some]

theorem spellsDigits {digits : List Byte} (filled : digits ≠ []) (all : ∀ b ∈ digits, isDigit b = true)
    (small : (decimal digits : Int) < 2^31) (plain : splitSign digits = (1, digits)) :
    Spells digits (decimal digits) := by
  refine ⟨by rwa [plain], by rwa [plain], ?_, by omega, small⟩
  rw [plain, Int.one_mul]

def Missed (m : List Byte) : Prop :=
  ∃ t, serverStep someHost (waiting m) (.recv (m.length + 1)) = some t ∧
    ¬ ∃ line, t.out = (waiting m).out ++ [line] ∧ Right firstSlot m line

theorem missedUnless {m : List Byte} (clean : 0 ∉ m) (short : m.length + 1 ≤ maxLenBuf)
    (fails : ¬ Meets m) : Missed m := by
  obtain ⟨t, taken⟩ := waitingTaken someHost clean short
  obtain ⟨out, text⟩ := wholeReported (waitingWhole clean) taken
  refine ⟨t, taken, ?_⟩
  rintro ⟨line, same, right⟩
  cases List.append_cancel_left (out.symm.trans same)
  exact fails ((rightExactly text).mp right)

theorem numbersMissed : Missed [48] ∧ Missed [52, 54, 51, 52, 49] ∧ Missed [49, 50, 97, 98, 99] := by
  refine ⟨missedUnless (by decide) (by decide) fun meets => ?_,
    missedUnless (by decide) (by decide) fun meets => ?_,
    missedUnless (by decide) (by decide) fun meets => ?_⟩
  · have zero : decimal [48] = 0 := rfl
    have spells := @spellsDigits [48] (by decide) (List.all_eq_true.mp rfl) (by omega) rfl
    exact (meets.number _ spells).1 (congrArg Nat.cast zero)
  · have value : decimal [52, 54, 51, 52, 49] = 46341 := rfl
    have spells := @spellsDigits [52, 54, 51, 52, 49] (by decide) (List.all_eq_true.mp rfl)
      (by omega) rfl
    have bound := (meets.number _ spells).2.2
    unfold largestRoot at bound
    omega
  · have spellsNothing : ∀ v, ¬ Spells [49, 50, 97, 98, 99] v := fun v spells =>
      absurd (spells.digits 97 (by decide)) (by decide)
    exact absurd (meets.other spellsNothing) (by decide)

theorem sevenSquared : ∃ t, serverStep someHost (waiting [45, 55]) (.recv 3) = some t ∧
    ∃ line, t.out = (waiting [45, 55]).out ++ [line] ∧ Right firstSlot [45, 55] line := by
  have clean : (0 : Byte) ∉ [45, 55] := by decide
  have spells : Spells [45, 55] (-7) := ⟨by decide, List.all_eq_true.mp rfl, rfl, by omega, by omega⟩
  obtain ⟨t, taken⟩ := waitingTaken someHost clean (by decide)
  refine ⟨t, taken, (numbersExactly (waitingWhole clean) taken).mpr ⟨fun v other => ?_, fun empty => ?_⟩⟩
  · rw [← (spellsAtoi spells).symm.trans (spellsAtoi other)]
    unfold largestRoot
    omega
  · exact absurd spells (empty (-7))

end OsLabs.SelectServer
