import Mathlib.Data.List.DropRight
import OsLabs.CMemory

/-! Text in columns: labels, and fields padded with blanks up to the width of their column. A field
that does not fit widens its column. -/
namespace OsLabs.TextColumns
open CMemory

section Columns
variable {β : Type*} [DecidableEq β]

def strip (start text : List β) : Option (List β) :=
  if text.take start.length = start then some (text.drop start.length) else none

theorem stripAppend (start rest : List β) : strip start (start ++ rest) = some rest := by
  rw [strip, List.take_left, if_pos rfl, List.drop_left]

theorem stripOther {start other : List β} (within : other.length ≤ start.length)
    (apart : start.take other.length ≠ other) (rest : List β) : strip start (other ++ rest) = none := by
  refine if_neg fun same => apart ?_
  rw [← same, List.take_take, Nat.min_eq_left within, List.take_left]

variable (blank : β)

def padded (width : Nat) (field : List β) : List β := field ++ List.replicate (width - field.length) blank

def readFixed (width : Nat) (text : List β) : List β × List β :=
  ((text.take width).rdropWhile (· = blank), text.drop width)

def readWord (letter : β → Bool) (text : List β) : List β × List β :=
  (text.takeWhile letter, (text.dropWhile letter).dropWhile (· = blank))

abbrev Trimmed (field : List β) : Prop := ∀ b ∈ field.getLast?, b ≠ blank

variable {blank}

theorem trimPadded {field : List β} (trimmed : Trimmed blank field) (n : Nat) :
    (field ++ List.replicate n blank).rdropWhile (· = blank) = field := by
  induction n with
  | zero =>
    rw [List.replicate_zero, List.append_nil, List.rdropWhile_eq_self_iff]
    intro filled same
    exact trimmed _ (List.getLast_mem_getLast? filled) (of_decide_eq_true same)
  | succ n ih =>
    rw [List.replicate_succ', ← List.append_assoc, List.rdropWhile_concat, if_pos (decide_eq_true rfl), ih]

theorem readFixedBack {width : Nat} {field : List β} (fits : field.length ≤ width)
    (trimmed : Trimmed blank field) (rest : List β) :
    readFixed blank width (padded blank width field ++ rest) = (field, rest) := by
  have length : (padded blank width field).length = width := by
    rw [padded, List.length_append, List.length_replicate]
    omega
  rw [readFixed, List.take_left' length, List.drop_left' length, padded, trimPadded trimmed]

theorem readWordBack {letter : β → Bool} {word rest : List β} (letters : ∀ b ∈ word, letter b = true)
    (other : letter blank = false) (stops : ∀ b ∈ rest.head?, letter b = false ∧ b ≠ blank) (n : Nat) :
    readWord blank letter (word ++ (List.replicate n blank ++ rest)) = (word, rest) := by
  have behind : (List.replicate n blank ++ rest).takeWhile letter = [] ∧
      (List.replicate n blank ++ rest).dropWhile letter = List.replicate n blank ++ rest := by
    cases n with
    | zero =>
      cases rest with
      | nil => exact ⟨rfl, rfl⟩
      | cons b more =>
        have first := (stops b rfl).1
        simp [first]
    | succ n => simp [List.replicate_succ, other]
  have blanks : ∀ b ∈ List.replicate n blank, decide (b = blank) = true :=
    fun b mem => decide_eq_true (List.eq_of_mem_replicate mem)
  have ends : rest.dropWhile (· = blank) = rest := by
    cases rest with
    | nil => rfl
    | cons b more => exact List.dropWhile_cons_of_neg (by simpa using (stops b rfl).2)
  rw [readWord, List.takeWhile_append_of_pos letters, List.dropWhile_append_of_pos letters, behind.1, behind.2,
    List.dropWhile_append_of_pos blanks, ends, List.append_nil]

end Columns

section Numbers

def decimalText (n : Nat) : List Byte := (Nat.toDigits 10 n).map (fun (d : Char) => UInt8.ofNat d.toNat)

def minus : Byte := 45

def intText (v : Int) : List Byte := if v < 0 then minus :: decimalText v.natAbs else decimalText v.natAbs

def isNumeral (b : Byte) : Bool := b = minus || (48 ≤ b && b ≤ 57)

def readNat (digits : List Byte) : Nat := Nat.ofDigitChars 10 (digits.map fun b => Char.ofNat b.toNat) 0

def readInt (text : List Byte) : Int :=
  if text.head? = some minus then -(readNat text.tail) else readNat text

theorem digitByte {d : Char} (digit : d.isDigit = true) :
    48 ≤ UInt8.ofNat d.toNat ∧ UInt8.ofNat d.toNat ≤ 57 ∧ Char.ofNat (UInt8.ofNat d.toNat).toNat = d := by
  simp only [Char.isDigit, Bool.and_eq_true, decide_eq_true_eq] at digit
  have low : 48 ≤ d.toNat := UInt32.le_iff_toNat_le.mp digit.1
  have high : d.toNat ≤ 57 := UInt32.le_iff_toNat_le.mp digit.2
  have value : (UInt8.ofNat d.toNat).toNat = d.toNat := by
    rw [UInt8.toNat_ofNat']
    omega
  refine ⟨UInt8.le_iff_toNat_le.mpr ?_, UInt8.le_iff_toNat_le.mpr ?_, ?_⟩
  · rw [value]
    exact low
  · rw [value]
    exact high
  · rw [value, Char.ofNat_toNat]

theorem decimalDigits {n : Nat} {b : Byte} (mem : b ∈ decimalText n) : 48 ≤ b ∧ b ≤ 57 := by
  obtain ⟨d, digit, rfl⟩ := List.mem_map.mp mem
  have range := digitByte (Nat.isDigit_of_mem_toDigits (by decide) (by decide) digit)
  exact ⟨range.1, range.2.1⟩

theorem decimalPlain (n : Nat) : (0 : Byte) ∉ decimalText n :=
  fun mem => absurd (decimalDigits mem).1 (by decide)

theorem readNatBack (n : Nat) : readNat (decimalText n) = n := by
  have same : (decimalText n).map (fun b => Char.ofNat b.toNat) = Nat.toDigits 10 n := by
    rw [decimalText, List.map_map]
    refine (List.map_congr_left fun d mem => ?_).trans (List.map_id _)
    exact (digitByte (Nat.isDigit_of_mem_toDigits (by decide) (by decide) mem)).2.2
  rw [readNat, same, Nat.ofDigitChars_toDigits (by decide) (by decide)]

theorem readIntBack (v : Int) : readInt (intText v) = v := by
  unfold intText
  split
  · rename_i neg
    rw [readInt, List.head?_cons, if_pos rfl, List.tail_cons, readNatBack]
    omega
  · rename_i pos
    have digits : (decimalText v.natAbs).head? ≠ some minus :=
      fun same => absurd (decimalDigits (List.mem_of_mem_head? same)).1 (by decide)
    rw [readInt, if_neg digits, readNatBack]
    omega

theorem intNumerals {v : Int} : ∀ b ∈ intText v, isNumeral b = true := by
  have digits : ∀ b ∈ decimalText v.natAbs, isNumeral b = true := by
    intro b mem
    have range := decimalDigits mem
    simp [isNumeral, range.1, range.2]
  unfold intText
  split
  · exact List.forall_mem_cons.mpr ⟨rfl, digits⟩
  · exact digits

end Numbers

end OsLabs.TextColumns
