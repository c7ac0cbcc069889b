import Mathlib.Logic.Function.Iterate
import OsLabs.PagemapRows

/-! The entries of a dump into the block for a line: the piece just read, the whole buffer
and the index of the newline at each. However the text is cut, the piece stands unchanged at
the beginning of the buffer, and the line of an entry begins behind the newline before it. -/
namespace OsLabs.MapsDump
open CMemory BufferScan

variable {page : PagePower}

structure Block where
  piece : List Byte
  buffer : Buffer
  index : Nat

def Dump.blocks (page : PagePower) (piece : List Byte) (d : Dump) (i : Nat) : Nat → List Block
  | 0 => []
  | n + 1 =>
      if d.out.stuck then []
      else if d.buffer i = newline ∧ i ≠ 0 then
        ⟨piece, d.buffer, i⟩ :: Dump.blocks page piece (d.line page i) (i + 1) n
      else Dump.blocks page piece d (i + 1) n

def blocksRead (page : PagePower) (d : Dump) (piece : List Byte) : List Block :=
  if d.out.stuck then []
  else Dump.blocks page piece ⟨fill d.buffer offset piece, d.out⟩ offset piece.length

def blocksFrom (page : PagePower) : Dump → List (List Byte) → List Block
  | _, [] => []
  | d, piece :: rest => blocksRead page d piece ++ blocksFrom page (d.read page piece) rest

def entered (page : PagePower) (stack : Buffer) (pieces : List (List Byte)) : List Block :=
  blocksFrom page ⟨stack, ⟨[], [], false⟩⟩ pieces

def Block.start (b : Block) : Nat :=
  b.index - ((b.piece.take b.index).reverse.takeWhile (fun c => c != newline)).length

structure Block.Entered (b : Block) : Prop where
  held : HoldsAt b.buffer 0 b.piece
  first : 0 < b.index
  inside : b.index < b.piece.length
  ended : b.buffer b.index = newline

theorem seekInStops {buf : Buffer} {stop : Byte → Bool} {x : Nat}
    (inside : seekIn buf stop x < bufSize) :
    stop (buf (seekIn buf stop x)) = true := by
  have onward := seekFrom buf stop (bufSize - x) x
  unfold seekIn at inside ⊢
  exact seekStops (by omega)

theorem iterateFour {α : Type*} (f : α → α) (x : α) : Nat.iterate f 4 x = f (f (f (f x))) := rfl

section Steps
variable (buf : Buffer) (i : Nat)

theorem parseBack : (parse buf i).back = seekBack buf newline (i - 1) := by
  simp only [parse]

theorem parseStart : (parse buf i).start =
    if buf (parse buf i).back = newline then (parse buf i).back + 1 else (parse buf i).back := by
  simp only [parse]
  rfl

theorem parseLowEnd : (parse buf i).lowEnd =
    (hexScan buf dash (bufSize - (parse buf i).start) (parse buf i).start 0).1 := by
  simp only [parse]

theorem parseLow : (parse buf i).low =
    (hexScan buf dash (bufSize - (parse buf i).start) (parse buf i).start 0).2 := by
  simp only [parse]

theorem parseSeparator : (parse buf i).separator =
    seekIn buf (fun c => c == dash) (parse buf i).lowEnd := by
  simp only [parse]

theorem parseHighStart : (parse buf i).highStart =
    if buf (parse buf i).separator = dash then (parse buf i).separator + 1
    else (parse buf i).separator := by
  simp only [parse]
  rfl

theorem parseHighEnd : (parse buf i).highEnd =
    (hexScan buf space (bufSize - (parse buf i).highStart) (parse buf i).highStart 0).1 := by
  simp only [parse]

theorem parseHigh : (parse buf i).high =
    (hexScan buf space (bufSize - (parse buf i).highStart) (parse buf i).highStart 0).2 := by
  simp only [parse]

theorem parseFields : (parse buf i).fields =
    Nat.iterate (nextField buf) 4 (parse buf i).highEnd := by
  rw [iterateFour]
  simp only [parse]

theorem parsePath : (parse buf i).path = seekIn buf (fun c => c != space) (parse buf i).fields := by
  simp only [parse]

theorem parseY : (parse buf i).y = seekIn buf (fun c => c == newline) (parse buf i).path := by
  simp only [parse]

end Steps

theorem yNewline {buf : Buffer} {i : Nat} (inside : (parse buf i).y < bufSize) :
    buf (parse buf i).y = newline := by
  rw [parseY] at inside ⊢
  exact beq_iff_eq.mp (seekInStops inside)

theorem lineKeeps {d : Dump} {i : Nat} (runs : (d.line page i).out.stuck = false) {k : Nat}
    (inside : k < bufSize) :
    (d.line page i).buffer k = d.buffer k := by
  simp only [Dump.line] at runs ⊢
  rw [if_neg (by rw [runs]; exact Bool.false_ne_true), Function.update_idem]
  by_cases here : k = (parse d.buffer i).y
  · rw [here] at inside ⊢
    rw [Function.update_self, yNewline inside]
  · exact Function.update_of_ne here _ _

theorem lineHolds {d : Dump} {i : Nat} {piece : List Byte} (runs : (d.line page i).out.stuck = false)
    (held : HoldsAt d.buffer 0 piece) (short : piece.length ≤ bufSize) :
    HoldsAt (d.line page i).buffer 0 piece := by
  refine (holdsAtIff _ _ _).mpr fun k inside => ?_
  rw [lineKeeps runs (by omega)]
  exact (holdsAtIff _ _ _).mp held k inside

theorem blocksStuck {d : Dump} (stuck : d.out.stuck = true) (piece : List Byte) (i n : Nat) :
    Dump.blocks page piece d i n = [] := by
  cases n with
  | zero => rfl
  | succ n => exact if_pos stuck

theorem blocksEntered {d : Dump} {piece : List Byte} {i n : Nat} (held : HoldsAt d.buffer 0 piece)
    (short : piece.length ≤ bufSize) (fits : i + n ≤ piece.length) :
    ∀ b ∈ Dump.blocks page piece d i n, b.Entered ∧ b.piece = piece := by
  induction n generalizing d i with
  | zero => exact fun b mem => nomatch mem
  | succ n ih =>
    intro b mem
    rw [Dump.blocks] at mem
    split at mem
    · contradiction
    split at mem
    · rename_i entry
      rcases List.mem_cons.mp mem with rfl | later
      · have inside : i < piece.length := by omega
        exact ⟨⟨held, Nat.pos_of_ne_zero entry.2, inside, entry.1⟩, rfl⟩
      · cases stuck : (d.line page i).out.stuck with
        | true =>
          rw [blocksStuck stuck] at later
          contradiction
        | false => exact ih (lineHolds stuck held short) (by omega) b later
    · exact ih held (by omega) b mem

theorem fromEntered {d : Dump} {pieces : List (List Byte)}
    (short : ∀ piece ∈ pieces, piece.length ≤ bufSize) :
    ∀ b ∈ blocksFrom page d pieces, b.Entered ∧ b.piece ∈ pieces := by
  induction pieces generalizing d with
  | nil => exact fun b mem => nomatch mem
  | cons piece pieces ih =>
    intro b mem
    rcases List.mem_append.mp mem with here | later
    · unfold blocksRead at here
      split at here
      · contradiction
      · obtain ⟨entry, rfl⟩ := blocksEntered (fillHolds d.buffer offset piece)
          (short piece List.mem_cons_self) (by simp [offset]) b here
        exact ⟨entry, List.mem_cons_self⟩
    · obtain ⟨entry, member⟩ := ih (fun p mem => short p (List.mem_cons_of_mem _ mem)) b later
      exact ⟨entry, List.mem_cons_of_mem _ member⟩

theorem enteredSplit (stack : Buffer) {text : List Byte} (a : Split text) :
    ∀ b ∈ entered page stack a.pieces, b.Entered ∧ b.piece.length ≤ bufSize := by
  intro b mem
  obtain ⟨entry, member⟩ := fromEntered a.short b mem
  exact ⟨entry, a.short _ member⟩

theorem entryStart {b : Block} (entry : b.Entered) :
    (parse b.buffer b.index).start = b.start ∧ (parse b.buffer b.index).start ≤ b.index := by
  obtain ⟨x, next⟩ := Nat.exists_eq_add_one_of_ne_zero (Nat.ne_of_gt entry.first)
  have front := (sliceHeld entry.held (Nat.le_of_lt entry.inside)).1
  have found := seekBackStart b.buffer newline x
  have start : (parse b.buffer b.index).start = b.start := by
    rw [parseStart, parseBack, Block.start, ← front, next]
    exact found
  refine ⟨start, ?_⟩
  rw [start]
  exact Nat.sub_le _ _

section Bytes

def isHex (c : Byte) : Bool := (hexDigit c).isSome

def afterHex (stop : Byte) (bytes : List Byte) : List Byte :=
  match bytes.dropWhile isHex with
  | [] => []
  | c :: rest => if c = stop then c :: rest else rest

def number (value : Nat) (stop : Byte) (bytes : List Byte) : Nat :=
  match bytes.dropWhile isHex with
  | [] => hexValue value (bytes.takeWhile isHex)
  | c :: _ =>
      if c = stop then hexValue value (bytes.takeWhile isHex)
      else hexValue value (bytes.takeWhile isHex) * 16 % 2^64

def afterDash (bytes : List Byte) : List Byte := (bytes.dropWhile fun c => c != dash).tail

variable {buf : Buffer} {stop : Byte}

theorem hexFrom (buf : Buffer) (stop : Byte) (room x value : Nat) :
    x ≤ (hexScan buf stop room x value).1 := by
  induction room generalizing x value with
  | zero => exact Nat.le_refl _
  | succ room ih =>
    rw [hexScan]
    split
    · exact Nat.le_refl _
    split
    · exact Nat.le_trans (Nat.le_succ x) (ih _ _)
    · exact Nat.le_succ x

theorem hexStop (plain : hexDigit stop = none) (value : Nat) (rest : List Byte) :
    afterHex stop (stop :: rest) = stop :: rest ∧ number value stop (stop :: rest) = value := by
  have other : ¬ isHex stop = true := by simp [isHex, plain]
  unfold afterHex number
  rw [List.dropWhile_cons_of_neg other, List.takeWhile_cons_of_neg other]
  simp [hexValue]

theorem hexOther {c : Byte} (plain : hexDigit c = none) (other : c ≠ stop) (value : Nat)
    (rest : List Byte) :
    afterHex stop (c :: rest) = rest ∧ number value stop (c :: rest) = value * 16 % 2^64 := by
  have letter : ¬ isHex c = true := by simp [isHex, plain]
  unfold afterHex number
  rw [List.dropWhile_cons_of_neg letter, List.takeWhile_cons_of_neg letter]
  simp [hexValue, other]

theorem hexNext {c : Byte} {d : Nat} (digit : hexDigit c = some d) (value : Nat) (rest : List Byte) :
    afterHex stop (c :: rest) = afterHex stop rest ∧
      number value stop (c :: rest) = number ((value * 16 + d) % 2^64) stop rest := by
  have letter : isHex c = true := by simp [isHex, digit]
  unfold afterHex number
  rw [List.dropWhile_cons_of_pos letter, List.takeWhile_cons_of_pos letter]
  simp [hexValue, digit]

theorem hexScanRest (plain : hexDigit stop = none) {room x n : Nat} (value : Nat)
    (enough : n ≤ x + room) :
    slice buf (hexScan buf stop room x value).1 n = afterHex stop (slice buf x n) := by
  rcases Nat.lt_or_ge x n with inside | behind
  · induction room generalizing x value with
    | zero => exact absurd inside (Nat.not_lt_of_le enough)
    | succ room ih =>
      rw [hexScan, sliceNext buf inside]
      by_cases here : buf x = stop
      · rw [if_pos here, here, (hexStop plain value _).1, sliceNext buf inside, here]
      · rw [if_neg here]
        cases digit : hexDigit (buf x) with
        | none => rw [(hexOther digit here value _).1]
        | some d =>
          rw [(hexNext digit value _).1]
          rcases Nat.lt_or_ge (x + 1) n with more | last
          · exact ih _ (by omega) more
          · rw [sliceNone buf last, sliceNone buf (Nat.le_trans last (hexFrom buf stop _ _ _))]
            rfl
  · rw [sliceNone buf behind, sliceNone buf (Nat.le_trans behind (hexFrom buf stop _ _ _))]
    rfl

theorem hexScanNumber (plain : hexDigit stop = none) (room x value : Nat) :
    (hexScan buf stop room x value).2 = number value stop (slice buf x (x + room)) := by
  induction room generalizing x value with
  | zero =>
    rw [Nat.add_zero, sliceNone buf (Nat.le_refl x)]
    rfl
  | succ room ih =>
    have same : x + (room + 1) = x + 1 + room := by omega
    rw [hexScan, sliceNext buf (by omega), same]
    by_cases here : buf x = stop
    · rw [if_pos here, here, (hexStop plain value _).2]
    · rw [if_neg here]
      cases digit : hexDigit (buf x) with
      | none => rw [(hexOther digit here value _).2]
      | some d =>
        rw [(hexNext digit value _).2]
        exact ih _ _

theorem seekInRest (buf : Buffer) (stop : Byte → Bool) {x n : Nat} (short : n ≤ bufSize) :
    slice buf (seekIn buf stop x) n = (slice buf x n).dropWhile (fun c => !stop c) :=
  seekSlice buf stop (by omega)

theorem afterHexDash (bytes : List Byte) :
    (afterHex dash bytes).dropWhile (fun c => c != dash) = bytes.dropWhile fun c => c != dash := by
  induction bytes with
  | nil => rfl
  | cons c rest ih =>
    by_cases here : c = dash
    · rw [here, (hexStop (by decide) 0 rest).1]
    · have passed : (c != dash) = true := by simpa using here
      rw [List.dropWhile_cons, if_pos passed]
      cases digit : hexDigit c with
      | none => rw [(hexOther digit here 0 rest).1]
      | some d => rw [(hexNext digit 0 rest).1, ih]

theorem highStartRest (buf : Buffer) (i : Nat) {n : Nat} (short : n ≤ bufSize) :
    slice buf (parse buf i).highStart n = afterDash (slice buf (parse buf i).start n) := by
  have low : slice buf (parse buf i).lowEnd n = afterHex dash (slice buf (parse buf i).start n) := by
    rw [parseLowEnd]
    exact hexScanRest (by decide) 0 (by omega)
  have separator : slice buf (parse buf i).separator n =
      (slice buf (parse buf i).start n).dropWhile fun c => c != dash := by
    rw [parseSeparator, seekInRest buf _ short, low, ← afterHexDash]
    rfl
  rw [afterDash, ← separator, sliceTail, parseHighStart]
  split
  · rfl
  · rename_i missed
    have behind : n ≤ (parse buf i).separator := by
      by_contra before
      have found := @seekInStops buf (fun c => c == dash) (parse buf i).lowEnd
        (by rw [← parseSeparator]; omega)
      rw [← parseSeparator] at found
      exact missed (beq_iff_eq.mp found)
    rw [sliceNone buf behind, sliceNone buf (Nat.le_succ_of_le behind)]

theorem sliceRoom (buf : Buffer) (x n : Nat) : slice buf x (x + (n - x)) = slice buf x n := by
  unfold slice
  rw [Nat.add_sub_cancel_left]

theorem parseAddresses (buf : Buffer) (i : Nat) :
    (parse buf i).low = number 0 dash (slice buf (parse buf i).start bufSize) ∧
      (parse buf i).high = number 0 space (afterDash (slice buf (parse buf i).start bufSize)) := by
  rw [← highStartRest buf i (Nat.le_refl _), ← sliceRoom buf (parse buf i).start,
    ← sliceRoom buf (parse buf i).highStart]
  constructor
  · rw [parseLow]
    exact hexScanNumber (by decide) _ _ 0
  · rw [parseHigh]
    exact hexScanNumber (by decide) _ _ 0

end Bytes

end OsLabs.MapsDump
