import OsLabs.MapsBlocks

/-! Whether the dump ends. Every call of pagemap_get_entry does; the loop over the pages of
a line does unless its high address lies behind the last address it can reach, and which
addresses the scans make of a line depends on what the buffer holds from its start on. -/
namespace OsLabs.MapsDump
open CMemory BufferScan

variable {page : PagePower}

def Block.line (b : Block) : List Byte := slice b.buffer b.start bufSize

def Reached (page : PagePower) (low high : Nat) : Prop := high ≤ 2^64 - page.value + low % page.value

instance (page : PagePower) (low high : Nat) : Decidable (Reached page low high) := inferInstanceAs (Decidable (_ ≤ _))

def Block.Ends (page : PagePower) (b : Block) : Prop :=
  Reached page (number 0 dash b.line) (number 0 space (afterDash b.line))

instance (page : PagePower) (b : Block) : Decidable (b.Ends page) :=
  inferInstanceAs (Decidable (Reached _ _ _))

theorem hexValueSmall {value : Nat} (small : value < 2^64) (digits : List Byte) :
    hexValue value digits < 2^64 := by
  induction digits generalizing value with
  | nil => exact small
  | cons c rest ih => exact ih (Nat.mod_lt _ (by decide))

theorem numberSmall (stop : Byte) (bytes : List Byte) : number 0 stop bytes < 2^64 := by
  have digits := hexValueSmall (by decide : 0 < 2^64) (bytes.takeWhile isHex)
  unfold number
  split
  · exact digits
  · split
    · exact digits
    · exact Nat.mod_lt _ (by decide)

theorem pagesEndExactly {low high : Nat} (small : low < 2^64) :
    (pageLoop page high pageFuel low).isSome ↔ Reached page low high := by
  constructor
  · intro ended
    by_contra beyond
    rw [pageLoopForever pageFuel small rfl (Nat.lt_of_not_le beyond)] at ended
    contradiction
  · intro reached
    exact pageLoopEnds (2^52) rfl reached (enoughPages low)

theorem addEnds {o : Outcome} (runs : o.stuck = false) {r : Range} (small : r.low < 2^64) :
    (o.add page r).stuck = false ↔ Reached page r.low r.high := by
  rw [← pagesEndExactly small, Outcome.add, if_neg (by rw [runs]; exact Bool.false_ne_true)]
  cases pageLoop page r.high pageFuel r.low with
  | none => simp
  | some pages => simp

theorem lineEnds {d : Dump} {i : Nat} {piece : List Byte} (runs : d.out.stuck = false)
    (entry : Block.Entered ⟨piece, d.buffer, i⟩) :
    (d.line page i).out.stuck = false ↔ Block.Ends page ⟨piece, d.buffer, i⟩ := by
  obtain ⟨low, high⟩ := parseAddresses d.buffer i
  have start : (parse d.buffer i).start = Block.start ⟨piece, d.buffer, i⟩ := (entryStart entry).1
  rw [start] at low high
  have small : (parse d.buffer i).low < 2^64 := by
    rw [low]
    exact numberSmall _ _
  simp only [Dump.line]
  rw [addEnds runs small, Block.Ends, Block.line, ← low, ← high]

theorem scanEnds {d : Dump} {piece : List Byte} {i n : Nat} (runs : d.out.stuck = false)
    (held : HoldsAt d.buffer 0 piece) (short : piece.length ≤ bufSize) (fits : i + n ≤ piece.length) :
    (d.scan page i n).out.stuck = false ↔ ∀ b ∈ Dump.blocks page piece d i n, b.Ends page := by
  induction n generalizing d i with
  | zero => simp [Dump.scan, Dump.blocks, runs]
  | succ n ih =>
    rw [Dump.scan, Dump.blocks, runs, if_neg Bool.false_ne_true, if_neg Bool.false_ne_true]
    split
    · rename_i entry
      have inside : i < piece.length := by omega
      have line := @lineEnds page d i piece runs ⟨held, Nat.pos_of_ne_zero entry.2, inside, entry.1⟩
      rw [List.forall_mem_cons, ← line]
      cases stuck : (d.line page i).out.stuck with
      | true => simp [scanStuck stuck, stuck]
      | false => simpa using ih stuck (lineHolds stuck held short) (by omega)
    · exact ih runs held (by omega)

theorem readStuck {d : Dump} (stuck : d.out.stuck = true) (pieces : List (List Byte)) :
    pieces.foldl (Dump.read page) d = d := by
  induction pieces with
  | nil => rfl
  | cons piece pieces ih => rw [List.foldl_cons, Dump.read, if_pos stuck, ih]

theorem readEnds {d : Dump} (runs : d.out.stuck = false) {pieces : List (List Byte)}
    (short : ∀ piece ∈ pieces, piece.length ≤ bufSize) :
    (pieces.foldl (Dump.read page) d).out.stuck = false ↔ ∀ b ∈ blocksFrom page d pieces, b.Ends page := by
  induction pieces generalizing d with
  | nil => simp [blocksFrom, runs]
  | cons piece pieces ih =>
    have here : (d.read page piece).out.stuck = false ↔ ∀ b ∈ blocksRead page d piece, b.Ends page := by
      rw [Dump.read, blocksRead, runs, if_neg Bool.false_ne_true, if_neg Bool.false_ne_true]
      refine scanEnds runs (fillHolds _ _ _) (short piece List.mem_cons_self) ?_
      rw [offset, Nat.zero_add]
    rw [List.foldl_cons, blocksFrom, List.forall_mem_append, ← here]
    cases stuck : (d.read page piece).out.stuck with
    | true => simp [readStuck stuck, stuck]
    | false => simpa using ih stuck fun p mem => short p (List.mem_cons_of_mem _ mem)

theorem rowsReturned (page : PagePower) (pread : Pread) (stack : Buffer) (pieces : List (List Byte)) :
    (dumpRows page pread stack pieces).isSome ↔ (dumped page stack pieces).out.stuck = false := by
  have same : fprintPagemap page stack pieces = (dumped page stack pieces).out := rfl
  simp only [dumpRows, same, printRowsExactly]
  cases (dumped page stack pieces).out.stuck with
  | true => simp
  | false => simp

theorem dumpEnds (stack : Buffer) {text : List Byte} (a : Split text) :
    (dumped page stack a.pieces).out.stuck = false ↔ ∀ b ∈ entered page stack a.pieces, b.Ends page :=
  readEnds rfl a.short

theorem lineEndsTerminate (stack : Buffer) {lines : List (KernelLine page)} (a : Split (kernelText lines))
    (ends : a.AtLineEnds) : ∀ b ∈ entered page stack a.pieces, b.Ends page := by
  rw [← dumpEnds]
  obtain ⟨groups, -, pieces, fits⟩ := kernelPieces a ends
  rw [pieces, (kernelGroups stack groups fits).1]

theorem terminatesExactly (page : PagePower) (pread : Pread) (stack : Buffer) {text : List Byte} (a : Split text) :
    (dumpRows page pread stack a.pieces).isSome ↔ ∀ b ∈ entered page stack a.pieces, b.Ends page := by
  rw [rowsReturned, dumpEnds]

/- 00400000-00401000 r-xp 00000000 08:02 11 /a-ffffffffffffffff -/
def dashedPath : KernelLine .x86 :=
  ⟨{ lineA with
      path := [47, 97, 45] ++ List.replicate 16 102
      pathPlain := by decide },
    by decide +kernel, by decide +kernel, by decide +kernel, by decide +kernel⟩

def insideDashed : Split (kernelText [dashedPath]) :=
  ⟨[dashedPath.bytes.take 42, dashedPath.bytes.drop 42], by decide, by decide, by decide⟩

theorem dashedNeverEnds : ¬ ∀ page pread stack, ∀ lines : List (KernelLine page), ∀ a : Split (kernelText lines),
    (dumpRows page pread stack a.pieces).isSome := by
  intro ends
  have wraps : ∃ b ∈ entered .x86 (fun _ => 0) insideDashed.pieces, ¬ b.Ends .x86 := by decide +kernel
  obtain ⟨b, mem, wraps⟩ := wraps
  have returned := ends .x86 partly (fun _ => 0) [dashedPath] insideDashed
  rw [rowsReturned, dumpEnds] at returned
  exact wraps (returned b mem)

end OsLabs.MapsDump
