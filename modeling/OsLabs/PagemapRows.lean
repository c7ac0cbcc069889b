import Mathlib.Data.List.Forall2
import Mathlib.Data.List.TakeWhile
import OsLabs.InfoFromFile
import OsLabs.MapsSplits
import OsLabs.TextColumns
import OsLabs.WhileLoop

/-! The rows of the page dump: pagemap_get_entry reads the eight bytes of a page, and what
it finds is printed behind the page's address. For a maps file of the kernel, cut at line
ends, these are the rows of exactly the pages of its ranges, in order. -/
namespace OsLabs.MapsDump
open CMemory BufferScan WhileLoop
open ProcInfo (textBytes preparePrint)
open TextColumns (decimalText)

structure PagemapEntry where
  pfn : Nat
  softDirty : Nat
  filePage : Nat
  swapped : Nat
  present : Nat
  deriving DecidableEq, Repr

/- What pread returns, by the number of the page asked about in the run, the offset in the
file and the count of bytes wanted. Within one page the offset tells the calls apart. -/
structure Pread where
  read : Nat → Nat → Nat → Option (List Byte)
  short : ∀ query offset count bytes, read query offset count = some bytes → bytes.length ≤ count

def littleEndian (data : List Byte) : Nat := data.foldr (fun b value => b.toNat + 256 * value) 0

def PagemapEntry.ofData (data : Nat) : PagemapEntry :=
  ⟨data % 2^55, data / 2^55 % 2, data / 2^61 % 2, data / 2^62 % 2, data / 2^63 % 2⟩

def dataSize : Nat := 8

/- One turn of the loop: no bytes, or a failure, end the call with 1. -/
def readMore (pread : Nat → Nat → Option (List Byte)) (page : PagePower) (vaddr : Nat) (data : List Byte) :
    Except Unit (List Byte) :=
  match pread (vaddr / page.value * dataSize + data.length) (dataSize - data.length) with
  | none => .error ()
  | some [] => .error ()
  | some (b :: bytes) => .ok (data ++ b :: bytes)

def pagemapGetEntry (pread : Nat → Nat → Option (List Byte)) (page : PagePower) (vaddr : Nat) :
    Option (Except Unit PagemapEntry) :=
  (whileLoop (fun data => dataSize ≤ data.length) (readMore pread page vaddr) (dataSize + 1) []).map
    (Except.map fun data => PagemapEntry.ofData (littleEndian data))

structure Row where
  addr : Nat
  entry : PagemapEntry
  libName : List Byte
  deriving DecidableEq, Repr

def hexText (n : Nat) : List Byte := (Nat.toDigits 16 n).map fun (d : Char) => UInt8.ofNat d.toNat

/- "%jx %jx %u %u %u %u %s\n" -/
def Row.text (r : Row) : List Byte :=
  hexText r.addr ++ space :: hexText r.entry.pfn ++ space :: decimalText r.entry.softDirty ++
    space :: decimalText r.entry.filePage ++ space :: decimalText r.entry.swapped ++
    space :: decimalText r.entry.present ++ space :: r.libName ++ [newline]

def printRows (page : PagePower) (pread : Pread) : Nat → List (Nat × List Byte) → Option (List Row)
  | _, [] => some []
  | query, (addr, libName) :: rest =>
      match pagemapGetEntry (pread.read query) page addr with
      | none => none
      | some (.error _) => printRows page pread (query + 1) rest
      | some (.ok entry) => (printRows page pread (query + 1) rest).map (⟨addr, entry, libName⟩ :: ·)

def dumped (page : PagePower) (stack : Buffer) (pieces : List (List Byte)) : Dump :=
  pieces.foldl (Dump.read page) ⟨stack, ⟨[], [], false⟩⟩

def dumpRows (page : PagePower) (pread : Pread) (stack : Buffer) (pieces : List (List Byte)) : Option (List Row) :=
  let out := fprintPagemap page stack pieces
  if out.stuck then none else printRows page pread 0 out.pages

def heading : List Byte :=
  preparePrint (textBytes "/proc/64361/pagemap") ++
    textBytes "addr pfn soft-dirty file/shared swapped present library\n"

def dumpText (page : PagePower) (pread : Pread) (stack : Buffer) (pieces : List (List Byte)) :
    Option (List Byte) :=
  (dumpRows page pread stack pieces).map fun rows => heading ++ rows.flatMap Row.text

def address (digits : List Byte) : Nat := digits.foldl (fun v c => v * 16 + (hexDigit c).getD 0) 0

/- The kernel writes ranges of whole pages below 2^64. -/
structure KernelLine (page : PagePower) extends MapsLine where
  lowAligned : address low % page.value = 0
  highAligned : address high % page.value = 0
  ordered : address low ≤ address high
  bounded : address high < 2^64

section Lines
variable {page : PagePower}

def kernelText (lines : List (KernelLine page)) : List Byte := mapsText (lines.map KernelLine.toMapsLine)

def KernelLine.addresses (l : KernelLine page) : Range := ⟨address l.low, address l.high, l.path⟩

def KernelLine.pages (l : KernelLine page) : List (Nat × List Byte) :=
  (List.range' (address l.low) ((address l.high - address l.low) / page.value) page.value).map
    fun addr => (addr, l.path)

end Lines

def rowOf (page : PagePower) (pread : Pread) (asked : (Nat × List Byte) × Nat) : Option Row :=
  match pagemapGetEntry (pread.read asked.2) page asked.1.1 with
  | some (.ok entry) => some ⟨asked.1.1, entry, asked.1.2⟩
  | _ => none

theorem entryReturns (page : PagePower) (pread : Nat → Nat → Option (List Byte)) (vaddr : Nat) :
    (pagemapGetEntry pread page vaddr).isSome := by
  unfold pagemapGetEntry
  rw [Option.isSome_map]
  refine whileEnds (fun data => dataSize - data.length) (fun data next more taken => ?_)
    (Nat.lt_succ_self _)
  have less : data.length < dataSize := by simpa using more
  unfold readMore at taken
  split at taken
  · cases taken
  · cases taken
  · cases taken
    simp only [List.length_append, List.length_cons]
    omega

theorem entryWhole (page : PagePower) (pread : Pread) {query vaddr : Nat} {entry : PagemapEntry}
    (returned : pagemapGetEntry (pread.read query) page vaddr = some (.ok entry)) :
    ∃ data : List Byte, data.length = dataSize ∧ entry = .ofData (littleEndian data) := by
  obtain ⟨result, ended, same⟩ := Option.map_eq_some_iff.mp returned
  cases result with
  | error e => cases same
  | ok data =>
    cases same
    have enough := whileDone ended
    have bound : data.length ≤ dataSize := by
      refine whileInvariant (fun data => data.length ≤ dataSize) (fun before after _ more taken => ?_)
        (Nat.zero_le _) ended
      have less : before.length < dataSize := by simpa using more
      unfold readMore at taken
      split at taken
      · cases taken
      · cases taken
      · rename_i b bytes read
        cases taken
        have short := pread.short _ _ _ _ read
        rw [List.length_append]
        omega
    exact ⟨data, Nat.le_antisymm bound (by simpa using enough), rfl⟩

theorem printRowsExactly (page : PagePower) (pread : Pread) (query : Nat) (pages : List (Nat × List Byte)) :
    printRows page pread query pages = some ((pages.zipIdx query).filterMap (rowOf page pread)) := by
  induction pages generalizing query with
  | nil => rfl
  | cons asked pages ih =>
    obtain ⟨result, returned⟩ := Option.isSome_iff_exists.mp (entryReturns page (pread.read query) asked.1)
    cases result with
    | error e => simp [printRows, rowOf, returned, ih]
    | ok entry => simp [printRows, rowOf, returned, ih]

theorem addressValue (digits : List Byte) (value : Nat) :
    hexValue (value % 2^64) digits =
      digits.foldl (fun v c => v * 16 + (hexDigit c).getD 0) value % 2^64 := by
  induction digits generalizing value with
  | nil => rfl
  | cons c digits ih =>
    have step : (value % 2^64 * 16 + (hexDigit c).getD 0) % 2^64 =
        (value * 16 + (hexDigit c).getD 0) % 2^64 := by
      omega
    rw [List.foldl_cons, ← ih, ← step]
    rfl

variable {page : PagePower}

theorem kernelRange (l : KernelLine page) : l.range = l.addresses := by
  have value : ∀ digits, address digits < 2^64 → hexValue 0 digits = address digits :=
    fun digits small => (addressValue digits 0).trans (Nat.mod_eq_of_lt small)
  unfold MapsLine.range KernelLine.addresses
  rw [value _ l.bounded, value _ (Nat.lt_of_le_of_lt l.ordered l.bounded)]

theorem pageLoopRange {low n : Nat} (bounded : low + n * page.value < 2^64) :
    pageLoop page (low + n * page.value) (n + 1) low = some (List.range' low n page.value) := by
  induction n generalizing low with
  | zero => simp [pageLoop]
  | succ n ih =>
    have least := page.least
    have split : low + (n + 1) * page.value = low + page.value + n * page.value := by
      rw [Nat.succ_mul]
      omega
    have stays : (low + page.value) % 2^64 = low + page.value := Nat.mod_eq_of_lt (by omega)
    rw [pageLoop, if_pos (by omega), stays, split, ih (by omega)]
    rfl

theorem kernelPages (l : KernelLine page) :
    pageLoop page l.addresses.high pageFuel l.addresses.low = some
      (List.range' (address l.low) ((address l.high - address l.low) / page.value) page.value) := by
  have ordered := l.ordered
  have bounded := l.bounded
  have between : page.value ∣ address l.high - address l.low :=
    Nat.dvd_sub (Nat.dvd_of_mod_eq_zero l.highAligned) (Nat.dvd_of_mod_eq_zero l.lowAligned)
  have whole : address l.high =
      address l.low + (address l.high - address l.low) / page.value * page.value := by
    rw [Nat.div_mul_cancel between]
    omega
  have run := @pageLoopRange page (address l.low) ((address l.high - address l.low) / page.value)
    (by rw [← whole]; exact bounded)
  rw [← whole] at run
  exact pageFuelSuffices (Nat.lt_of_le_of_lt ordered bounded) run

theorem addKernel {o : Outcome} (runs : o.stuck = false) (l : KernelLine page) :
    o.add page l.range = ⟨o.ranges ++ [l.addresses], o.pages ++ l.pages, false⟩ := by
  unfold Outcome.add
  rw [if_neg (by rw [runs]; exact Bool.false_ne_true), kernelRange, kernelPages]
  rfl

theorem addKernels {o : Outcome} (runs : o.stuck = false) (lines : List (KernelLine page)) :
    (lines.map KernelLine.toMapsLine).foldl (fun o l => o.add page l.range) o =
      ⟨o.ranges ++ lines.map KernelLine.addresses, o.pages ++ lines.flatMap KernelLine.pages, false⟩ := by
  induction lines generalizing o with
  | nil =>
    cases o
    cases runs
    simp
  | cons l lines ih =>
    rw [List.map_cons, List.foldl_cons, addKernel runs, ih rfl]
    simp

theorem kernelGroups (stack : Buffer) (groups : List (List (KernelLine page)))
    (fits : ∀ group ∈ groups, (kernelText group).length ≤ bufSize) :
    (dumped page stack (groups.map kernelText)).out =
        ⟨groups.flatten.map KernelLine.addresses, groups.flatten.flatMap KernelLine.pages, false⟩ ∧
      (dumped page stack (groups.map kernelText)).buffer =
        (groups.map kernelText).foldl (fun buf piece => fill buf offset piece) stack := by
  have texts : groups.map kernelText =
      (groups.map (List.map KernelLine.toMapsLine)).map mapsText := by
    rw [List.map_map]
    rfl
  obtain ⟨out, buffer⟩ := groupsRead ⟨stack, ⟨[], [], false⟩⟩
    (groups.map (List.map KernelLine.toMapsLine)) (fun group mem => by
      obtain ⟨kernel, member, rfl⟩ := List.mem_map.mp mem
      exact fits kernel member)
  rw [← List.map_flatten, addKernels rfl] at out buffer
  unfold dumped
  rw [texts]
  exact ⟨by simpa using out, buffer rfl⟩

theorem kernelPieces {lines : List (KernelLine page)} (a : Split (kernelText lines)) (ends : a.AtLineEnds) :
    ∃ groups : List (List (KernelLine page)), lines = groups.flatten ∧ a.pieces = groups.map kernelText ∧
      ∀ group ∈ groups, (kernelText group).length ≤ bufSize := by
  have text : ∀ group : List (KernelLine page), kernelText group = group.flatMap fun l => l.body ++ [newline] := by
    intro group
    rw [kernelText, mapsText, List.flatMap_map]
    rfl
  obtain ⟨groups, same, cut⟩ := piecesAreLines (fun l : KernelLine page => bodyPlain l.toMapsLine)
    (a.whole.trans (text lines)) ends
  have pieces : a.pieces = groups.map kernelText :=
    cut.trans (List.map_congr_left fun group _ => (text group).symm)
  have short := a.short
  rw [pieces] at short
  exact ⟨groups, same, pieces, fun group mem => short _ (List.mem_map_of_mem mem)⟩

structure HexOf (n : Nat) (digits : List Byte) : Prop where
  filled : digits ≠ []
  hex : ∀ b ∈ digits, (hexDigit b).isSome
  value : address digits = n
  plain : digits.head? = some 48 → digits = [48]

def flagByte (flag : Nat) : Byte := if flag = 0 then 48 else 49

def Prints (r : Row) (line : List Byte) : Prop := ∃ addr pfn, HexOf r.addr addr ∧ HexOf r.entry.pfn pfn ∧
  line = addr ++ [space] ++ pfn ++ [space, flagByte r.entry.softDirty, space, flagByte r.entry.filePage,
    space, flagByte r.entry.swapped, space, flagByte r.entry.present, space] ++ r.libName ++ [newline]

theorem digitByteHex : ∀ d < 16, hexDigit (UInt8.ofNat (Nat.digitChar d).toNat) = some d ∧
    (UInt8.ofNat (Nat.digitChar d).toNat = 48 → d = 0) := by
  decide

theorem addressAppend (digits : List Byte) (b : Byte) :
    address (digits ++ [b]) = address digits * 16 + (hexDigit b).getD 0 := by
  rw [address, List.foldl_append]
  rfl

theorem hexTextOf (n : Nat) : HexOf n (hexText n) := by
  induction n using Nat.strongRecOn with
  | ind n ih =>
    rcases Nat.lt_or_ge n 16 with small | large
    · obtain ⟨digit, -⟩ := digitByteHex n small
      have text : hexText n = [UInt8.ofNat (Nat.digitChar n).toNat] := by
        rw [hexText, Nat.toDigits_of_lt_base small]
        rfl
      rw [text]
      refine ⟨List.cons_ne_nil _ _, ?_, ?_, fun zero => ?_⟩
      · simp [digit]
      · simp [address, digit]
      · rw [Option.some.inj zero]
    · obtain ⟨digit, -⟩ := digitByteHex (n % 16) (Nat.mod_lt n (by decide))
      have before := ih (n / 16) (Nat.div_lt_self (by omega) (by decide))
      have text : hexText n = hexText (n / 16) ++ [UInt8.ofNat (Nat.digitChar (n % 16)).toNat] := by
        rw [hexText, Nat.toDigits_of_base_le (by decide) large, List.map_append]
        rfl
      rw [text]
      refine ⟨List.append_ne_nil_of_left_ne_nil before.filled _, ?_, ?_, fun zero => ?_⟩
      · rw [List.forall_mem_append]
        exact ⟨before.hex, by simp [digit]⟩
      · rw [addressAppend, before.value, digit, Option.getD_some]
        omega
      · rw [List.head?_append_of_ne_nil _ before.filled] at zero
        have value := before.value
        rw [before.plain zero] at value
        have zeros : address [48] = 0 := by decide
        omega

theorem flagText {flag : Nat} (bit : flag < 2) : decimalText flag = [flagByte flag] := by
  have both : ∀ flag < 2, decimalText flag = [flagByte flag] := by decide
  exact both flag bit

theorem rowPrints {page : PagePower} {pread : Pread} {asked : (Nat × List Byte) × Nat} {r : Row}
    (row : rowOf page pread asked = some r) : Prints r r.text := by
  unfold rowOf at row
  split at row
  · rename_i entry returned
    cases row
    obtain ⟨data, -, rfl⟩ := entryWhole page pread returned
    have bit : ∀ k, littleEndian data / 2^k % 2 < 2 := fun k => Nat.mod_lt _ (by decide)
    refine ⟨_, _, hexTextOf _, hexTextOf _, ?_⟩
    simp only [Row.text, PagemapEntry.ofData, flagText (bit _), List.append_assoc, List.cons_append,
      List.nil_append]
  · contradiction

theorem kernelLinesDumped (page : PagePower) (stack : Buffer) (pread : Pread)
    (lines : List (KernelLine page)) (a : Split (kernelText lines)) (ends : a.AtLineEnds) :
    fprintPagemap page stack a.pieces =
        ⟨lines.map KernelLine.addresses, lines.flatMap KernelLine.pages, false⟩ ∧
      dumpRows page pread stack a.pieces =
        some ((lines.flatMap KernelLine.pages).zipIdx.filterMap (rowOf page pread)) ∧
      (∃ printed, List.Forall₂ Prints
          ((lines.flatMap KernelLine.pages).zipIdx.filterMap (rowOf page pread)) printed ∧
        dumpText page pread stack a.pieces = some (heading ++ printed.flatten)) ∧
      ∀ n, (dumped page stack (a.pieces.take n)).buffer =
        (a.pieces.take n).foldl (fun buf piece => fill buf offset piece) stack := by
  obtain ⟨groups, rfl, pieces, fits⟩ := kernelPieces a ends
  rw [pieces]
  have out : fprintPagemap page stack (groups.map kernelText) = _ := (kernelGroups stack groups fits).1
  have rows : dumpRows page pread stack (groups.map kernelText) =
      some ((groups.flatten.flatMap KernelLine.pages).zipIdx.filterMap (rowOf page pread)) := by
    unfold dumpRows
    rw [out]
    exact printRowsExactly page pread 0 _
  refine ⟨out, rows, ⟨((groups.flatten.flatMap KernelLine.pages).zipIdx.filterMap
    (rowOf page pread)).map Row.text, ?_, ?_⟩, fun n => ?_⟩
  · refine List.forall₂_map_right_iff.mpr (List.forall₂_same.mpr fun r mem => ?_)
    obtain ⟨asked, -, row⟩ := List.mem_filterMap.mp mem
    exact rowPrints row
  · rw [dumpText, rows]
    rfl
  · rw [← List.map_take]
    exact (kernelGroups stack (groups.take n) fun group mem => fits group (List.mem_of_mem_take mem)).2

def kernelA : KernelLine .x86 :=
  ⟨lineA, by decide +kernel, by decide +kernel, by decide +kernel, by decide +kernel⟩
def kernelB : KernelLine .x86 :=
  ⟨lineB, by decide +kernel, by decide +kernel, by decide +kernel, by decide +kernel⟩

def kernelCut : Split (kernelText [kernelA, kernelB]) :=
  ⟨[kernelA.bytes, kernelB.bytes], by decide, by decide, by decide⟩

def partly : Pread where
  read query _ count :=
    if query = 0 then some (List.replicate (min count 5) 129) else some []
  short query _ count bytes found := by
    split at found
    · cases found
      rw [List.length_replicate]
      exact Nat.min_le_left _ _
    · cases found
      exact Nat.zero_le _

theorem twoLinesDumped :
    fprintPagemap .x86 (fun _ => 255) kernelCut.pieces =
        ⟨[⟨0x400000, 0x401000, kernelA.path⟩, ⟨0x601000, 0x602000, []⟩],
          [(0x400000, kernelA.path), (0x601000, [])], false⟩ ∧
      (∃ line, Prints ⟨0x400000, ⟨0x1818181818181, 1, 0, 0, 1⟩, kernelA.path⟩ line ∧
        dumpText .x86 partly (fun _ => 255) kernelCut.pieces = some (heading ++ line)) ∧
      dumpText .x86 partly (fun _ => 255) kernelCut.pieces =
        some (heading ++ textBytes "400000 1818181818181 1 0 0 1 /bin/a\n") := by
  have ends : kernelCut.AtLineEnds := by
    intro piece mem
    rcases List.mem_cons.mp mem with rfl | last
    · exact ⟨kernelA.body, rfl⟩
    · cases List.mem_singleton.mp last
      exact ⟨kernelB.body, rfl⟩
  have row : ([kernelA, kernelB].flatMap KernelLine.pages).zipIdx.filterMap (rowOf .x86 partly) =
      [⟨0x400000, ⟨0x1818181818181, 1, 0, 0, 1⟩, kernelA.path⟩] := by
    decide +kernel
  obtain ⟨out, rows, ⟨printed, each, text⟩, -⟩ :=
    kernelLinesDumped .x86 (fun _ => 255) partly [kernelA, kernelB] kernelCut ends
  rw [row] at rows each
  obtain ⟨line, others, prints, rest, rfl⟩ := List.forall₂_cons_left_iff.mp each
  rw [List.forall₂_nil_left_iff.mp rest] at text
  refine ⟨?_, ⟨line, prints, ?_⟩, ?_⟩
  · rw [out]
    decide +kernel
  · rw [text, List.flatten_singleton]
  · rw [dumpText, rows]
    exact congrArg some (congrArg (heading ++ ·) (by decide +kernel))

end OsLabs.MapsDump
