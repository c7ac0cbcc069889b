import Mathlib.Data.Nat.Notation
import OsLabs.CInteger
import OsLabs.CMemory
import OsLabs.PagemapRows

/-! pagemap_get_entry over the cells of its variable `data`, with the size_t arithmetic of
its loop and the pread calls numbered one by one. The page dump uses the calls by their
offset alone; the loop there is this one when pread answers so. -/
namespace OsLabs.PagemapReads
open CInteger CMemory WhileLoop
open MapsDump (PageSize PagePower PagemapEntry Pread littleEndian dataSize)

structure Loop where
  data : Mem
  nread : Nat
  calls : Nat

/- Both products and sums are of size_t. -/
def fileOffset (page : PageSize) (vaddr : UInt64) (nread : Nat) : Nat :=
  toULong (toULong (vaddr.toNat / page.value * dataSize) + nread)

def returned : Option (List Byte) → Int
  | none => -1
  | some bytes => bytes.length

/- `nread` takes the result before it is tested, the negative one too. -/
def afterRead (s : Loop) (answer : Option (List Byte)) : Except Loop Loop :=
  let next : Loop :=
    ⟨putAll s.data (copyTo s.nread (answer.getD [])), toULong (s.nread + returned answer), s.calls + 1⟩
  if returned answer ≤ 0 then .error next else .ok next

def readTurn (pread : Pread) (page : PageSize) (vaddr : UInt64) (s : Loop) : Except Loop Loop :=
  afterRead s
    (pread.read s.calls (fileOffset page vaddr s.nread) (toULong (dataSize - s.nread)))

def wordOf (data : Mem) : UInt64 := UInt64.ofNat (littleEndian (readMem data 0 dataSize))

def setEntry (data : UInt64) : PagemapEntry :=
  ⟨(data &&& (((1 : UInt64) <<< 55) - 1)).toNat, ((data >>> 55) &&& 1).toNat,
    ((data >>> 61) &&& 1).toNat, ((data >>> 62) &&& 1).toNat, ((data >>> 63) &&& 1).toNat⟩

def pagemapGetEntry (pread : Pread) (page : PageSize) (stack : Mem) (vaddr : UInt64)
    (entry : PagemapEntry) (fuel : Nat) : Option (Int × PagemapEntry) :=
  (whileLoop (fun s => dataSize ≤ s.nread) (readTurn pread page vaddr) fuel ⟨stack, 0, 0⟩).map
    fun
      | .error _ => (1, entry)
      | .ok s => (0, setEntry (wordOf s.data))

/- A pagemap, and what the calls return by their number and the count asked for: -1, or at
most the count. -/
structure Pagemap where
  content : Nat → Byte
  result : Nat → Nat → Int
  least : ∀ call count, -1 ≤ result call count
  most : ∀ call count, result call count ≤ count

def Pagemap.bytesAt (m : Pagemap) (offset count : Nat) : List Byte :=
  (List.range' offset count).map m.content

def Pagemap.pread (m : Pagemap) : Pread where
  read call offset count :=
    if m.result call count < 0 then none
    else some (m.bytesAt offset (m.result call count).toNat)
  short call offset count bytes same := by
    have most := m.most call count
    split at same
    · cases same
    · cases same
      simp only [Pagemap.bytesAt, List.length_map, List.length_range']
      omega

def Pagemap.got (m : Pagemap) : Nat → Nat
  | 0 => 0
  | n + 1 => m.got n + (m.result n (dataSize - m.got n)).toNat

def Pagemap.Delivered (m : Pagemap) : Prop :=
  ∃ n, m.got n = dataSize ∧ ∀ k < n, 0 < m.result k (dataSize - m.got k)

theorem toULongNat {n : Nat} (small : n < 2^64) : toULong n = n := by
  have exact := @toULongExact n (by omega) (by omega)
  omega

theorem offsetExact (page : PageSize) (vaddr : UInt64) {nread : Nat} (room : nread ≤ dataSize) :
    fileOffset page vaddr nread = vaddr.toNat / page.value * dataSize + nread := by
  have size : dataSize = 8 := rfl
  have least : 4096 ≤ page.value := page.least
  have small := vaddr.toNat_lt
  have pages : vaddr.toNat / page.value ≤ vaddr.toNat / 4096 := Nat.div_le_div_left least (by omega)
  have entries : vaddr.toNat / page.value * dataSize ≤ vaddr.toNat / 4096 * 8 :=
    Nat.mul_le_mul_right 8 pages
  unfold fileOffset
  rw [← Int.natCast_ediv, ← Int.natCast_mul, toULongNat (by omega), ← Int.natCast_add,
    toULongNat (by omega)]

theorem bytesAtAppend (m : Pagemap) (offset n k : Nat) :
    m.bytesAt offset (n + k) = m.bytesAt offset n ++ m.bytesAt (offset + n) k := by
  unfold Pagemap.bytesAt
  rw [← List.map_append, List.range'_append_1]

theorem bytesAtLength (m : Pagemap) (offset n : Nat) : (m.bytesAt offset n).length = n := by
  simp [Pagemap.bytesAt]

theorem littleEndianBound (data : List Byte) : littleEndian data < 256 ^ data.length := by
  induction data with
  | nil => exact Nat.one_pos
  | cons b rest ih =>
    have byte := b.toNat_lt
    have step : littleEndian (b :: rest) = b.toNat + 256 * littleEndian rest := rfl
    rw [step, List.length_cons, Nat.pow_succ]
    omega

theorem wordOfHolds {data : Mem} {bytes : List Byte} (held : Holds data 0 bytes)
    (whole : bytes.length = dataSize) : (wordOf data).toNat = littleEndian bytes := by
  have bound := littleEndianBound bytes
  rw [whole] at bound
  unfold wordOf
  rw [← whole, readHolds held]
  exact Nat.mod_eq_of_lt bound

theorem setEntryBits (data : UInt64) : setEntry data = .ofData data.toNat := by
  have low : ∀ k, k < 64 → ((data >>> UInt64.ofNat k) &&& 1).toNat = data.toNat / 2^k % 2 := by
    intro k small
    have shift : (UInt64.ofNat k).toNat % 64 = k := by
      simp only [UInt64.toNat_ofNat']
      omega
    rw [UInt64.toNat_and, UInt64.toNat_shiftRight, shift, Nat.shiftRight_eq_div_pow]
    exact Nat.and_one_is_mod _
  have mask : (data &&& (((1 : UInt64) <<< 55) - 1)).toNat = data.toNat % 2^55 := by
    rw [UInt64.toNat_and]
    exact Nat.and_two_pow_sub_one_eq_mod _ 55
  unfold setEntry PagemapEntry.ofData
  rw [mask]
  exact congr (congr (congr (congrArg _ (low 55 (by omega))) (low 61 (by omega)))
    (low 62 (by omega))) (low 63 (by omega))

theorem readFails {s : Loop} {answer : Option (List Byte)} (stops : returned answer ≤ 0) :
    ∃ t, afterRead s answer = .error t := ⟨_, if_pos stops⟩

theorem readMoves {s : Loop} {bytes : List Byte} (filled : bytes ≠ [])
    (small : s.nread + bytes.length < 2^64) :
    afterRead s (.some bytes) =
      .ok ⟨putAll s.data (copyTo s.nread bytes), s.nread + bytes.length, s.calls + 1⟩ := by
  have positive : ¬ returned (.some bytes) ≤ 0 := by
    have length := List.length_pos_iff.mpr filled
    simp only [returned]
    omega
  have sum : toULong (s.nread + returned (.some bytes)) = s.nread + bytes.length := by
    rw [returned, ← Int.natCast_add, toULongNat small]
  rw [afterRead, if_neg positive, sum]
  rfl

theorem turnAsks (pread : Pread) (page : PageSize) (vaddr : UInt64) {s : Loop}
    (less : s.nread < dataSize) :
    readTurn pread page vaddr s = afterRead s (pread.read s.calls
      (vaddr.toNat / page.value * dataSize + s.nread) (dataSize - s.nread)) := by
  have count : toULong (dataSize - s.nread) = dataSize - s.nread := by
    have size : dataSize = 8 := rfl
    rw [← Int.natCast_sub (by omega), toULongNat (by omega)]
  rw [readTurn, offsetExact page vaddr (Nat.le_of_lt less), count]

theorem turnCases (m : Pagemap) (page : PageSize) (vaddr : UInt64) {s : Loop}
    (less : s.nread < dataSize) {n : Int} (result : m.result s.calls (dataSize - s.nread) = n) :
    n ≤ 0 ∧ (∃ t, readTurn m.pread page vaddr s = .error t) ∨
      0 < n ∧ readTurn m.pread page vaddr s = .ok
        ⟨putAll s.data (copyTo s.nread
            (m.bytesAt (vaddr.toNat / page.value * dataSize + s.nread) n.toNat)),
          s.nread + n.toNat, s.calls + 1⟩ := by
  have size : dataSize = 8 := rfl
  have most := m.most s.calls (dataSize - s.nread)
  have length := bytesAtLength m (vaddr.toNat / page.value * dataSize + s.nread) n.toNat
  rw [result] at most
  rw [turnAsks m.pread page vaddr less]
  by_cases failed : n < 0
  · have answer : m.pread.read s.calls (vaddr.toNat / page.value * dataSize + s.nread)
        (dataSize - s.nread) = none := if_pos (result.symm ▸ failed)
    exact .inl ⟨by omega, readFails (by rw [answer]; decide)⟩
  · have answer : m.pread.read s.calls (vaddr.toNat / page.value * dataSize + s.nread)
        (dataSize - s.nread) =
          some (m.bytesAt (vaddr.toNat / page.value * dataSize + s.nread) n.toNat) := by
      subst result
      exact if_neg failed
    rw [answer]
    by_cases stops : n ≤ 0
    · refine .inl ⟨stops, readFails ?_⟩
      rw [returned, length]
      omega
    · refine .inr ⟨by omega, ?_⟩
      rw [readMoves (fun empty => by rw [empty, List.length_nil] at length; omega)
        (by rw [length]; omega), length]

theorem turnMoved {m : Pagemap} {page : PageSize} {vaddr : UInt64} {s t : Loop}
    (less : s.nread < dataSize) (moved : readTurn m.pread page vaddr s = .ok t) :
    0 < m.result s.calls (dataSize - s.nread) ∧
      t = ⟨putAll s.data (copyTo s.nread (m.bytesAt (vaddr.toNat / page.value * dataSize + s.nread)
          (m.result s.calls (dataSize - s.nread)).toNat)),
        s.nread + (m.result s.calls (dataSize - s.nread)).toNat, s.calls + 1⟩ := by
  rcases turnCases m page vaddr less rfl with ⟨-, u, failed⟩ | ⟨positive, exact⟩
  · cases failed.symm.trans moved
  · exact ⟨positive, Except.ok.inj (moved.symm.trans exact)⟩

structure Midway (m : Pagemap) (base : Nat) (s : Loop) : Prop where
  nread : s.nread = m.got s.calls
  room : m.got s.calls ≤ dataSize
  taken : ∀ k < s.calls, 0 < m.result k (dataSize - m.got k)
  held : Holds s.data 0 (m.bytesAt base (m.got s.calls))

theorem midwayStart (m : Pagemap) (base : Nat) (stack : Mem) : Midway m base ⟨stack, 0, 0⟩ where
  nread := rfl
  room := Nat.zero_le _
  taken _ early := absurd early (Nat.not_lt_zero _)
  held := trivial

theorem midwayKept {m : Pagemap} {page : PageSize} {vaddr : UInt64} {s t : Loop}
    (midway : Midway m (vaddr.toNat / page.value * dataSize) s)
    (more : decide (dataSize ≤ s.nread) = false) (moved : readTurn m.pread page vaddr s = .ok t) :
    Midway m (vaddr.toNat / page.value * dataSize) t := by
  have less : s.nread < dataSize := by simpa using more
  obtain ⟨positive, rfl⟩ := turnMoved less moved
  have most := m.most s.calls (dataSize - s.nread)
  have next : m.got (s.calls + 1) = s.nread + (m.result s.calls (dataSize - s.nread)).toNat := by
    rw [Pagemap.got, midway.nread]
  refine ⟨next.symm, ?_, ?_, ?_⟩
  · rw [next]
    omega
  · intro k early
    rcases Nat.lt_succ_iff_lt_or_eq.mp early with before | rfl
    · exact midway.taken k before
    · simpa only [midway.nread] using positive
  · rw [next, bytesAtAppend, holdsAppend, bytesAtLength, Int.zero_add]
    refine ⟨?_, copyHolds _ _ _⟩
    -- the call stores behind the bytes of the calls before it
    have held := midway.held
    rw [← midway.nread] at held
    refine holdsFrame held (fun j _ high => putAllFrame _ _ _ fun store mem => ?_)
    have behind := (copyToIndex mem).1
    rw [bytesAtLength] at high
    omega

def Pagemap.bit (m : Pagemap) (base i : Nat) : Bool := (m.content (base + i / 8)).toNat.testBit (i % 8)

structure Pagemap.Fields (m : Pagemap) (base : Nat) (entry : PagemapEntry) : Prop where
  pfn : ∀ i, entry.pfn.testBit i = (decide (i < 55) && m.bit base i)
  softDirty : entry.softDirty = (m.bit base 55).toNat
  filePage : entry.filePage = (m.bit base 61).toNat
  swapped : entry.swapped = (m.bit base 62).toNat
  present : entry.present = (m.bit base 63).toNat

theorem wordBit (m : Pagemap) (base n : Nat) {i : Nat} (inside : i < 8 * n) :
    (littleEndian (m.bytesAt base n)).testBit i = m.bit base i := by
  induction n generalizing base i with
  | zero => exact absurd inside (Nat.not_lt_zero _)
  | succ n ih =>
    have bytes : m.bytesAt base (n + 1) = m.content base :: m.bytesAt (base + 1) n := by
      rw [Pagemap.bytesAt, List.range'_succ]
      rfl
    have word : littleEndian (m.bytesAt base (n + 1)) =
        2^8 * littleEndian (m.bytesAt (base + 1) n) + (m.content base).toNat := by
      rw [bytes]
      exact Nat.add_comm _ _
    rw [word, Nat.testBit_two_pow_mul_add _ (m.content base).toNat_lt]
    split
    · rename_i first
      rw [Pagemap.bit, Nat.div_eq_of_lt first, Nat.mod_eq_of_lt first]
      rfl
    · rename_i later
      obtain ⟨k, rfl⟩ := Nat.exists_eq_add_of_le (Nat.le_of_not_lt later)
      have place : base + 1 + k / 8 = base + (8 + k) / 8 := by omega
      rw [Nat.add_sub_cancel_left, ih (base + 1) (by omega), Pagemap.bit, Pagemap.bit, place,
        Nat.add_mod_left]

theorem dataFields (m : Pagemap) (base : Nat) :
    m.Fields base (.ofData (littleEndian (m.bytesAt base dataSize))) := by
  have flag : ∀ i < 64, littleEndian (m.bytesAt base dataSize) / 2^i % 2 = (m.bit base i).toNat := by
    intro i inside
    rw [← Nat.toNat_testBit, wordBit m base dataSize inside]
  refine ⟨fun i => ?_, flag 55 (by decide), flag 61 (by decide), flag 62 (by decide), flag 63 (by decide)⟩
  rw [PagemapEntry.ofData, Nat.testBit_mod_two_pow]
  by_cases low : i < 55
  · rw [wordBit m base dataSize (show i < 8 * 8 by omega)]
  · simp [low]

theorem gotMono (m : Pagemap) {n k : Nat} (early : n ≤ k) : m.got n ≤ m.got k := by
  induction early with
  | refl => exact Nat.le_refl _
  | step _ ih => exact Nat.le_trans ih (Nat.le_add_right _ _)

theorem loopEnds (m : Pagemap) (page : PageSize) (stack : Mem) (vaddr : UInt64) :
    ∃ result, ∀ fuel, dataSize < fuel →
      whileLoop (fun s => dataSize ≤ s.nread) (readTurn m.pread page vaddr) fuel ⟨stack, 0, 0⟩ =
        some result := by
  have ends := @whileEnds Loop Loop (fun s => dataSize ≤ s.nread) (readTurn m.pread page vaddr)
    (fun s => dataSize - s.nread)
    (fun s t more moved => by
      have less : s.nread < dataSize := by simpa using more
      obtain ⟨positive, rfl⟩ := turnMoved less moved
      simp only
      omega)
    (dataSize + 1) ⟨stack, 0, 0⟩ (Nat.lt_succ_self _)
  obtain ⟨result, ended⟩ := Option.isSome_iff_exists.mp ends
  refine ⟨result, fun fuel enough => ?_⟩
  obtain ⟨more, rfl⟩ := Nat.exists_eq_add_of_le enough
  exact whileMore ended more

theorem notDelivered {m : Pagemap} {n : Nat} (short : m.got n < dataSize)
    (failed : m.result n (dataSize - m.got n) ≤ 0) : ¬ m.Delivered := by
  rintro ⟨k, whole, taken⟩
  by_cases later : n < k
  · have positive := taken n later
    omega
  · have bound := gotMono m (Nat.le_of_not_lt later)
    omega

theorem pagemapGetEntryExact (m : Pagemap) (page : PageSize) (stack : Mem) (vaddr : UInt64)
    (entry : PagemapEntry) : ∃ ret out,
      (∀ fuel, dataSize < fuel →
        pagemapGetEntry m.pread page stack vaddr entry fuel = some (ret, out)) ∧
      (m.Delivered ∧ ret = 0 ∧ m.Fields (vaddr.toNat / page.value * dataSize) out ∨
        ¬ m.Delivered ∧ ret = 1 ∧ out = entry) := by
  obtain ⟨result, ended⟩ := loopEnds m page stack vaddr
  have first := ended (dataSize + 1) (Nat.lt_succ_self _)
  have start := midwayStart m (vaddr.toNat / page.value * dataSize) stack
  cases result with
  | error e =>
    refine ⟨1, entry, fun fuel enough => by rw [pagemapGetEntry, ended fuel enough]; rfl, .inr ?_⟩
    obtain ⟨s, midway, more, failed⟩ := whileFails _ (fun _ _ => midwayKept) start first
    have less : s.nread < dataSize := by simpa using more
    rcases turnCases m page vaddr less rfl with ⟨stops, _⟩ | ⟨_, exact⟩
    · rw [midway.nread] at stops less
      exact ⟨notDelivered less stops, rfl, rfl⟩
    · cases exact.symm.trans failed
  | ok s =>
    refine ⟨0, _, fun fuel enough => by rw [pagemapGetEntry, ended fuel enough]; rfl, .inl ?_⟩
    have midway := whileInvariant _ (fun _ _ => midwayKept) start first
    have enough : dataSize ≤ s.nread := by simpa using whileDone first
    have whole : m.got s.calls = dataSize :=
      Nat.le_antisymm midway.room (midway.nread ▸ enough)
    have held := midway.held
    rw [whole] at held
    refine ⟨⟨s.calls, whole, midway.taken⟩, rfl, ?_⟩
    rw [setEntryBits, wordOfHolds held (bytesAtLength _ _ _)]
    exact dataFields m _

def inTwoReads : Pagemap where
  content offset := UInt8.ofNat (offset * 17)
  result call count := min count (if call = 0 then 3 else 5)
  least call count := by split <;> omega
  most call count := by omega

theorem twoReadsDeliver : ∃ out, pagemapGetEntry inTwoReads.pread ⟨4096, Nat.le_refl _⟩ (fun _ => 255) 0x1abc
    ⟨0, 0, 0, 0, 0⟩ 9 = some (0, out) ∧ inTwoReads.Fields 8 out ∧ out.pfn = 0x6eddccbbaa9988 := by
  obtain ⟨ret, out, returned, delivered⟩ := pagemapGetEntryExact inTwoReads ⟨4096, Nat.le_refl _⟩
    (fun _ => 255) 0x1abc ⟨0, 0, 0, 0, 0⟩
  have whole : inTwoReads.Delivered := ⟨2, by decide, by decide⟩
  rcases delivered with ⟨-, rfl, fields⟩ | ⟨short, -, -⟩
  · have found := returned 9 (by decide)
    refine ⟨out, found, fields, ?_⟩
    have seen : (pagemapGetEntry inTwoReads.pread ⟨4096, Nat.le_refl _⟩ (fun _ => 255) 0x1abc
        ⟨0, 0, 0, 0, 0⟩ 9).map (fun answer => answer.2.pfn) = some 0x6eddccbbaa9988 := by
      decide +kernel
    rw [found] at seen
    exact Option.some.inj seen
  · exact absurd whole short

def byOffset (pread : Pread) (query : Nat) : Pread where
  read _ := pread.read query
  short _ := pread.short query

structure Listed (s : Loop) (data : List Byte) : Prop where
  nread : s.nread = data.length
  room : data.length ≤ dataSize
  held : Holds s.data 0 data

theorem listedTurn (page : PagePower) (pread : Pread) (query : Nat) (vaddr : UInt64) {s : Loop} {data : List Byte}
    (listed : Listed s data) (more : s.nread < dataSize) :
    (∃ t, readTurn (byOffset pread query) page.toPageSize vaddr s = .error t) ∧
        MapsDump.readMore (pread.read query) page vaddr.toNat data = .error () ∨
      ∃ t bytes, readTurn (byOffset pread query) page.toPageSize vaddr s = .ok t ∧
        MapsDump.readMore (pread.read query) page vaddr.toNat data = .ok (data ++ bytes) ∧
        Listed t (data ++ bytes) := by
  have size : dataSize = 8 := rfl
  have nread := listed.nread
  have asked : readTurn (byOffset pread query) page.toPageSize vaddr s = afterRead s (pread.read query
      (vaddr.toNat / page.value * dataSize + data.length) (dataSize - data.length)) := by
    rw [turnAsks _ _ _ more, nread]
    rfl
  have short := pread.short query (vaddr.toNat / page.value * dataSize + data.length)
    (dataSize - data.length)
  rw [asked]
  cases answer : pread.read query (vaddr.toNat / page.value * dataSize + data.length)
      (dataSize - data.length) with
  | none => exact .inl ⟨readFails (by decide), by simp only [MapsDump.readMore, answer]⟩
  | some bytes =>
    cases bytes with
    | nil => exact .inl ⟨readFails (by decide), by simp only [MapsDump.readMore, answer]⟩
    | cons b rest =>
      have fits := short _ answer
      refine .inr ⟨_, b :: rest, readMoves (List.cons_ne_nil b rest) (by omega),
        by simp only [MapsDump.readMore, answer], ?_, ?_, ?_⟩
      · rw [List.length_append, nread]
      · rw [List.length_append]
        omega
      · rw [holdsAppend, Int.zero_add, nread]
        refine ⟨holdsFrame listed.held fun j _ high => putAllFrame _ _ _ fun store mem => ?_,
          copyHolds _ _ _⟩
        have behind := (copyToIndex mem).1
        omega

theorem pageDumpEntry (page : PagePower) (pread : Pread) (query : Nat) (stack : Mem) (vaddr : UInt64)
    (entry : PagemapEntry) :
    pagemapGetEntry (byOffset pread query) page.toPageSize stack vaddr entry (dataSize + 1) =
      (MapsDump.pagemapGetEntry (pread.read query) page vaddr.toNat).map fun
        | .error _ => (1, entry)
        | .ok found => (0, found) := by
  have ends := MapsDump.entryReturns page (pread.read query) vaddr.toNat
  unfold MapsDump.pagemapGetEntry at ends ⊢
  unfold pagemapGetEntry
  have start : Listed ⟨stack, 0, 0⟩ [] := ⟨rfl, Nat.zero_le _, trivial⟩
  rcases @whileSimulates Loop Loop (fun s => dataSize ≤ s.nread)
    (readTurn (byOffset pread query) page.toPageSize vaddr) (List Byte) Unit
    (fun data => dataSize ≤ data.length) (MapsDump.readMore (pread.read query) page vaddr.toNat) Listed
    (fun s data listed => by rw [listed.nread])
    (fun s data e listed more failed => by
      rcases listedTurn page pread query vaddr listed (by simpa using more) with ⟨_, other⟩ | ⟨t, _, moved, _⟩
      · exact ⟨(), other⟩
      · cases moved.symm.trans failed)
    (fun s data u listed more moved => by
      rcases listedTurn page pread query vaddr listed (by simpa using more) with
        ⟨⟨t, failed⟩, _⟩ | ⟨t, bytes, taken, other, next⟩
      · cases failed.symm.trans moved
      · cases taken.symm.trans moved
        exact ⟨data ++ bytes, other, next⟩)
    (dataSize + 1) _ _ start with ⟨left, right⟩ | ⟨e, d, left, right⟩ | ⟨s, data, left, right, listed⟩
  · rw [right] at ends
    cases ends
  · rw [left, right]
    rfl
  · have whole : data.length = dataSize :=
      Nat.le_antisymm listed.room (by simpa using whileDone right)
    rw [left, right]
    simp only [Option.map_some, Except.map, setEntryBits, wordOfHolds listed.held whole]

end OsLabs.PagemapReads
