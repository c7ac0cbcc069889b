import Mathlib.Algebra.Group.Nat.Defs
import Mathlib.Logic.Function.Basic
import OsLabs.BufferScan

/-! The page dump: fprintPagemap scans the maps file piece by piece for lines and asks for
every page of every range. The lines printed about a page and the two opens are left out;
what is kept is each range with its path and each page asked about. -/
namespace OsLabs.MapsDump
open CMemory BufferScan

def bufSize : Nat := 2048

/- sysconf(_SC_PAGE_SIZE): Linux has no smaller pages than these. -/
structure PageSize where
  value : Nat
  least : 4096 ≤ value

/- A power of two, so that an address that wraps keeps its place in the page. -/
structure PagePower extends PageSize where
  divides : value ∣ 2^64

def PagePower.x86 : PagePower := ⟨⟨4096, Nat.le_refl _⟩, by decide⟩

def newline : Byte := 10
def space : Byte := 32
def dash : Byte := 45

def hexDigit (c : Byte) : Option Nat :=
  if 48 ≤ c ∧ c ≤ 57 then some (c.toNat - 48)
  else if 97 ≤ c ∧ c ≤ 102 then some (c.toNat - 97 + 10)
  else none

/- while (buffer[x] != stop && x < sizeof buffer): a byte that is no digit is passed too,
after the multiplication. -/
def hexScan (buf : Buffer) (stop : Byte) : Nat → Nat → Nat → Nat × Nat
  | 0, x, value => (x, value)
  | room + 1, x, value =>
      if buf x = stop then (x, value)
      else match hexDigit (buf x) with
        | some d => hexScan buf stop room (x + 1) ((value * 16 + d) % 2^64)
        | none => (x + 1, value * 16 % 2^64)

def seekIn (buf : Buffer) (stop : Byte → Bool) (x : Nat) : Nat := seek buf stop (bufSize - x) x

def nextField (buf : Buffer) (x : Nat) : Nat := seekIn buf (fun c => c == space) (x + 1)

structure Parsed where
  back : Nat
  start : Nat
  lowEnd : Nat
  low : Nat
  separator : Nat
  highStart : Nat
  highEnd : Nat
  high : Nat
  fields : Nat
  path : Nat
  y : Nat
  deriving DecidableEq, Repr

def parse (buf : Buffer) (i : Nat) : Parsed :=
  let back := seekBack buf newline (i - 1)
  let start := if buf back = newline then back + 1 else back
  let low := hexScan buf dash (bufSize - start) start 0
  let separator := seekIn buf (fun c => c == dash) low.1
  let highStart := if buf separator = dash then separator + 1 else separator
  let high := hexScan buf space (bufSize - highStart) highStart 0
  let fields := nextField buf (nextField buf (nextField buf (nextField buf high.1)))
  let path := seekIn buf (fun c => c != space) fields
  let y := seekIn buf (fun c => c == newline) path
  ⟨back, start, low.1, low.2, separator, highStart, high.1, high.2, fields, path, y⟩

def pageLoop (page : PagePower) (high : Nat) : Nat → Nat → Option (List Nat)
  | 0, _ => none
  | fuel + 1, addr =>
      if addr < high then (pageLoop page high fuel ((addr + page.value) % 2^64)).map (addr :: ·)
      else some []

def pageFuel : Nat := 2^52 + 1

structure Range where
  low : Nat
  high : Nat
  libName : List Byte
  deriving DecidableEq, Repr

structure Outcome where
  ranges : List Range
  pages : List (Nat × List Byte)
  stuck : Bool
  deriving DecidableEq, Repr

def Outcome.add (page : PagePower) (o : Outcome) (r : Range) : Outcome :=
  if o.stuck then o
  else match pageLoop page r.high pageFuel r.low with
    | none => ⟨o.ranges ++ [r], o.pages, true⟩
    | some pages => ⟨o.ranges ++ [r], o.pages ++ pages.map (fun addr => (addr, r.libName)), false⟩

structure Dump where
  buffer : Buffer
  out : Outcome

/- The block under buffer[i] == '\n' && i. The string at lib_name ends at the 0 put to y,
which the newline replaces after the pages. -/
def Dump.line (page : PagePower) (d : Dump) (i : Nat) : Dump :=
  let p := parse d.buffer i
  let marked := Function.update d.buffer p.y 0
  let libName := (slice marked p.path p.y).takeWhile (fun c => c != 0)
  let out := d.out.add page ⟨p.low, p.high, libName⟩
  ⟨if out.stuck then marked else Function.update marked p.y newline, out⟩

def Dump.scan (page : PagePower) (d : Dump) (i : Nat) : Nat → Dump
  | 0 => d
  | n + 1 =>
      if d.out.stuck then d
      else Dump.scan page (if d.buffer i = newline ∧ i ≠ 0 then d.line page i else d) (i + 1) n

/- The variable offset, which the loop reads and never changes. -/
def offset : Nat := 0

def Dump.read (page : PagePower) (d : Dump) (piece : List Byte) : Dump :=
  if d.out.stuck then d
  else Dump.scan page ⟨fill d.buffer offset piece, d.out⟩ offset piece.length

def fprintPagemap (page : PagePower) (stack : Buffer) (pieces : List (List Byte)) : Outcome :=
  (pieces.foldl (Dump.read page) ⟨stack, ⟨[], [], false⟩⟩).out

section Pages
variable {page : PagePower}

theorem pageLoopMore {high fuel addr : Nat} {pages : List Nat}
    (done : pageLoop page high fuel addr = some pages) :
    pageLoop page high (fuel + 1) addr = some pages := by
  induction fuel generalizing addr pages with
  | zero => cases done
  | succ fuel ih =>
    unfold pageLoop at done ⊢
    split
    · rename_i below
      rw [if_pos below] at done
      obtain ⟨rest, later, same⟩ := Option.map_eq_some_iff.mp done
      rw [ih later, ← same]
      rfl
    · rename_i above
      rwa [if_neg above] at done

theorem pageLoopMono {high fuel more addr : Nat} {pages : List Nat} (enough : fuel ≤ more)
    (done : pageLoop page high fuel addr = some pages) : pageLoop page high more addr = some pages := by
  induction enough with
  | refl => exact done
  | step _ ih => exact pageLoopMore ih

theorem pageBound (page : PagePower) : 0 < page.value ∧ page.value ≤ 2^64 :=
  ⟨Nat.lt_of_lt_of_le (by decide) page.least, Nat.le_of_dvd (by decide) page.divides⟩

theorem lastAddress {addr : Nat} (inRange : addr < 2^64) :
    addr ≤ 2^64 - page.value + addr % page.value := by
  obtain ⟨positive, small⟩ := pageBound page
  obtain ⟨count, whole⟩ := page.divides
  have residue := Nat.mod_add_div addr page.value
  have pages : addr / page.value < count := Nat.div_lt_of_lt_mul (whole ▸ inRange)
  have below : page.value * (addr / page.value + 1) ≤ page.value * count := Nat.mul_le_mul_left _ pages
  rw [Nat.mul_succ, ← whole] at below
  omega

theorem beforeLast {addr : Nat} (before : addr < 2^64 - page.value + addr % page.value) :
    addr + page.value < 2^64 := by
  obtain ⟨positive, small⟩ := pageBound page
  obtain ⟨count, whole⟩ := page.divides
  have residue := Nat.mod_add_div addr page.value
  have inside := Nat.mod_lt addr positive
  have pages : page.value * (addr / page.value + 1) < page.value * count := by
    rw [Nat.mul_succ, ← whole]
    omega
  have next := Nat.mul_le_mul_left page.value (Nat.succ_le_of_lt (Nat.lt_of_mul_lt_mul_left pages))
  rw [← whole, Nat.succ_eq_add_one, Nat.mul_succ, Nat.mul_succ] at next
  omega

theorem enoughPages (low : Nat) : 2^64 - page.value + low % page.value ≤ low + 2^52 * page.value := by
  have least := page.least
  have residue := Nat.mod_le low page.value
  omega

theorem nextResidue (addr : Nat) : (addr + page.value) % 2^64 % page.value = addr % page.value := by
  rw [Nat.mod_mod_of_dvd _ page.divides, Nat.add_mod_right]

theorem pageLoopForever {high r addr : Nat} (fuel : Nat) (inRange : addr < 2^64)
    (residue : addr % page.value = r) (beyond : 2^64 - page.value + r < high) :
    pageLoop page high fuel addr = none := by
  induction fuel generalizing addr with
  | zero => rfl
  | succ fuel ih =>
    have last := @lastAddress page addr inRange
    have below : addr < high := by omega
    have next := @ih ((addr + page.value) % 2^64) (Nat.mod_lt _ (by decide))
      ((nextResidue addr).trans residue)
    simp only [pageLoop, if_pos below, next, Option.map_none]

theorem pageLoopEnds {high r addr : Nat} (n : Nat) (residue : addr % page.value = r)
    (reached : high ≤ 2^64 - page.value + r) (near : 2^64 - page.value + r ≤ addr + n * page.value) :
    (pageLoop page high (n + 1) addr).isSome := by
  induction n generalizing addr with
  | zero =>
    have above : ¬ addr < high := by omega
    simp only [pageLoop, if_neg above, Option.isSome_some]
  | succ n ih =>
    rw [pageLoop]
    split
    · rename_i below
      have inside := beforeLast (Nat.lt_of_lt_of_le below (residue ▸ reached))
      have same : (addr + page.value) % 2^64 = addr + page.value := Nat.mod_eq_of_lt inside
      have next := @ih (addr + page.value) (by rw [Nat.add_mod_right, residue]) (by rw [Nat.succ_mul] at near; omega)
      rw [Option.isSome_map, same]
      exact next
    · rfl

theorem pageFuelSuffices {high fuel low : Nat} {pages : List Nat} (inRange : low < 2^64)
    (done : pageLoop page high fuel low = some pages) : pageLoop page high pageFuel low = some pages := by
  have reached : high ≤ 2^64 - page.value + low % page.value := by
    by_contra beyond
    rw [pageLoopForever fuel inRange rfl (Nat.lt_of_not_le beyond)] at done
    cases done
  have ends : (pageLoop page high pageFuel low).isSome :=
    pageLoopEnds (2^52) rfl reached (enoughPages low)
  obtain ⟨found, same⟩ := Option.isSome_iff_exists.mp ends
  have here := pageLoopMono (Nat.le_max_left pageFuel fuel) same
  have there := pageLoopMono (Nat.le_max_right pageFuel fuel) done
  rw [same, ← there, here]

end Pages

end OsLabs.MapsDump
