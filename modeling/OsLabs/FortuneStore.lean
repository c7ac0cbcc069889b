import OsLabs.CInteger
import OsLabs.CMemory
import OsLabs.Runs

/-! The cookie buffer that fortune.c and seqfile.c write to. Both modules contain the
same `writeFortune`; it is stated once over their common statics and then named in
each module. printk calls are left out. -/
namespace OsLabs.FortuneStore
open CInteger CMemory Runs

/-- COOKIE_MAX_BUF_SIZE, that is PAGE_SIZE. -/
@[irreducible] def cookieMaxBufSize : Nat := 4096

theorem pageSize : cookieMaxBufSize = 4096 := by unfold cookieMaxBufSize; rfl

def enospc : Int := 28
def efault : Int := 14

structure Statics where
  buffer : Mem
  readInd : Int
  writeInd : Int

/- What copy_from_user does with `len` bytes: it stores them all and returns 0, or it
faults after a proper prefix, zero-fills the rest of the destination and returns the
number of bytes it could not read. -/
inductive Copy (len : Nat) where
  | done
  | fault (copied : Fin len)
  deriving DecidableEq, Repr

structure WriteCall where
  user : List Byte
  size : user.length < 2^64
  copy : Copy user.length

def WriteCall.len (c : WriteCall) : Nat := c.user.length

structure WriteResult where
  ret : Int
  stores : List Store
  state : Statics

/- COOKIE_MAX_BUF_SIZE - writeInd + 1: PAGE_SIZE is unsigned long and writeInd is int,
so the value is taken modulo 2^64. -/
def spaceLeft (writeInd : Int) : Nat := toULong (cookieMaxBufSize - writeInd + 1)

def newline : Byte := 10

def partialCopy (c : WriteCall) (copied : Nat) : List Byte :=
  c.user.take copied ++ List.replicate (c.len - copied) 0

def writeFortune (s : Statics) (c : WriteCall) : WriteResult :=
  if spaceLeft s.writeInd < c.len then ⟨-enospc, [], s⟩
  else match c.copy with
  | .fault copied =>
      let stores := copyTo s.writeInd (partialCopy c copied)
      ⟨-efault, stores, {s with buffer := putAll s.buffer stores}⟩
  | .done =>
      let writeInd := toInt (s.writeInd + c.len)
      let stores := copyTo s.writeInd c.user ++ [⟨toInt (writeInd - 1), newline⟩, ⟨writeInd, 0⟩]
      ⟨toLong c.len, stores,
        {s with buffer := putAll s.buffer stores, writeInd := toInt (writeInd + 1)}⟩

/- vmalloc, memset and the last assignments of initFortune. Nothing is known of the
memory beside the page. -/
def initStatics (outside : Mem) : Statics := ⟨memset outside 0 0 cookieMaxBufSize, 0, 0⟩

def Within (s : Statics) : Prop := 0 ≤ s.writeInd ∧ s.writeInd ≤ cookieMaxBufSize

theorem initWithin (outside : Mem) : Within (initStatics outside) :=
  ⟨Int.le_refl 0, by simp [initStatics]⟩

theorem pageInt {x : Int} (low : 0 ≤ x) (high : x ≤ cookieMaxBufSize) : toInt x = x := by
  have size := pageSize
  exact toIntExact (by omega) (by omega)

theorem spaceLeftExact {writeInd : Int} (low : 0 ≤ writeInd) (high : writeInd ≤ cookieMaxBufSize) :
    (spaceLeft writeInd : Int) = cookieMaxBufSize + 1 - writeInd := by
  have page := pageSize
  unfold spaceLeft
  rw [toULongExact (by omega) (by omega)]
  omega

theorem writeRefused {s : Statics} {c : WriteCall} (tooLong : spaceLeft s.writeInd < c.len) :
    writeFortune s c = ⟨-enospc, [], s⟩ := if_pos tooLong

theorem partialCopyLength {c : WriteCall} (copied : Fin c.len) :
    (partialCopy c copied).length = c.len := by
  have short : copied.val < c.user.length := copied.isLt
  simp only [partialCopy, WriteCall.len, List.length_append, List.length_take,
    List.length_replicate]
  omega

theorem writeFaulted {s : Statics} {c : WriteCall} {copied : Fin c.len}
    (room : ¬ spaceLeft s.writeInd < c.len) (fault : c.copy = .fault copied) :
    writeFortune s c = ⟨-efault, copyTo s.writeInd (partialCopy c copied),
      {s with buffer := putAll s.buffer (copyTo s.writeInd (partialCopy c copied))}⟩ := by
  unfold writeFortune
  rw [if_neg room, fault]

theorem writeAccepted {s : Statics} {c : WriteCall} (within : Within s)
    (room : ¬ spaceLeft s.writeInd < c.len) (done : c.copy = .done) :
    writeFortune s c = ⟨c.len,
      copyTo s.writeInd c.user ++ [⟨s.writeInd + c.len - 1, newline⟩, ⟨s.writeInd + c.len, 0⟩],
      {s with
        buffer := putAll s.buffer (copyTo s.writeInd c.user ++
          [⟨s.writeInd + c.len - 1, newline⟩, ⟨s.writeInd + c.len, 0⟩]),
        writeInd := s.writeInd + c.len + 1}⟩ := by
  have page := pageSize
  have left := spaceLeftExact within.1 within.2
  have low := within.1
  have high := within.2
  unfold writeFortune
  rw [if_neg room, done]
  simp only [toIntExact (x := s.writeInd + c.len) (by omega) (by omega),
    toIntExact (x := s.writeInd + c.len - 1) (by omega) (by omega),
    toIntExact (x := s.writeInd + c.len + 1) (by omega) (by omega),
    toLongExact (x := c.len) (by omega) (by omega)]

def Inside (r : WriteResult) : Prop :=
  (∀ store ∈ r.stores, 0 ≤ store.index ∧ store.index < cookieMaxBufSize) ∧ Within r.state

def Fits (s : Statics) (c : WriteCall) : Prop :=
  c.len ≤ spaceLeft s.writeInd →
    match c.copy with
    | .fault _ => s.writeInd + c.len ≤ cookieMaxBufSize
    | .done => 0 < s.writeInd + c.len ∧ s.writeInd + c.len < cookieMaxBufSize

theorem copyInside {start : Int} {bytes : List Byte} (low : 0 ≤ start) (filled : bytes ≠ []) :
    (∀ store ∈ copyTo start bytes, 0 ≤ store.index ∧ store.index < cookieMaxBufSize) ↔
      start + bytes.length ≤ cookieMaxBufSize := by
  have positive := List.length_pos_iff.mpr filled
  constructor
  · intro inside
    obtain ⟨store, mem, last⟩ := copyToCovers start bytes
      (by omega : start ≤ start + bytes.length - 1) (by omega)
    have bound := (inside store mem).2
    omega
  · intro bound store mem
    have range := copyToIndex mem
    omega

theorem acceptedInside {start : Int} {bytes : List Byte} (low : 0 ≤ start) :
    (∀ store : Store, store ∈ copyTo start bytes ++
        [⟨start + bytes.length - 1, newline⟩, ⟨start + bytes.length, 0⟩] →
      0 ≤ store.index ∧ store.index < cookieMaxBufSize) ↔
      0 < start + bytes.length ∧ start + bytes.length < cookieMaxBufSize := by
  constructor
  · intro inside
    have first := inside ⟨start + bytes.length - 1, newline⟩ (by simp)
    have last := inside ⟨start + bytes.length, 0⟩ (by simp)
    simp only at first last
    constructor <;> omega
  · rintro ⟨positive, bound⟩ store mem
    simp only [List.mem_append, List.mem_cons, List.not_mem_nil, or_false] at mem
    rcases mem with copied | rfl | rfl
    · have range := copyToIndex copied
      omega
    · constructor <;> simp only <;> omega
    · constructor <;> simp only <;> omega

theorem insideIff {s : Statics} (within : Within s) (c : WriteCall) :
    Inside (writeFortune s c) ↔ Fits s c := by
  unfold Inside Fits
  by_cases tooLong : spaceLeft s.writeInd < c.len
  · simp [writeRefused tooLong, within, Nat.not_le.mpr tooLong]
  · have room : c.len ≤ spaceLeft s.writeInd := Nat.le_of_not_lt tooLong
    cases copy : c.copy with
    | fault copied =>
      have length := partialCopyLength copied
      have nonempty : partialCopy c copied ≠ [] := by
        intro empty
        have short : copied.val < c.len := copied.isLt
        rw [empty, List.length_nil] at length
        omega
      simp only [writeFaulted tooLong copy, copyInside within.1 nonempty, length, room, true_imp_iff]
      exact and_iff_left within
    | done =>
      have left := spaceLeftExact within.1 within.2
      simp only [writeAccepted within tooLong copy, room, true_imp_iff]
      rw [WriteCall.len, acceptedInside within.1]
      refine and_iff_left_of_imp ?_
      rintro ⟨positive, bound⟩
      constructor <;> simp only <;> omega

theorem insideWithin {s : Statics} {c : WriteCall} (within : Within s) (fits : Fits s c) :
    Within (writeFortune s c).state := ((insideIff within c).mpr fits).2

/- fortune.c: the page is cookieBuffer, and a second page, tmpBuffer, serves reads. -/
namespace Fortune

structure State extends Statics where
  tmpBuffer : Mem

def initFortune (outside beside : Mem) : State :=
  ⟨initStatics outside, memset beside 0 0 cookieMaxBufSize⟩

def writeFortune (s : State) (c : WriteCall) : WriteResult :=
  FortuneStore.writeFortune s.toStatics c

def writeStep (s : State) (c : WriteCall) : Option State :=
  some {s with toStatics := (writeFortune s c).state}

def WriteInside (s : State) (c : WriteCall) : Prop := Inside (writeFortune s c)

end Fortune

/- seqfile.c: the page is buffer. -/
namespace Seqfile

abbrev State := Statics

def initFortune (outside : Mem) : State := initStatics outside

def writeFortune (s : State) (c : WriteCall) : WriteResult := FortuneStore.writeFortune s c

def writeStep (s : State) (c : WriteCall) : Option State := some (writeFortune s c).state

def WriteInside (s : State) (c : WriteCall) : Prop := Inside (writeFortune s c)

end Seqfile

theorem fortuneWritesInside {s : Fortune.State} (within : Within s.toStatics)
    {calls : List WriteCall} {last : Fortune.State}
    (run : Run Fortune.writeStep (fun _ _ => True) s calls last) :
    Run Fortune.writeStep Fortune.WriteInside s calls last ↔
      Run Fortune.writeStep (fun s c => Fits s.toStatics c) s calls last := by
  refine runIff (fun s => Within s.toStatics) ?_ ?_ run within
  · intro s c u before _ taken
    exact insideIff before c
  · intro s c u before _ fits taken
    cases Option.some.inj taken
    exact insideWithin before fits

theorem seqfileWritesInside {s : Seqfile.State} (within : Within s)
    {calls : List WriteCall} {last : Seqfile.State}
    (run : Run Seqfile.writeStep (fun _ _ => True) s calls last) :
    Run Seqfile.writeStep Seqfile.WriteInside s calls last ↔
      Run Seqfile.writeStep Fits s calls last := by
  refine runIff Within ?_ ?_ run within
  · intro s c u before _ taken
    exact insideIff before c
  · intro s c u before _ fits taken
    cases Option.some.inj taken
    exact insideWithin before fits

theorem writesInsideExactly (outside beside : Mem) (calls : List WriteCall) :
    ((∃ last, Run Fortune.writeStep Fortune.WriteInside (Fortune.initFortune outside beside)
        calls last) ↔
      ∃ last, Run Fortune.writeStep (fun s c => Fits s.toStatics c)
        (Fortune.initFortune outside beside) calls last) ∧
    ((∃ last, Run Seqfile.writeStep Seqfile.WriteInside (Seqfile.initFortune outside)
        calls last) ↔
      ∃ last, Run Seqfile.writeStep Fits (Seqfile.initFortune outside) calls last) := by
  refine ⟨exists_congr fun last => ?_, exists_congr fun last => ?_⟩
  · exact ⟨fun run => (fortuneWritesInside (initWithin outside) (runFree run)).mp run,
      fun run => (fortuneWritesInside (initWithin outside) (runFree run)).mpr run⟩
  · exact ⟨fun run => (seqfileWritesInside (initWithin outside) (runFree run)).mp run,
      fun run => (seqfileWritesInside (initWithin outside) (runFree run)).mpr run⟩

def wholePage : WriteCall :=
  ⟨List.replicate 4096 97, by rw [List.length_replicate]; decide, .done⟩
theorem wholePageLen : wholePage.len = 4096 := List.length_replicate

def emptyWrite : WriteCall := ⟨[], Nat.two_pow_pos 64, .done⟩

/- The first write fills the page and its terminator goes to index 4096; an empty first
write puts its newline at index -1. -/
theorem firstWriteLeavesPage :
    ¬ (∀ outside beside calls, ∃ last, Run Fortune.writeStep Fortune.WriteInside
        (Fortune.initFortune outside beside) calls last) ∧
    ¬ (∀ outside calls, ∃ last, Run Seqfile.writeStep Seqfile.WriteInside
        (Seqfile.initFortune outside) calls last) ∧
    ¬ (∀ outside, ∃ last, Run Seqfile.writeStep Seqfile.WriteInside
        (Seqfile.initFortune outside) [emptyWrite] last) := by
  have unfit : ¬ Fits (initStatics (fun _ => 0)) wholePage := by
    intro fits
    have bound := (fits (by rw [wholePageLen]; decide +kernel)).2
    rw [wholePageLen] at bound
    exact absurd bound (by decide +kernel)
  have before : ¬ Fits (initStatics (fun _ => 0)) emptyWrite := by
    intro fits
    exact absurd (fits (by decide +kernel)).1 (by decide)
  refine ⟨fun all => ?_, fun all => ?_, fun all => ?_⟩
  · obtain ⟨last, run⟩ := all (fun _ => 0) (fun _ => 0) [wholePage]
    cases run with
    | cons inside taken tail => exact unfit ((insideIff (initWithin _) wholePage).mp inside)
  · obtain ⟨last, run⟩ := all (fun _ => 0) [wholePage]
    cases run with
    | cons inside taken tail => exact unfit ((insideIff (initWithin _) wholePage).mp inside)
  · obtain ⟨last, run⟩ := all (fun _ => 0)
    cases run with
    | cons inside taken tail => exact before ((insideIff (initWithin _) emptyWrite).mp inside)

end OsLabs.FortuneStore
