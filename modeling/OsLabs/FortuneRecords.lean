import OsLabs.FortuneFence
import OsLabs.SeqfileShow

/-! The bytes of the stored fortunes under later calls, in fortune.c and in seqfile.c. A
record is what a write left from its writeInd on, terminator included, when it returned. -/
namespace OsLabs.FortuneStore
open CInteger CMemory Runs

structure Record where
  start : Int
  bytes : List Byte
  deriving DecidableEq, Repr

def recordsAfter (s : Statics) (c : WriteCall) (records : List Record) : List Record :=
  if 0 ≤ (writeFortune s c).ret then
    records ++ [⟨s.writeInd, readMem (writeFortune s c).state.buffer s.writeInd (c.len + 1)⟩]
  else records

def Kept (s : Statics) (records : List Record) : Prop :=
  ∀ r ∈ records, Holds s.buffer r.start r.bytes

def Damaged (s : Statics) (records : List Record) : Prop :=
  ∃ r ∈ records, r.start + r.bytes.length < s.writeInd ∧ ¬ Holds s.buffer r.start r.bytes

structure Recorded (s : Statics) (records : List Record) : Prop where
  within : Within s
  kept : Kept s records
  placed : ∀ r ∈ records, 0 ≤ r.start ∧ r.start + r.bytes.length ≤ s.writeInd
  last : s.writeInd = 0 ∨ ∃ r ∈ records, ∃ text, r.bytes = text ++ [0] ∧
    r.start + r.bytes.length = s.writeInd

def Filling (s : Statics) (c : WriteCall) : Prop := c.len = 0 → s.writeInd = 0

def Staying (s : Statics) (c : WriteCall) : Prop :=
  (writeFortune s c).state.writeInd ≤ cookieMaxBufSize

instance (s : Statics) (c : WriteCall) : Decidable (Filling s c) := by
  unfold Filling; infer_instance

instance (s : Statics) (c : WriteCall) : Decidable (Staying s c) := by
  unfold Staying; infer_instance

theorem initRecorded (outside : Mem) : Recorded (initStatics outside) [] :=
  ⟨initWithin outside, by simp [Kept], by simp, .inl rfl⟩

theorem recordsGrow {s : Statics} {c : WriteCall} {records : List Record} {r : Record}
    (mem : r ∈ records) : r ∈ recordsAfter s c records := by
  unfold recordsAfter
  split
  · exact List.mem_append_left _ mem
  · exact mem

theorem writeRecorded {s : Statics} {c : WriteCall} {records : List Record}
    (recorded : Recorded s records) (staying : Staying s c) (filling : Filling s c) :
    Recorded (writeFortune s c).state (recordsAfter s c records) := by
  have within := recorded.within
  have unwrapped := withinUnwrapped within c
  have grows := writeGrows within.1 unwrapped
  have kept : Kept (writeFortune s c).state records := by
    intro r mem
    obtain ⟨low, high⟩ := recorded.placed r mem
    refine holdsFrame (recorded.kept r mem) (fun j above below => writeFrame within.1 unwrapped ?_)
    by_cases filled : c.user = []
    · have empty : s.writeInd = 0 := filling (List.length_eq_zero_iff.mpr filled)
      omega
    · exact .inr ⟨filled, by omega⟩
  have placed : ∀ r ∈ records, 0 ≤ r.start ∧
      r.start + r.bytes.length ≤ (writeFortune s c).state.writeInd := by
    intro r mem
    obtain ⟨low, high⟩ := recorded.placed r mem
    exact ⟨low, Int.le_trans high grows⟩
  have after : Within (writeFortune s c).state := ⟨Int.le_trans within.1 grows, staying⟩
  unfold recordsAfter
  cases writeCases within.1 unwrapped with
  | refused tooLong same =>
    rw [same] at kept placed ⊢
    simpa [enospc] using recorded
  | faulted copied same =>
    rw [same] at kept placed after ⊢
    simp only [efault, Int.reduceNeg, Int.reduceLE, if_false]
    exact ⟨after, kept, placed, recorded.last⟩
  | accepted room done same =>
    rw [same] at kept placed after ⊢
    rw [if_pos (Int.natCast_nonneg _)]
    have length := readMemLength (putAll s.buffer (acceptedStores s.writeInd c.user)) s.writeInd (c.len + 1)
    refine ⟨after, ?_, ?_, .inr ⟨_, List.mem_concat_self, ?_⟩⟩
    · intro r mem
      rcases List.mem_append.mp mem with old | new
      · exact kept r old
      · rw [List.mem_singleton.mp new]
        exact holdsRead _ _ _
    · intro r mem
      rcases List.mem_append.mp mem with old | new
      · exact placed r old
      · rw [List.mem_singleton.mp new]
        simp only [length]
        exact ⟨within.1, by omega⟩
    · have zero : putAll s.buffer (acceptedStores s.writeInd c.user) (s.writeInd + c.len) = 0 :=
        acceptedEnds s.buffer s.writeInd c.user
      exact ⟨readMem (putAll s.buffer (acceptedStores s.writeInd c.user)) s.writeInd c.len,
        by simp only [readMemSucc, zero], by simp only [length]; omega⟩

theorem blankDamages {s : Statics} {c : WriteCall} {records : List Record}
    (recorded : Recorded s records) (blank : ¬ Filling s c) :
    Damaged (writeFortune s c).state (recordsAfter s c records) := by
  have within := recorded.within
  have empty : c.len = 0 := by
    by_contra some
    exact blank (fun zero => absurd zero some)
  have written : s.writeInd ≠ 0 := fun zero => blank (fun _ => zero)
  obtain ⟨r, mem, text, bytes, ends⟩ := recorded.last.resolve_left written
  have user : c.user = [] := List.length_eq_zero_iff.mp empty
  have nul : (putAll s.buffer (acceptedStores s.writeInd c.user)) (s.writeInd - 1) = newline := by
    have apart : s.writeInd - 1 ≠ s.writeInd := by omega
    simp [user, acceptedStores, copyTo, putAll, put, apart]
  cases writeCases within.1 (withinUnwrapped within c) with
  | refused tooLong same =>
    rw [empty] at tooLong
    exact absurd tooLong (Nat.not_lt_zero _)
  | faulted copied same => exact absurd empty (Nat.ne_of_gt (Nat.lt_of_le_of_lt (Nat.zero_le _) copied.isLt))
  | accepted room done same =>
    refine ⟨r, recordsGrow mem, by rw [same]; simp only; omega, ?_⟩
    rw [same, bytes, holdsAppend]
    rintro ⟨_, zero, _⟩
    have place : r.start + text.length = s.writeInd - 1 := by
      rw [bytes, List.length_append, List.length_singleton] at ends
      omega
    rw [place] at zero
    simp only [nul] at zero
    exact absurd zero (by decide)

theorem damageStays {s : Statics} {c : WriteCall} {records : List Record}
    (low : 0 ≤ s.writeInd) (unwrapped : Unwrapped s c) (damaged : Damaged s records) :
    Damaged (writeFortune s c).state (recordsAfter s c records) := by
  obtain ⟨r, mem, below, changed⟩ := damaged
  have grows := writeGrows low unwrapped
  refine ⟨r, recordsGrow mem, Int.lt_of_lt_of_le below grows, fun held => changed ?_⟩
  exact holdsFrame held (fun j _ high => (writeFrame low unwrapped (.inl (by omega))).symm)

theorem recordedMoved {s t : Statics} {records : List Record} (recorded : Recorded s records)
    (buffer : t.buffer = s.buffer) (used : t.writeInd = s.writeInd) : Recorded t records := by
  refine ⟨?_, ?_, ?_, ?_⟩
  · simpa only [Within, used] using recorded.within
  · simpa only [Kept, buffer] using recorded.kept
  · simpa only [used] using recorded.placed
  · simpa only [used] using recorded.last

section Modules
variable {σ α : Type} {step : σ → α → Option σ} (store : σ → Statics) (records : σ → List Record)
  (written : α → Option WriteCall)

def InPage (s : σ) (a : α) : Prop := ∀ c ∈ written a, Staying (store s) c

def NoBlank (s : σ) (a : α) : Prop := ∀ c ∈ written a, Filling (store s) c

instance (s : σ) (a : α) : Decidable (InPage store written s a) := by
  unfold InPage; infer_instance

instance (s : σ) (a : α) : Decidable (NoBlank store written s a) := by
  unfold NoBlank; infer_instance

theorem recordsSticky
    (writes : ∀ s a u c, written a = some c → step s a = some u →
      store u = (writeFortune (store s) c).state ∧
      records u = recordsAfter (store s) c (records s))
    (others : ∀ s a u, written a = none → step s a = some u →
      (store u).buffer = (store s).buffer ∧ (store u).writeInd = (store s).writeInd ∧
      records u = records s)
    {s t : σ} {labels : List α} (run : Run step (InPage store written) s labels t)
    (start : Recorded (store s) (records s)) :
    Kept (store t) (records t) ↔ Run step (NoBlank store written) s labels t := by
  have outcome : Run step (NoBlank store written) s labels t ∧ Recorded (store t) (records t) ∨
      ¬ Run step (NoBlank store written) s labels t ∧
        (Within (store t) ∧ Damaged (store t) (records t)) := by
    refine runOrDamage (fun s => Recorded (store s) (records s))
      (fun s => Within (store s) ∧ Damaged (store s) (records s)) ?_ ?_ run start
    · intro s a u recorded legal taken
      cases call : written a with
      | none =>
        obtain ⟨buffer, used, same⟩ := others s a u call taken
        exact .inl ⟨by simp [NoBlank, call], same ▸ recordedMoved recorded buffer used⟩
      | some c =>
        obtain ⟨state, same⟩ := writes s a u c call taken
        have staying : Staying (store s) c := legal c call
        have here : NoBlank store written s a ↔ Filling (store s) c := by simp [NoBlank, call]
        rw [state, same, here]
        by_cases filling : Filling (store s) c
        · exact .inl ⟨filling, writeRecorded recorded staying filling⟩
        · have low := writeGrows recorded.within.1 (withinUnwrapped recorded.within c)
          exact .inr ⟨filling, ⟨Int.le_trans recorded.within.1 low, staying⟩,
            blankDamages recorded filling⟩
    · rintro s a u ⟨within, damaged⟩ legal taken
      cases call : written a with
      | none =>
        obtain ⟨buffer, used, same⟩ := others s a u call taken
        simpa only [Within, Damaged, buffer, used, same] using And.intro within damaged
      | some c =>
        obtain ⟨state, same⟩ := writes s a u c call taken
        have unwrapped := withinUnwrapped within c
        rw [state, same]
        exact ⟨⟨Int.le_trans within.1 (writeGrows within.1 unwrapped), legal c call⟩,
          damageStays within.1 unwrapped damaged⟩
  rcases outcome with ⟨whole, recorded⟩ | ⟨broken, _, r, mem, _, changed⟩
  · exact ⟨fun _ => whole, fun _ => recorded.kept⟩
  · exact ⟨fun kept => absurd (kept r mem) changed, fun whole => absurd whole broken⟩

end Modules

namespace Fortune

structure Ledger where
  store : State
  records : List Record

def Ledger.start (outside beside : Mem) : Ledger := ⟨initFortune outside beside, []⟩

theorem startRecorded (outside beside : Mem) :
    Recorded (Ledger.start outside beside).store.toStatics (Ledger.start outside beside).records :=
  initRecorded outside

/- A read without a result leaves the module as it is. -/
def ledgerStep (l : Ledger) : Op → Option Ledger
  | .write c => some ⟨{l.store with toStatics := (writeFortune l.store c).state},
      recordsAfter l.store.toStatics c l.records⟩
  | .read c => some ⟨((readFortune l.store c).map ReadResult.state).getD l.store, l.records⟩

def Op.written : Op → Option WriteCall
  | .write c => some c
  | .read _ => none

theorem ledgerWrites (l u : Ledger) (op : Op) (c : WriteCall) (call : op.written = some c)
    (taken : ledgerStep l op = some u) :
    u.store.toStatics = (FortuneStore.writeFortune l.store.toStatics c).state ∧
      u.records = recordsAfter l.store.toStatics c l.records := by
  cases op with
  | write d =>
    cases Option.some.inj call
    rw [← Option.some.inj taken]
    exact ⟨rfl, rfl⟩
  | read d => cases call

theorem readMoves (l : Ledger) (c : ReadCall) :
    (((readFortune l.store c).map ReadResult.state).getD l.store).buffer = l.store.buffer ∧
    (((readFortune l.store c).map ReadResult.state).getD l.store).writeInd = l.store.writeInd := by
  cases result : readFortune l.store c with
  | none => simp only [Option.map_none, Option.getD_none, and_self]
  | some r => simpa only [Option.map_some, Option.getD_some] using readKeeps result

theorem ledgerOthers (l u : Ledger) (op : Op) (call : op.written = none)
    (taken : ledgerStep l op = some u) :
    u.store.buffer = l.store.buffer ∧ u.store.writeInd = l.store.writeInd ∧ u.records = l.records := by
  cases op with
  | write d => cases call
  | read d =>
    rw [← Option.some.inj taken]
    exact ⟨(readMoves l d).1, (readMoves l d).2, rfl⟩

end Fortune

namespace Seqfile

structure Ledger where
  store : State
  records : List Record

def Ledger.start (outside : Mem) : Ledger := ⟨initFortune outside, []⟩

theorem startRecorded (outside : Mem) :
    Recorded (Ledger.start outside).store (Ledger.start outside).records :=
  initRecorded outside

def ledgerStep (l : Ledger) : Op → Option Ledger
  | .write c => some ⟨(writeFortune l.store c).state, recordsAfter l.store c l.records⟩
  | .showFortune => some ⟨((showFortune l.store).map ShowResult.state).getD l.store, l.records⟩

def Op.written : Op → Option WriteCall
  | .write c => some c
  | .showFortune => none

theorem ledgerWrites (l u : Ledger) (op : Op) (c : WriteCall) (call : op.written = some c)
    (taken : ledgerStep l op = some u) :
    u.store = (FortuneStore.writeFortune l.store c).state ∧
      u.records = recordsAfter l.store c l.records := by
  cases op with
  | write d =>
    cases Option.some.inj call
    rw [← Option.some.inj taken]
    exact ⟨rfl, rfl⟩
  | showFortune => cases call

theorem showMoves (l : Ledger) :
    (((showFortune l.store).map ShowResult.state).getD l.store).buffer = l.store.buffer ∧
    (((showFortune l.store).map ShowResult.state).getD l.store).writeInd = l.store.writeInd := by
  cases result : showFortune l.store with
  | none => simp only [Option.map_none, Option.getD_none, and_self]
  | some r =>
    obtain ⟨text, _, same⟩ := Option.map_eq_some_iff.mp result
    simp only [Option.map_some, Option.getD_some, ← same, and_self]

theorem ledgerOthers (l u : Ledger) (op : Op) (call : op.written = none)
    (taken : ledgerStep l op = some u) :
    u.store.buffer = l.store.buffer ∧ u.store.writeInd = l.store.writeInd ∧ u.records = l.records := by
  cases op with
  | write d => cases call
  | showFortune =>
    rw [← Option.some.inj taken]
    exact ⟨(showMoves l).1, (showMoves l).2, rfl⟩

end Seqfile

theorem storeKeptExactly (outside beside : Mem) :
    (∀ ops last, Run Fortune.ledgerStep
        (InPage (fun l => l.store.toStatics) Fortune.Op.written)
        (Fortune.Ledger.start outside beside) ops last →
      (Kept last.store.toStatics last.records ↔
        Run Fortune.ledgerStep (NoBlank (fun l => l.store.toStatics) Fortune.Op.written)
          (Fortune.Ledger.start outside beside) ops last)) ∧
    (∀ ops last, Run Seqfile.ledgerStep (InPage Seqfile.Ledger.store Seqfile.Op.written)
        (Seqfile.Ledger.start outside) ops last →
      (Kept last.store last.records ↔
        Run Seqfile.ledgerStep (NoBlank Seqfile.Ledger.store Seqfile.Op.written)
          (Seqfile.Ledger.start outside) ops last)) := by
  constructor
  · intro ops last run
    exact @recordsSticky _ _ Fortune.ledgerStep (fun l => l.store.toStatics)
      Fortune.Ledger.records Fortune.Op.written
      (fun l op u c => Fortune.ledgerWrites l u op c) (fun l op u => Fortune.ledgerOthers l u op)
      (Fortune.Ledger.start outside beside) last ops run (Fortune.startRecorded outside beside)
  · intro ops last run
    exact @recordsSticky _ _ Seqfile.ledgerStep Seqfile.Ledger.store
      Seqfile.Ledger.records Seqfile.Op.written
      (fun l op u c => Seqfile.ledgerWrites l u op c) (fun l op u => Seqfile.ledgerOthers l u op)
      (Seqfile.Ledger.start outside) last ops run (Seqfile.startRecorded outside)

theorem filledWritesKeep :
    (∃ last, Run Fortune.ledgerStep (InPage (fun l => l.store.toStatics) Fortune.Op.written)
        (Fortune.Ledger.start (fun _ => 0) (fun _ => 0)) [.write (line 97), .write (line 97)] last ∧
      Kept last.store.toStatics last.records) ∧
    (∃ last, Run Seqfile.ledgerStep (InPage Seqfile.Ledger.store Seqfile.Op.written)
        (Seqfile.Ledger.start (fun _ => 0)) [.write (line 97), .showFortune, .write (line 97)] last ∧
      Kept last.store last.records) := by
  have exactly := storeKeptExactly (fun _ => 0) (fun _ => 0)
  constructor
  · obtain ⟨last, run⟩ := checkedRun Fortune.ledgerStep
      (fun l op => InPage (fun l => l.store.toStatics) Fortune.Op.written l op ∧
        NoBlank (fun l => l.store.toStatics) Fortune.Op.written l op)
      (Fortune.Ledger.start (fun _ => 0) (fun _ => 0)) [.write (line 97), .write (line 97)]
      (by decide +kernel)
    have legal := runWeaken (fun _ _ both => both.1) run
    exact ⟨last, legal, (exactly.1 _ last legal).mpr (runWeaken (fun _ _ both => both.2) run)⟩
  · obtain ⟨last, run⟩ := checkedRun Seqfile.ledgerStep
      (fun l op => InPage Seqfile.Ledger.store Seqfile.Op.written l op ∧
        NoBlank Seqfile.Ledger.store Seqfile.Op.written l op)
      (Seqfile.Ledger.start (fun _ => 0)) [.write (line 97), .showFortune, .write (line 97)]
      (by decide +kernel)
    have legal := runWeaken (fun _ _ both => both.1) run
    exact ⟨last, legal, (exactly.2 _ last legal).mpr (runWeaken (fun _ _ both => both.2) run)⟩

theorem notKept {s : Statics} {records : List Record}
    (first : ⟨0, [97, newline, 0]⟩ ∈ records) (third : s.buffer 2 = newline) : ¬ Kept s records := by
  intro kept
  have zero : s.buffer 2 = 0 := (kept _ first).2.2.1
  exact absurd (third.symm.trans zero) (by decide)

theorem blankWriteJoins :
    ¬ (∀ outside beside ops last, Run Fortune.ledgerStep
        (InPage (fun l => l.store.toStatics) Fortune.Op.written)
        (Fortune.Ledger.start outside beside) ops last → Kept last.store.toStatics last.records) ∧
    ¬ (∀ outside ops last, Run Seqfile.ledgerStep (InPage Seqfile.Ledger.store Seqfile.Op.written)
        (Seqfile.Ledger.start outside) ops last → Kept last.store last.records) := by
  constructor
  · intro all
    obtain ⟨last, run, state⟩ := checkedEnd Fortune.ledgerStep
      (InPage (fun l => l.store.toStatics) Fortune.Op.written)
      (Fortune.Ledger.start (fun _ => 0) (fun _ => 0)) [.write (line 97), .write emptyWrite]
      (fun l => (l.records, l.store.buffer 2)) ([⟨0, [97, newline, 0]⟩, ⟨3, [0]⟩], newline)
      (by decide +kernel)
    rw [Prod.mk.injEq] at state
    exact notKept (by rw [state.1]; simp) state.2 (all _ _ _ last run)
  · intro all
    obtain ⟨last, run, state⟩ := checkedEnd Seqfile.ledgerStep
      (InPage Seqfile.Ledger.store Seqfile.Op.written)
      (Seqfile.Ledger.start (fun _ => 0)) [.write (line 97), .write emptyWrite]
      (fun l => (l.records, l.store.buffer 2)) ([⟨0, [97, newline, 0]⟩, ⟨3, [0]⟩], newline)
      (by decide +kernel)
    rw [Prod.mk.injEq] at state
    exact notKept (by rw [state.1]; simp) state.2 (all _ _ last run)

end OsLabs.FortuneStore
