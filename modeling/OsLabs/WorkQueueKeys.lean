import OsLabs.CoalescedRuns
import OsLabs.WorkQueueModule

/-! Keystrokes of the loaded work-queue module, up to the end of destroy_workqueue. The handler
only queues; queue_functionF reads the port a moment after its run has begun, and interrupts may
fall before and after that read. Interrupts are on IRQ 1, those that come after the queue is gone
are left to OsLabs.WorkQueueModule. -/
namespace OsLabs.WorkQueueKeys
open Runs KeyLog CoalescedRuns
open WorkQueueModule (Job)

inductive Pc where
  | loaded
  | flushed
  | destroyed
  deriving DecidableEq, Repr

/- The last three fields and the numbers in slots and stages only keep the history: the codes of
all interrupts, those that were read, and how many had come at each read. -/
structure State where
  pc : Pc
  port : UInt8
  slot : Job → Slot
  stage : Job → Stage
  simbol : Option String
  pressed : List UInt8
  read : List UInt8
  looks : List (Nat × Nat)

def loaded : State := ⟨.loaded, 0, fun _ => .empty, fun _ => .idle, none, [], [], []⟩

def symbol (code : UInt8) : Option String := ascii[code.toNat]?

inductive Act where
  | interrupt (code : UInt8)
  | workStarts (job : Job)
  | inb
  | workEnds (job : Job)
  | flushWorkqueue
  | destroyWorkqueue
  deriving DecidableEq, Repr

def State.idle (s : State) : Prop := ∀ job, (s.slot job).pending = false ∧ s.stage job = .idle

instance (s : State) : Decidable s.idle :=
  decidable_of_iff (((s.slot .fWork).pending = false ∧ s.stage .fWork = .idle) ∧
      ((s.slot .sWork).pending = false ∧ s.stage .sWork = .idle))
    ⟨fun both job => by cases job; exacts [both.1, both.2], fun all => ⟨all .fWork, all .sWork⟩⟩

def handler (s : State) (code : UInt8) : State :=
  {s with port := code, slot := fun job => (s.slot job).request, pressed := s.pressed ++ [code]}

def State.begin (s : State) (job : Job) : State :=
  {s with
    slot := Function.update s.slot job ((s.slot job).start s.pressed.length)
    stage := Function.update s.stage job (.started s.pressed.length)}

def State.look (s : State) (requests : Nat) : State :=
  {s with
    stage := Function.update s.stage .fWork .looked
    simbol := (symbol s.port).or s.simbol
    read := s.read ++ [s.port]
    looks := s.looks ++ [(requests, s.pressed.length)]}

def State.end (s : State) (job : Job) : State := {s with stage := Function.update s.stage job .idle}

/- One work never runs twice at the same time; flush_workqueue and destroy_workqueue wait for
every work. -/
def step (s : State) : Act → Option State
  | .interrupt code => match s.pc with
    | .destroyed => none
    | _ => some (handler s code)
  | .workStarts job => match s.stage job with
    | .idle => if (s.slot job).pending then some (s.begin job) else none
    | _ => none
  | .inb => match s.stage .fWork with
    | .started requests => some (s.look requests)
    | _ => none
  | .workEnds job => match job, s.stage job with
    | .fWork, .looked => some (s.end .fWork)
    | .sWork, .started _ => some (s.end .sWork)
    | _, _ => none
  | .flushWorkqueue => match s.pc with
    | .loaded => if s.idle then some {s with pc := .flushed} else none
    | _ => none
  | .destroyWorkqueue => match s.pc with
    | .flushed => if s.idle then some {s with pc := .destroyed} else none
    | _ => none

structure Holds (s : State) : Prop where
  slots : ∀ job, Keeps (s.slot job) s.pressed.length
  serves : Serves (s.slot .fWork) (s.stage .fWork) s.looks s.pressed s.read
  port : s.pressed ≠ [] → s.pressed.getLast? = some s.port
  simbol : s.simbol = (s.read.filterMap symbol).getLast?
  idle : s.pc = .destroyed → s.idle

theorem loadedHolds : Holds loaded where
  slots := fun _ => emptyKeeps
  serves := emptyServes
  port := fun filled => absurd rfl filled
  simbol := rfl
  idle := fun gone => by cases gone

theorem interruptHolds {s : State} {code : UInt8} (holds : Holds s) (there : s.pc ≠ .destroyed) :
    Holds (handler s code) where
  slots := fun job => by
    rw [handler, List.length_append]
    exact requestKeeps (holds.slots job)
  serves := requestServes holds.serves code
  port := fun _ => List.getLast?_concat
  simbol := holds.simbol
  idle := fun gone => absurd gone there

theorem beginHolds {s : State} {job : Job} (holds : Holds s) (idle : s.stage job = .idle)
    (pending : (s.slot job).pending = true) : Holds (s.begin job) where
  slots := fun other => by
    by_cases mine : other = job
    · subst mine
      simpa only [State.begin, Function.update_self] using startKeeps (holds.slots other) pending
    · simpa only [State.begin, Function.update_of_ne mine] using holds.slots other
  serves := by
    have serves := holds.serves
    cases job with
    | fWork =>
      rw [idle] at serves
      simpa only [State.begin, Function.update_self] using beginServes serves pending
    | sWork => simpa only [State.begin, Function.update_of_ne (show Job.fWork ≠ .sWork by decide)] using serves
  port := holds.port
  simbol := holds.simbol
  idle := fun gone => by
    have clear := (holds.idle gone job).1
    rw [pending] at clear
    cases clear

theorem lookHolds {s : State} {requests : Nat} (holds : Holds s)
    (started : s.stage .fWork = .started requests) : Holds (s.look requests) := by
  have serves := holds.serves
  rw [started] at serves
  obtain ⟨code, newest, looked⟩ := lookServes serves
  have filled : s.pressed ≠ [] := by
    intro empty
    rw [empty] at newest
    cases newest
  have port : s.port = code := Option.some.inj ((holds.port filled).symm.trans newest)
  constructor
  · exact holds.slots
  · simpa only [State.look, Function.update_self, port] using looked
  · exact holds.port
  · simp only [State.look, List.filterMap_append, holds.simbol]
    cases found : symbol s.port with
    | none => simp [found]
    | some name => simp [found]
  · intro gone
    have clear := (holds.idle gone .fWork).2
    rw [started] at clear
    cases clear

theorem endHolds {s : State} {job : Job} (holds : Holds s)
    (ended : job = .fWork → s.stage .fWork = .looked) : Holds (s.end job) where
  slots := holds.slots
  serves := by
    have serves := holds.serves
    cases job with
    | fWork =>
      rw [ended rfl] at serves
      simpa only [State.end, Function.update_self] using endServes serves
    | sWork => simpa only [State.end, Function.update_of_ne (show Job.fWork ≠ .sWork by decide)] using serves
  port := holds.port
  simbol := holds.simbol
  idle := fun gone other => by
    obtain ⟨clear, still⟩ := holds.idle gone other
    refine ⟨clear, ?_⟩
    by_cases mine : other = job
    · subst mine
      exact Function.update_self ..
    · exact (Function.update_of_ne mine _ _).trans still

theorem stepHolds {s u : State} {a : Act} (holds : Holds s) (taken : step s a = some u) : Holds u := by
  cases a with
  | interrupt code =>
    simp only [step] at taken
    split at taken
    · cases taken
    · rename_i there
      cases taken
      exact interruptHolds holds there
  | workStarts job =>
    simp only [step] at taken
    split at taken
    · rename_i idle
      split at taken
      · rename_i pending
        cases taken
        exact beginHolds holds idle pending
      · cases taken
    · cases taken
  | inb =>
    simp only [step] at taken
    split at taken
    · rename_i requests started
      cases taken
      exact lookHolds holds started
    · cases taken
  | workEnds job =>
    simp only [step] at taken
    split at taken
    · rename_i looked
      cases taken
      exact endHolds holds fun _ => looked
    · cases taken
      exact endHolds holds fun other => by cases other
    · cases taken
  | flushWorkqueue =>
    simp only [step] at taken
    split at taken
    · split at taken
      · cases taken
        exact {holds with idle := fun gone => by cases gone}
      · cases taken
    · cases taken
  | destroyWorkqueue =>
    simp only [step] at taken
    split at taken
    · split at taken
      · rename_i waited
        cases taken
        exact {holds with idle := fun _ => waited}
      · cases taken
    · cases taken

structure Served (s : State) : Prop where
  runs : ∀ job, (s.slot job).starts.Pairwise (· < ·) ∧ (s.slot job).starts.length ≤ s.pressed.length
  read : ReadInOrder s.pressed s.read
  simbol : s.simbol = (s.read.filterMap symbol).getLast?

structure Drained (s : State) : Prop where
  runs : ∀ job, s.pressed ≠ [] → (s.slot job).starts.getLast? = some s.pressed.length
  last : s.read.getLast? = s.pressed.getLast?

theorem holdsDrained {s : State} (holds : Holds s) (idle : s.idle) : Drained s := by
  obtain ⟨clear, still⟩ := idle .fWork
  have serves := holds.serves
  rw [still] at serves
  exact ⟨fun job filled => (holds.slots job).served (idle job).1 (List.length_pos_iff.mpr filled),
    servesLast serves clear⟩

theorem worksServe {labels : List Act} {last : State}
    (run : Run step (fun _ _ => True) loaded labels last) :
    Served last ∧ (last.pc = .destroyed → Drained last) := by
  have holds := runInvariant Holds (fun _ _ _ before _ taken => stepHolds before taken) run loadedHolds
  have runs : ∀ job, (last.slot job).starts.Pairwise (· < ·) ∧
      (last.slot job).starts.length ≤ last.pressed.length :=
    fun job => ⟨(holds.slots job).increasing, startsShort (holds.slots job)⟩
  exact ⟨⟨runs, readsOrdered holds.serves, holds.simbol⟩, fun gone => holdsDrained holds (holds.idle gone)⟩

def typed : List Act :=
  [.interrupt 30, .workStarts .sWork, .interrupt 31, .workStarts .fWork, .interrupt 32, .inb,
   .workEnds .fWork, .workStarts .fWork, .inb, .workEnds .sWork, .workEnds .fWork, .workStarts .sWork,
   .workEnds .sWork, .flushWorkqueue, .destroyWorkqueue]

theorem typedServed : ∃ last, Run step (fun _ _ => True) loaded typed last ∧
    Served last ∧ Drained last ∧ last.read = [32, 32] := by
  obtain ⟨last, run, seen⟩ := checkedEnd step (fun _ _ => True) loaded typed (fun s => (s.read, s.pc))
    ([32, 32], .destroyed) (by decide +kernel)
  rw [Prod.mk.injEq] at seen
  obtain ⟨served, drained⟩ := worksServe run
  exact ⟨last, run, served, drained seen.2, seen.1⟩

end OsLabs.WorkQueueKeys
