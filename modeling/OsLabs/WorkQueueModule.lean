import OsLabs.Runs
import OsLabs.KeyLog

/-! Life cycle of the work-queue module: the kernel calls of work_queue_init and
work_queue_exit, the keyboard interrupt and the two work functions, in any order. A work
function has a start and an end. Queueing on a missing or destroyed queue is not stopped
here: what the kernel would do then is not modelled, only that it has happened. -/
namespace OsLabs.WorkQueueModule
open Runs KeyLog

inductive Pc where
  | requestIrq
  | createWorkqueue
  | freeIrqFailed        -- the free_irq after a failed create_workqueue
  | initFWork
  | initSWork
  | returns (ret : Int)
  | rejected (ret : Int)
  | loaded
  | destroyWorkqueue
  | freeIrq
  | unloaded
  deriving DecidableEq, Repr

inductive Queue where
  | absent
  | created
  | destroyed
  deriving DecidableEq, Repr

inductive Job where
  | fWork
  | sWork
  deriving DecidableEq, Repr

structure Work where
  initialised : Bool
  pending : Bool
  running : Bool
  deriving DecidableEq, Repr

def Work.idle (w : Work) : Bool := !w.pending && !w.running

structure State where
  pc : Pc
  handler : Bool           -- registered for IRQ
  workQueue : Queue
  works : Job → Work
  port : UInt8             -- what inb(0x60) reads
  simbol : Option String

def boot : State := ⟨.requestIrq, false, .absent, fun _ => ⟨false, false, false⟩, 0, none⟩

def State.idle (s : State) : Bool := (s.works .fWork).idle && (s.works .sWork).idle

def State.put (s : State) (job : Job) (w : Work) : State :=
  {s with works := Function.update s.works job w}

inductive Act where
  | requestIrq (ret : Int)
  | createWorkqueue (ok : Bool)
  | freeIrq
  | initWork
  | returns
  | flushWorkqueue
  | destroyWorkqueue
  | interrupt (code : UInt8)
  | workStarts (job : Job)
  | workEnds (job : Job)
  deriving DecidableEq, Repr

def enomem : Int := 12

/- A work that is already pending is not queued again. -/
def queueWork (w : Work) : Work := {w with pending := true}

/- queue_functionF reads the port before it sleeps; queue_functionS stores nothing. -/
def State.begin (s : State) : Job → State
  | .fWork => {s with simbol := (ascii[s.port.toNat]?).or s.simbol}
  | .sWork => s

/- flush_workqueue and destroy_workqueue wait for every work. -/
def step (s : State) : Act → Option State
  | .requestIrq ret => match s.pc with
    | .requestIrq => if ret < 0 then some {s with pc := .returns ret}
        else if ret = 0 then some {s with pc := .createWorkqueue, handler := true} else none
    | _ => none
  | .createWorkqueue ok => match s.pc with
    | .createWorkqueue => some (if ok then {s with pc := .initFWork, workQueue := .created}
        else {s with pc := .freeIrqFailed})
    | _ => none
  | .freeIrq => match s.pc with
    | .freeIrqFailed => some {s with pc := .returns (-enomem), handler := false}
    | .freeIrq => some {s with pc := .unloaded, handler := false}
    | _ => none
  | .initWork => match s.pc with
    | .initFWork => some {s.put .fWork ⟨true, false, (s.works .fWork).running⟩ with pc := .initSWork}
    | .initSWork => some {s.put .sWork ⟨true, false, (s.works .sWork).running⟩ with pc := .returns 0}
    | _ => none
  | .returns => match s.pc with
    | .returns ret => some {s with pc := if ret = 0 then .loaded else .rejected ret}
    | _ => none
  | .flushWorkqueue => match s.pc with
    | .loaded => if s.idle then some {s with pc := .destroyWorkqueue} else none
    | _ => none
  | .destroyWorkqueue => match s.pc with
    | .destroyWorkqueue => if s.idle then some {s with pc := .freeIrq, workQueue := .destroyed} else none
    | _ => none
  | .interrupt code =>
      let pressed := {s with port := code}
      some (if s.handler then {pressed with works := fun job => queueWork (s.works job)} else pressed)
  | .workStarts job =>
      let w := s.works job
      if w.pending && !w.running then some ((s.put job ⟨w.initialised, false, true⟩).begin job)
      else none
  | .workEnds job =>
      let w := s.works job
      if w.running then some (s.put job {w with running := false}) else none

def Pc.present : Pc → Prop
  | .rejected _ | .unloaded => False
  | _ => True

structure Clean (s : State) : Prop where
  queued : ∀ job, (s.works job).pending = true → s.workQueue = .created
  gone : ∀ job, (s.works job).running = true → s.pc.present

structure Safe (s : State) (a : Act) : Prop extends Clean s where
  invoked : ∀ code, a = .interrupt code → s.handler = true →
    s.workQueue = .created ∧ ∀ job, (s.works job).initialised = true

def Pc.window : Pc → Bool
  | .createWorkqueue | .freeIrqFailed | .initFWork | .initSWork | .freeIrq => true
  | _ => false

def Quiet (s : State) : Act → Prop
  | .interrupt _ => s.pc.window = false
  | _ => True

instance (s : State) : (a : Act) → Decidable (Quiet s a)
  | .interrupt _ => inferInstanceAs (Decidable (s.pc.window = false))
  | .requestIrq _ | .createWorkqueue _ | .freeIrq | .initWork | .returns | .flushWorkqueue
  | .destroyWorkqueue | .workStarts _ | .workEnds _ => isTrue trivial

def Pc.registered : Pc → Bool
  | .returns ret => decide (ret = 0)
  | .requestIrq | .rejected _ | .unloaded => false
  | _ => true

def Pc.queue : Pc → Queue
  | .requestIrq | .createWorkqueue | .freeIrqFailed | .rejected _ => .absent
  | .returns ret => if ret = 0 then .created else .absent
  | .initFWork | .initSWork | .loaded | .destroyWorkqueue => .created
  | .freeIrq | .unloaded => .destroyed

def Pc.made : Pc → Job → Bool
  | .requestIrq, _ | .createWorkqueue, _ | .freeIrqFailed, _ | .rejected _, _ | .initFWork, _ => false
  | .initSWork, job => decide (job = .fWork)
  | .returns ret, _ => decide (ret = 0)
  | .loaded, _ | .destroyWorkqueue, _ | .freeIrq, _ | .unloaded, _ => true

structure Sound (s : State) : Prop where
  handler : s.handler = s.pc.registered
  queue : s.workQueue = s.pc.queue
  made : ∀ job, (s.works job).initialised = s.pc.made job
  idle : s.workQueue ≠ .created → ∀ job, (s.works job).pending = false ∧ (s.works job).running = false

theorem bootSound : Sound boot := ⟨rfl, rfl, fun _ => rfl, fun _ _ => ⟨rfl, rfl⟩⟩

theorem soundClean {s : State} (sound : Sound s) : Clean s := by
  constructor
  · intro job pending
    by_contra missing
    rw [(sound.idle missing job).1] at pending
    cases pending
  · intro job running
    by_contra left
    have missing : s.workQueue ≠ .created := by
      rw [sound.queue]
      cases pc : s.pc <;> simp_all [Pc.present, Pc.queue]
    rw [(sound.idle missing job).2] at running
    cases running

theorem safeIffQuiet {s : State} (sound : Sound s) (a : Act) : Safe s a ↔ Quiet s a := by
  constructor
  · intro safe
    cases a with
    | interrupt code =>
      have invoked := safe.invoked code rfl
      rw [sound.handler, sound.queue] at invoked
      simp only [sound.made] at invoked
      cases pc : s.pc with
      | createWorkqueue | freeIrqFailed | freeIrq =>
        rw [pc] at invoked
        cases (invoked rfl).1
      | initFWork =>
        rw [pc] at invoked
        cases (invoked rfl).2 .fWork
      | initSWork =>
        rw [pc] at invoked
        cases (invoked rfl).2 .sWork
      | _ => simp only [Quiet, pc, Pc.window]
    | _ => trivial
  · intro quiet
    refine ⟨soundClean sound, ?_⟩
    rintro code rfl handler
    have outside : s.pc.window = false := quiet
    rw [sound.handler] at handler
    rw [sound.queue]
    simp only [sound.made]
    cases pc : s.pc <;> simp_all [Pc.window, Pc.registered, Pc.queue, Pc.made]

theorem idleWorks {s : State} (idle : s.idle = true) (job : Job) :
    (s.works job).pending = false ∧ (s.works job).running = false := by
  simp only [State.idle, Work.idle, Bool.and_eq_true, Bool.not_eq_true'] at idle
  cases job with
  | fWork => exact idle.1
  | sWork => exact idle.2

theorem requestIrqSound {s t : State} {ret : Int} (sound : Sound s)
    (taken : step s (.requestIrq ret) = some t) : Sound t := by
  obtain ⟨handler, queue, made, idle⟩ := sound
  simp only [step] at taken
  split at taken
  · rename_i here
    rw [here] at handler queue made
    split at taken
    · rename_i failed
      have nonzero : ret ≠ 0 := by omega
      cases taken
      exact ⟨by simp [handler, Pc.registered, nonzero], by simp [queue, Pc.queue, nonzero],
        by simp [made, Pc.made, nonzero], idle⟩
    · split at taken
      · cases taken
        exact ⟨rfl, queue, made, idle⟩
      · cases taken
  · cases taken

theorem createWorkqueueSound {s t : State} {ok : Bool} (sound : Sound s)
    (taken : step s (.createWorkqueue ok) = some t) : Sound t := by
  obtain ⟨handler, queue, made, idle⟩ := sound
  simp only [step] at taken
  split at taken
  · rename_i here
    rw [here] at handler queue made
    cases ok <;> simp only [Bool.false_eq_true, if_false, if_true] at taken
    · cases taken
      exact ⟨handler, queue, made, idle⟩
    · cases taken
      exact ⟨handler, rfl, made, fun absent => absurd rfl absent⟩
  · cases taken

theorem freeIrqSound {s t : State} (sound : Sound s) (taken : step s .freeIrq = some t) :
    Sound t := by
  obtain ⟨-, queue, made, idle⟩ := sound
  simp only [step] at taken
  split at taken
  · rename_i here
    rw [here] at queue made
    cases taken
    exact ⟨rfl, queue, made, idle⟩
  · rename_i here
    rw [here] at queue made
    cases taken
    exact ⟨rfl, queue, made, idle⟩
  · cases taken

theorem returnsSound {s t : State} (sound : Sound s) (taken : step s .returns = some t) :
    Sound t := by
  obtain ⟨handler, queue, made, idle⟩ := sound
  simp only [step] at taken
  split at taken
  · rename_i ret here
    rw [here] at handler queue made
    cases taken
    by_cases zero : ret = 0
    · simp only [zero, if_true]
      exact ⟨by simp [handler, Pc.registered, zero], by simp [queue, Pc.queue, zero],
        by simp [made, Pc.made, zero], idle⟩
    · simp only [zero, if_false]
      exact ⟨by simp [handler, Pc.registered, zero], by simp [queue, Pc.queue, zero],
        by simp [made, Pc.made, zero], idle⟩
  · cases taken

theorem flushWorkqueueSound {s t : State} (sound : Sound s)
    (taken : step s .flushWorkqueue = some t) : Sound t := by
  obtain ⟨handler, queue, made, idle⟩ := sound
  simp only [step] at taken
  split at taken
  · rename_i here
    rw [here] at handler queue made
    split at taken
    · cases taken
      exact ⟨handler, queue, made, idle⟩
    · cases taken
  · cases taken

theorem destroyWorkqueueSound {s t : State} (sound : Sound s)
    (taken : step s .destroyWorkqueue = some t) : Sound t := by
  obtain ⟨handler, queue, made, idle⟩ := sound
  simp only [step] at taken
  split at taken
  · rename_i here
    rw [here] at handler made
    split at taken
    · rename_i waited
      cases taken
      exact ⟨handler, rfl, made, fun _ => idleWorks waited⟩
    · cases taken
  · cases taken

theorem initWorkSound {s t : State} (sound : Sound s) (taken : step s .initWork = some t) :
    Sound t := by
  obtain ⟨handler, queue, made, idle⟩ := sound
  simp only [step] at taken
  split at taken
  · rename_i here
    rw [here] at handler queue made
    cases taken
    refine ⟨handler, queue, fun job => ?_, fun absent => absurd queue absent⟩
    cases job with
    | fWork => rfl
    | sWork => exact made .sWork
  · rename_i here
    rw [here] at handler queue made
    cases taken
    refine ⟨handler, queue, fun job => ?_, fun absent => absurd queue absent⟩
    cases job with
    | fWork => exact made .fWork
    | sWork => rfl
  · cases taken

theorem interruptSound {s t : State} {code : UInt8} (sound : Sound s)
    (quiet : Quiet s (.interrupt code)) (taken : step s (.interrupt code) = some t) : Sound t := by
  have safe := (safeIffQuiet sound (.interrupt code)).mpr quiet
  obtain ⟨handler, queue, made, idle⟩ := sound
  simp only [step] at taken
  split at taken
  · rename_i registered
    cases taken
    have created := (safe.invoked code rfl registered).1
    exact ⟨handler, queue, made, fun absent => absurd created absent⟩
  · cases taken
    exact ⟨handler, queue, made, idle⟩

theorem putSound {s : State} {job : Job} {w : Work} (sound : Sound s)
    (same : w.initialised = (s.works job).initialised)
    (quiet : s.workQueue ≠ .created → w.pending = false ∧ w.running = false) :
    Sound (s.put job w) := by
  refine ⟨sound.handler, sound.queue, fun other => ?_, fun absent other => ?_⟩
  · by_cases mine : other = job
    · subst mine
      simpa only [State.put, Function.update_self, same] using sound.made other
    · simpa only [State.put, Function.update_of_ne mine] using sound.made other
  · by_cases mine : other = job
    · subst mine
      simpa only [State.put, Function.update_self] using quiet absent
    · simpa only [State.put, Function.update_of_ne mine] using sound.idle absent other

theorem beginSound {s : State} {job : Job} (sound : Sound s) : Sound (s.begin job) := by
  cases job with
  | fWork => exact ⟨sound.handler, sound.queue, sound.made, sound.idle⟩
  | sWork => exact sound

theorem stepSound {s t : State} {a : Act} (sound : Sound s) (quiet : Quiet s a)
    (taken : step s a = some t) : Sound t := by
  cases a with
  | initWork => exact initWorkSound sound taken
  | interrupt code => exact interruptSound sound quiet taken
  | workStarts job =>
    simp only [step] at taken
    split at taken
    · rename_i starts
      cases taken
      have pending : (s.works job).pending = true := (Bool.and_eq_true_iff.mp starts).1
      refine beginSound (putSound sound rfl fun absent => ?_)
      rw [(sound.idle absent job).1] at pending
      cases pending
    · cases taken
  | workEnds job =>
    simp only [step] at taken
    split at taken
    · cases taken
      exact putSound sound rfl fun absent => ⟨(sound.idle absent job).1, rfl⟩
    · cases taken
  | requestIrq ret => exact requestIrqSound sound taken
  | createWorkqueue ok => exact createWorkqueueSound sound taken
  | freeIrq => exact freeIrqSound sound taken
  | returns => exact returnsSound sound taken
  | flushWorkqueue => exact flushWorkqueueSound sound taken
  | destroyWorkqueue => exact destroyWorkqueueSound sound taken

theorem safeExactly {labels : List Act} {last : State}
    (run : Run step (fun _ _ => True) boot labels last) :
    Run step Safe boot labels last ∧ Clean last ↔ Run step Quiet boot labels last := by
  have same : Run step Safe boot labels last ↔ Run step Quiet boot labels last :=
    runIff Sound (fun _ a _ sound _ _ => safeIffQuiet sound a)
      (fun _ _ _ sound _ quiet taken => stepSound sound quiet taken) run bootSound
  constructor
  · intro safe
    exact same.mp safe.1
  · intro quiet
    refine ⟨same.mpr quiet, soundClean ?_⟩
    exact runInvariant Sound (fun _ _ _ sound quiet taken => stepSound sound quiet taken)
      quiet bootSound

def pressed : List Act :=
  [.requestIrq 0, .createWorkqueue true, .initWork, .initWork, .returns, .interrupt 30,
   .workStarts .fWork, .interrupt 48, .workStarts .sWork, .workEnds .fWork, .workStarts .fWork,
   .workEnds .sWork, .workEnds .fWork, .flushWorkqueue, .destroyWorkqueue, .freeIrq, .interrupt 1]

theorem worksDoneSafe : ∃ last, Run step Safe boot pressed last ∧ Clean last := by
  obtain ⟨last, run⟩ := checkedRun step Quiet boot pressed (by decide +kernel)
  exact ⟨last, (safeExactly (runFree run)).mpr run⟩

theorem queueMissing : ¬ ∀ labels last, Run step (fun _ _ => True) boot labels last →
    Run step Safe boot labels last ∧ Clean last := by
  intro always
  obtain ⟨last, run⟩ := checkedRun step (fun _ _ => True) boot [.requestIrq 0, .interrupt 30]
    (by decide +kernel)
  obtain ⟨u, before, safe⟩ := runLast [Act.requestIrq 0] (always _ last run).1
  have found : (exec step boot [.requestIrq 0]).map (fun s => (s.handler, s.workQueue)) =
      some (true, .absent) := by decide +kernel
  rw [before, Option.map_some, Option.some.injEq, Prod.mk.injEq] at found
  have created := (safe.invoked 30 rfl found.1).1
  rw [found.2] at created
  cases created

end OsLabs.WorkQueueModule
