import OsLabs.Runs

/-! Life cycle of the tasklet module: every kernel call of my_tasklet_init and
my_tasklet_exit is one step, between which keyboard interrupts and runs of the tasklet
fall. An interrupt is one step; a tasklet run has a start and an end, so that module
steps of another processor may fall inside it. The keys themselves are in KeyListing and
TaskletKeys. -/
namespace OsLabs.TaskletModule
open Runs

inductive Pc where
  | kmalloc
  | taskletInit
  | requestIrq
  | procCreate (ret : Int)
  | returns (ret : Int)
  | rejected (ret : Int)
  | loaded
  | taskletKill
  | kfree
  | freeIrq
  | removeProcEntry
  | unloaded
  deriving DecidableEq, Repr

inductive Tasklet where
  | absent
  | raw
  | ready
  | freed
  deriving DecidableEq, Repr

structure State where
  pc : Pc
  myTasklet : Tasklet
  myHandler : Bool       -- registered for IRQ
  procFileEntry : Bool
  scheduled : Bool       -- TASKLET_STATE_SCHED
  running : Bool

def boot : State := ⟨.kmalloc, .absent, false, false, false, false⟩

inductive Act where
  | kmalloc (ok : Bool)
  | taskletInit
  | requestIrq (ret : Int)
  | procCreate (ok : Bool)
  | returns
  | synchronizeIrq
  | taskletKill
  | kfree
  | freeIrq
  | removeProcEntry
  | interrupt
  | taskletStarts
  | taskletEnds
  deriving DecidableEq, Repr

def enomem : Int := 12

/- An error code of request_irq is negative and is returned only after proc_create.
tasklet_kill waits until the tasklet is neither scheduled nor running. -/
def step (s : State) : Act → Option State
  | .kmalloc ok => match s.pc with
    | .kmalloc => some (if ok then {s with pc := .taskletInit, myTasklet := .raw}
        else {s with pc := .returns (-1)})
    | _ => none
  | .taskletInit => match s.pc with
    | .taskletInit => some {s with pc := .requestIrq, myTasklet := .ready}
    | _ => none
  | .requestIrq ret => match s.pc with
    | .requestIrq =>
        if ret ≤ 0 then some {s with pc := .procCreate ret, myHandler := decide (ret = 0)} else none
    | _ => none
  | .procCreate ok => match s.pc with
    | .procCreate ret => some (if ok then {s with pc := .returns ret, procFileEntry := true}
        else {s with pc := .returns (-enomem)})
    | _ => none
  | .returns => match s.pc with
    | .returns ret => some {s with pc := if ret = 0 then .loaded else .rejected ret}
    | _ => none
  | .synchronizeIrq => match s.pc with
    | .loaded => some {s with pc := .taskletKill}
    | _ => none
  | .taskletKill => match s.pc with
    | .taskletKill => if s.scheduled || s.running then none else some {s with pc := .kfree}
    | _ => none
  | .kfree => match s.pc with
    | .kfree => some {s with pc := .freeIrq, myTasklet := .freed}
    | _ => none
  | .freeIrq => match s.pc with
    | .freeIrq => some {s with pc := .removeProcEntry, myHandler := false}
    | _ => none
  | .removeProcEntry => match s.pc with
    | .removeProcEntry => some {s with pc := .unloaded, procFileEntry := false}
    | _ => none
  | .interrupt => some {s with scheduled := s.scheduled || s.myHandler}
  | .taskletStarts =>
      if s.scheduled && !s.running then some {s with scheduled := false, running := true} else none
  | .taskletEnds =>
      if s.running then some {s with running := false} else none

def Pc.present : Pc → Prop
  | .rejected _ | .unloaded => False
  | _ => True

structure Clean (s : State) : Prop where
  alive : s.running = true → s.myTasklet ≠ .freed
  released : ∀ ret, s.pc = .rejected ret → s.myHandler = false ∧ s.procFileEntry = false

structure Safe (s : State) (a : Act) : Prop extends Clean s where
  invoked : a = .interrupt → s.myHandler = true →
    s.myTasklet = .ready ∧ s.pc.present

def Orderly (s : State) : Act → Prop
  | .procCreate ok => ok = s.myHandler
  | .kfree => s.scheduled = false ∧ s.running = false
  | .interrupt => s.pc ≠ .freeIrq
  | _ => True

instance (s : State) : (a : Act) → Decidable (Orderly s a)
  | .procCreate ok => inferInstanceAs (Decidable (ok = s.myHandler))
  | .kfree => inferInstanceAs (Decidable (s.scheduled = false ∧ s.running = false))
  | .interrupt => inferInstanceAs (Decidable (s.pc ≠ .freeIrq))
  | .kmalloc _ | .taskletInit | .requestIrq _ | .returns | .synchronizeIrq | .taskletKill
  | .freeIrq | .removeProcEntry | .taskletStarts | .taskletEnds => isTrue trivial

def Pc.armed : Pc → Prop
  | .procCreate ret | .returns ret => ret = 0
  | .loaded | .taskletKill | .kfree | .freeIrq => True
  | _ => False

def Pc.entered : Pc → Prop
  | .returns ret => ret = 0
  | .loaded | .taskletKill | .kfree | .freeIrq | .removeProcEntry => True
  | _ => False

def Pc.points : Pc → Tasklet → Prop
  | .kmalloc, tasklet => tasklet = .absent
  | .taskletInit, tasklet => tasklet = .raw
  | .requestIrq, tasklet | .procCreate _, tasklet => tasklet = .ready
  | .loaded, tasklet | .taskletKill, tasklet | .kfree, tasklet => tasklet = .ready
  | .returns ret, tasklet => if ret = 0 then tasklet = .ready else tasklet ≠ .freed
  | .rejected _, tasklet => tasklet ≠ .freed
  | .freeIrq, tasklet | .removeProcEntry, tasklet | .unloaded, tasklet => tasklet = .freed

structure Sound (s : State) : Prop where
  armed : s.myHandler = true → s.pc.armed
  entered : s.procFileEntry = true → s.pc.entered
  points : s.pc.points s.myTasklet
  idle : s.myTasklet = .freed → s.scheduled = false ∧ s.running = false

theorem bootSound : Sound boot :=
  ⟨fun handler => absurd handler Bool.false_ne_true, fun entry => absurd entry Bool.false_ne_true,
    rfl, by decide⟩

theorem soundSafe {s : State} {a : Act} (sound : Sound s) (orderly : Orderly s a) : Safe s a := by
  refine ⟨⟨fun runs freed => ?_, fun ret gone => ⟨?_, ?_⟩⟩, ?_⟩
  · rw [(sound.idle freed).2] at runs
    cases runs
  · cases handler : s.myHandler with
    | false => rfl
    | true =>
      have armed := sound.armed handler
      rw [gone] at armed
      exact armed.elim
  · cases entry : s.procFileEntry with
    | false => rfl
    | true =>
      have entered := sound.entered entry
      rw [gone] at entered
      exact entered.elim
  · rintro rfl handler
    have armed := sound.armed handler
    have points := sound.points
    have early : s.pc ≠ .freeIrq := orderly
    cases pc : s.pc <;> simp_all [Pc.armed, Pc.points, Pc.present]

theorem kmallocSound {s t : State} {ok : Bool} (sound : Sound s)
    (taken : step s (.kmalloc ok) = some t) : Sound t := by
  obtain ⟨armed, entered, points, idle⟩ := sound
  simp only [step] at taken
  split at taken
  · rename_i here
    rw [here] at armed entered points
    cases ok <;> simp only [Bool.false_eq_true, if_false, if_true] at taken
    · cases taken
      exact ⟨fun handler => (armed handler).elim, fun entry => (entered entry).elim,
        by simp_all [Pc.points], idle⟩
    · cases taken
      exact ⟨armed, entered, rfl, by simp⟩
  · cases taken

theorem taskletInitSound {s t : State} (sound : Sound s) (taken : step s .taskletInit = some t) :
    Sound t := by
  obtain ⟨armed, entered, -, -⟩ := sound
  simp only [step] at taken
  split at taken
  · rename_i here
    cases taken
    rw [here] at armed entered
    exact ⟨armed, entered, rfl, by simp⟩
  · cases taken

theorem requestIrqSound {s t : State} {ret : Int} (sound : Sound s)
    (taken : step s (.requestIrq ret) = some t) : Sound t := by
  obtain ⟨-, entered, points, idle⟩ := sound
  simp only [step] at taken
  split at taken
  · rename_i here
    split at taken
    · cases taken
      rw [here] at entered points
      exact ⟨of_decide_eq_true, entered, points, idle⟩
    · cases taken
  · cases taken

theorem procCreateSound {s t : State} {ok : Bool} (sound : Sound s)
    (orderly : Orderly s (.procCreate ok)) (taken : step s (.procCreate ok) = some t) : Sound t := by
  obtain ⟨armed, entered, points, idle⟩ := sound
  simp only [step] at taken
  split at taken
  · rename_i ret here
    have both : ok = s.myHandler := orderly
    rw [here] at armed entered points
    have ready : s.myTasklet = .ready := points
    cases ok <;> simp only [Bool.false_eq_true, if_false, if_true] at taken
    · cases taken
      exact ⟨fun handler => absurd (both.trans handler) Bool.false_ne_true,
        fun entry => (entered entry).elim, by simp [Pc.points, ready, enomem], idle⟩
    · cases taken
      have zero : ret = 0 := armed both.symm
      exact ⟨fun _ => zero, fun _ => zero, by simp [Pc.points, ready], idle⟩
  · cases taken

theorem returnsSound {s t : State} (sound : Sound s) (taken : step s .returns = some t) :
    Sound t := by
  obtain ⟨armed, entered, points, idle⟩ := sound
  simp only [step] at taken
  split at taken
  · rename_i ret here
    cases taken
    rw [here] at armed entered points
    by_cases zero : ret = 0
    · simp only [zero, if_true]
      exact ⟨fun _ => trivial, fun _ => trivial, by simpa [Pc.points, zero] using points, idle⟩
    · simp only [zero, if_false]
      exact ⟨fun handler => absurd (armed handler) zero, fun entry => absurd (entered entry) zero,
        by simpa [Pc.points, zero] using points, idle⟩
  · cases taken

theorem exitSound {s t : State} {a : Act} (sound : Sound s) (orderly : Orderly s a)
    (taken : step s a = some t)
    (module : a = .synchronizeIrq ∨ a = .taskletKill ∨ a = .kfree ∨ a = .freeIrq ∨
      a = .removeProcEntry) : Sound t := by
  obtain ⟨armed, entered, points, idle⟩ := sound
  rcases module with rfl | rfl | rfl | rfl | rfl
  all_goals
    simp only [step] at taken
    split at taken
    rotate_left
    · cases taken
    rename_i here
    rw [here] at armed entered points
  · cases taken
    exact ⟨armed, entered, points, idle⟩
  · split at taken
    · cases taken
    · cases taken
      exact ⟨armed, entered, points, idle⟩
  · cases taken
    exact ⟨armed, entered, rfl, fun _ => orderly⟩
  · cases taken
    exact ⟨fun handler => absurd handler Bool.false_ne_true, entered, points, idle⟩
  · cases taken
    exact ⟨armed, fun entry => absurd entry Bool.false_ne_true, points, idle⟩

theorem interruptSound {s : State} (sound : Sound s) (orderly : Orderly s .interrupt) :
    Sound {s with scheduled := s.scheduled || s.myHandler} := by
  refine ⟨sound.armed, sound.entered, sound.points, fun freed => ?_⟩
  have points := sound.points
  have early : s.pc ≠ .freeIrq := orderly
  have gone : s.myHandler = false := by
    cases handler : s.myHandler with
    | false => rfl
    | true =>
      have armed := sound.armed handler
      cases pc : s.pc <;> simp_all [Pc.armed, Pc.points]
  obtain ⟨scheduled, running⟩ := sound.idle freed
  exact ⟨by simp only [scheduled, gone, Bool.or_self], running⟩

theorem stepSound {s t : State} {a : Act} (sound : Sound s) (orderly : Orderly s a)
    (taken : step s a = some t) : Sound t := by
  cases a with
  | interrupt =>
    cases taken
    exact interruptSound sound orderly
  | taskletStarts =>
    simp only [step] at taken
    split at taken
    · rename_i starts
      cases taken
      have scheduled : s.scheduled = true := (Bool.and_eq_true_iff.mp starts).1
      refine ⟨sound.armed, sound.entered, sound.points, fun freed => ?_⟩
      rw [(sound.idle freed).1] at scheduled
      cases scheduled
    · cases taken
  | taskletEnds =>
    simp only [step] at taken
    split at taken
    · cases taken
      exact ⟨sound.armed, sound.entered, sound.points, fun freed => ⟨(sound.idle freed).1, rfl⟩⟩
    · cases taken
  | kmalloc ok => exact kmallocSound sound taken
  | taskletInit => exact taskletInitSound sound taken
  | requestIrq ret => exact requestIrqSound sound taken
  | procCreate ok => exact procCreateSound sound orderly taken
  | returns => exact returnsSound sound taken
  | synchronizeIrq | taskletKill | kfree | freeIrq | removeProcEntry =>
    exact exitSound sound orderly taken (by simp)

theorem orderlySafe {labels : List Act} {last : State} (run : Run step Orderly boot labels last) :
    Run step Safe boot labels last ∧ Clean last := by
  constructor
  · exact runStrengthen Sound (fun _ _ _ sound orderly taken =>
      ⟨soundSafe sound orderly, stepSound sound orderly taken⟩) run bootSound
  · have sound := runInvariant Sound (fun _ _ _ sound orderly taken => stepSound sound orderly taken)
      run bootSound
    exact (soundSafe (a := .returns) sound trivial).toClean

def pressed : List Act :=
  [.kmalloc true, .taskletInit, .requestIrq 0, .interrupt, .procCreate true, .taskletStarts,
   .returns, .taskletEnds, .interrupt, .synchronizeIrq, .taskletStarts, .taskletEnds,
   .taskletKill, .kfree, .freeIrq, .interrupt, .removeProcEntry]

theorem pressedSafe : ∃ last, Run step Safe boot pressed last ∧ Clean last := by
  obtain ⟨last, run⟩ := checkedRun step Orderly boot pressed (by decide +kernel)
  exact ⟨last, orderlySafe run⟩

def failedEntry : List Act :=
  [.kmalloc true, .taskletInit, .requestIrq 0, .procCreate false, .returns]

theorem handlerLeft : ¬ ∀ labels last, Run step (fun _ _ => True) boot labels last →
    Run step Safe boot labels last ∧ Clean last := by
  intro always
  obtain ⟨last, run, left⟩ := checkedEnd step (fun _ _ => True) boot failedEntry
    (fun s => (s.pc, s.myHandler)) (.rejected (-12), true) (by decide +kernel)
  rw [Prod.mk.injEq] at left
  have released := ((always failedEntry last run).2.released (-12) left.1).1
  rw [left.2] at released
  cases released

end OsLabs.TaskletModule
