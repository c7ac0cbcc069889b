import Mathlib.Logic.Function.Basic
import OsLabs.CoalescedRuns
import OsLabs.Runs

/-! Signals to the daemon once already_running has returned 0: main restores SIGHUP, blocks every
signal and starts the thread that waits for them. Any process may send any standard signal at any
moment; those of job control are left out. A blocked signal is remembered once. sigaction does not
fail, and the lines of the time loop are left out. -/
namespace OsLabs.DaemonSignals
open Runs CoalescedRuns

abbrev Signal := Nat

def sighup : Signal := 1
def sigkill : Signal := 9
def sigterm : Signal := 15

def ignoredByDefault (sig : Signal) : Bool := sig = 17 || sig = 23 || sig = 28

/- SIGCONT, SIGSTOP, SIGTSTP, SIGTTIN and SIGTTOU have the numbers 18 to 22. -/
def sendable (sig : Signal) : Bool := 0 < sig && sig < 32 && !(18 ≤ sig && sig ≤ 22)

inductive Pc where
  | sigaction
  | pthreadSigmask
  | pthreadCreate
  | sigwait
  | remove
  | exit
  deriving DecidableEq, Repr

inductive Ending where
  | killed (sig : Signal)
  | exited (code : Nat)
  deriving DecidableEq, Repr

/- The slots know which signals are pending. `arrivals` counts those sent while they were blocked,
`lines` are the signals that thr_fn has logged. -/
structure State where
  pc : Pc
  ended : Option Ending
  slot : Signal → Slot
  arrivals : Signal → Nat
  lines : List Signal
  lockFile : Bool

def start : State := ⟨.sigaction, none, fun _ => .empty, fun _ => 0, [], true⟩

def Pc.blocked : Pc → Bool
  | .sigaction | .pthreadSigmask => false
  | _ => true

inductive Act where
  | signal (sig : Signal)
  | sigaction
  | pthreadSigmask (ok : Bool)
  | pthreadCreate (ok : Bool)
  | sigwait (sig : Signal)
  | sigwaitFails
  | remove
  | exit
  deriving DecidableEq, Repr

/- daemonize has left SIGHUP ignored. -/
def State.ignores (s : State) (sig : Signal) : Bool :=
  ignoredByDefault sig || (sig = sighup && s.pc = .sigaction)

def State.remember (s : State) (sig : Signal) : State :=
  {s with
    slot := Function.update s.slot sig (s.slot sig).request
    arrivals := Function.update s.arrivals sig (s.arrivals sig + 1)}

/- Every case of the switch logs the signal, and only SIGTERM leaves the loop. -/
def State.take (s : State) (sig : Signal) : State :=
  {s with
    slot := Function.update s.slot sig ((s.slot sig).start (s.arrivals sig))
    lines := s.lines ++ [sig]
    pc := if sig = sigterm then .remove else .sigwait}

def act (s : State) : Act → Option State
  | .signal sig =>
      if sendable sig = false then none
      else if sig = sigkill then some {s with ended := some (.killed sig)}
      else if s.pc.blocked then some (s.remember sig)
      else if s.ignores sig then some s
      else some {s with ended := some (.killed sig)}
  | .sigaction => match s.pc with
    | .sigaction => some {s with pc := .pthreadSigmask}
    | _ => none
  | .pthreadSigmask ok => match s.pc with
    | .pthreadSigmask => some (if ok then {s with pc := .pthreadCreate} else {s with ended := some (.exited 1)})
    | _ => none
  | .pthreadCreate ok => match s.pc with
    | .pthreadCreate => some (if ok then {s with pc := .sigwait} else {s with ended := some (.exited 1)})
    | _ => none
  | .sigwait sig => match s.pc with
    | .sigwait => if (s.slot sig).pending then some (s.take sig) else none
    | _ => none
  | .sigwaitFails => match s.pc with
    | .sigwait => some {s with ended := some (.exited 1)}
    | _ => none
  | .remove => match s.pc with
    | .remove => some {s with pc := .exit, lockFile := false}
    | _ => none
  | .exit => match s.pc with
    | .exit => some {s with ended := some (.exited 0)}
    | _ => none

def step (s : State) (a : Act) : Option State := if s.ended = none then act s a else none

def Ending.fits : Ending → Pc → Prop
  | .killed sig, pc => sig = sigkill ∨
      pc.blocked = false ∧ ignoredByDefault sig = false ∧ (sig = sighup → pc = .pthreadSigmask)
  | .exited code, pc => code = 0 ∧ pc = .exit ∨
      code = 1 ∧ (pc = .pthreadSigmask ∨ pc = .pthreadCreate ∨ pc = .sigwait)

def Pc.terminates : Pc → Bool
  | .remove | .exit => true
  | _ => false

structure Holds (s : State) : Prop where
  slots : ∀ sig, Keeps (s.slot sig) (s.arrivals sig)
  lines : ∀ sig, s.lines.count sig = (s.slot sig).starts.length
  term : s.lines.count sigterm = if s.pc.terminates then 1 else 0
  last : s.pc.terminates = true → s.lines.getLast? = some sigterm
  file : s.lockFile = false ↔ s.pc = .exit
  ended : ∀ ending, s.ended = some ending → ending.fits s.pc

theorem startHolds : Holds start where
  slots := fun _ => emptyKeeps
  lines := fun _ => rfl
  term := rfl
  last := fun late => Bool.noConfusion late
  file := ⟨fun gone => Bool.noConfusion gone, fun late => Pc.noConfusion late⟩
  ended := fun ending finished => by cases finished

theorem movesHolds {s : State} (holds : Holds s) {pc : Pc} {lockFile : Bool} (same : pc.terminates = s.pc.terminates)
    (file : lockFile = false ↔ pc = .exit) (alive : s.ended = none) :
    Holds {s with pc := pc, lockFile := lockFile} where
  slots := holds.slots
  lines := holds.lines
  term := by rw [same]; exact holds.term
  last := fun late => holds.last (same ▸ late)
  file := file
  ended := fun ending finished => by
    rw [alive] at finished
    cases finished

theorem endsHolds {s : State} (holds : Holds s) {ending : Ending} (fits : ending.fits s.pc) :
    Holds {s with ended := some ending} where
  slots := holds.slots
  lines := holds.lines
  term := holds.term
  last := holds.last
  file := holds.file
  ended := fun other same => by
    cases same
    exact fits

theorem rememberHolds {s : State} {sig : Signal} (holds : Holds s) : Holds (s.remember sig) where
  slots := fun other => by
    by_cases mine : other = sig
    · subst mine
      simpa only [State.remember, Function.update_self] using requestKeeps (holds.slots other)
    · simpa only [State.remember, Function.update_of_ne mine] using holds.slots other
  lines := fun other => by
    by_cases mine : other = sig
    · subst mine
      simp only [State.remember, Function.update_self]
      exact holds.lines other
    · simpa only [State.remember, Function.update_of_ne mine] using holds.lines other
  term := holds.term
  last := holds.last
  file := holds.file
  ended := holds.ended

theorem takeHolds {s : State} {sig : Signal} (holds : Holds s) (here : s.pc = .sigwait)
    (pending : (s.slot sig).pending = true) (alive : s.ended = none) : Holds (s.take sig) where
  slots := fun other => by
    by_cases mine : other = sig
    · subst mine
      simpa only [State.take, Function.update_self] using startKeeps (holds.slots other) pending
    · simpa only [State.take, Function.update_of_ne mine] using holds.slots other
  lines := fun other => by
    by_cases mine : other = sig
    · subst mine
      simp only [State.take, Function.update_self, Slot.start, List.count_append, List.count_singleton_self,
        List.length_append, List.length_singleton, holds.lines]
    · simp only [State.take, Function.update_of_ne mine, List.count_append, List.count_singleton, holds.lines,
        beq_eq_false_iff_ne.mpr (Ne.symm mine), Bool.false_eq_true, if_false, Nat.add_zero]
  term := by
    have before := holds.term
    rw [here] at before
    by_cases mine : sig = sigterm
    · subst mine
      simp only [State.take, List.count_append, before, List.count_singleton_self, if_true, Pc.terminates,
        Bool.false_eq_true, if_false]
    · simp only [State.take, List.count_append, before, List.count_singleton, beq_eq_false_iff_ne.mpr mine,
        Bool.false_eq_true, if_false, mine, Pc.terminates]
  last := fun late => by
    by_cases mine : sig = sigterm
    · rw [mine]
      exact List.getLast?_concat
    · simp only [State.take, mine, if_false, Pc.terminates] at late
      cases late
  file := by
    have before := holds.file
    rw [here] at before
    refine before.trans ⟨fun late => Pc.noConfusion late, fun late => ?_⟩
    simp only [State.take] at late
    split at late <;> cases late
  ended := fun ending finished => by
    have ends : s.ended = some ending := finished
    rw [alive] at ends
    cases ends

theorem signalHolds {s t : State} {sig : Signal} (holds : Holds s) (taken : act s (.signal sig) = some t) :
    Holds t := by
  simp only [act] at taken
  split at taken
  · cases taken
  split at taken
  · rename_i kill
    cases taken
    exact endsHolds holds (.inl kill)
  split at taken
  · cases taken
    exact rememberHolds holds
  rename_i unblocked
  split at taken
  · cases taken
    exact holds
  · rename_i heard
    cases taken
    simp only [State.ignores, Bool.or_eq_true, Bool.and_eq_true, decide_eq_true_eq, not_or, not_and,
      Bool.not_eq_true] at heard
    refine endsHolds holds (.inr ⟨Bool.eq_false_iff.mpr unblocked, heard.1, fun hup => ?_⟩)
    cases pc : s.pc with
    | pthreadSigmask => rfl
    | sigaction => exact absurd pc (heard.2 hup)
    | _ => rw [pc] at unblocked; exact absurd rfl unblocked

theorem actHolds {s t : State} {a : Act} (holds : Holds s) (alive : s.ended = none) (taken : act s a = some t) :
    Holds t := by
  cases a with
  | signal sig => exact signalHolds holds taken
  | sigaction =>
    simp only [act] at taken
    split at taken
    · rename_i here
      cases taken
      exact movesHolds holds (by rw [here]; rfl) (by rw [holds.file, here]; decide) alive
    · cases taken
  | pthreadSigmask ok =>
    simp only [act] at taken
    split at taken
    · rename_i here
      cases taken
      split
      · exact movesHolds holds (by rw [here]; rfl) (by rw [holds.file, here]; decide) alive
      · exact endsHolds holds (.inr ⟨rfl, .inl here⟩)
    · cases taken
  | pthreadCreate ok =>
    simp only [act] at taken
    split at taken
    · rename_i here
      cases taken
      split
      · exact movesHolds holds (by rw [here]; rfl) (by rw [holds.file, here]; decide) alive
      · exact endsHolds holds (.inr ⟨rfl, .inr (.inl here)⟩)
    · cases taken
  | sigwait sig =>
    simp only [act] at taken
    split at taken
    · rename_i here
      split at taken
      · rename_i pending
        cases taken
        exact takeHolds holds here pending alive
      · cases taken
    · cases taken
  | sigwaitFails =>
    simp only [act] at taken
    split at taken
    · rename_i here
      cases taken
      exact endsHolds holds (.inr ⟨rfl, .inr (.inr here)⟩)
    · cases taken
  | remove =>
    simp only [act] at taken
    split at taken
    · rename_i here
      cases taken
      exact movesHolds holds (by rw [here]; rfl) ⟨fun _ => rfl, fun _ => rfl⟩ alive
    · cases taken
  | exit =>
    simp only [act] at taken
    split at taken
    · rename_i here
      cases taken
      exact endsHolds holds (.inl ⟨rfl, here⟩)
    · cases taken

theorem runHolds {ok : State → Act → Prop} {labels : List Act} {last : State}
    (run : Run step ok start labels last) : Holds last := by
  refine runInvariant Holds (fun s a t holds _ taken => ?_) run startHolds
  simp only [step] at taken
  split at taken
  · rename_i alive
    exact actHolds holds alive taken
  · cases taken

structure Ends (s : State) : Prop where
  killed : ∀ sig, s.ended = some (.killed sig) → sig = sigkill ∨
    s.pc.blocked = false ∧ ignoredByDefault sig = false ∧ (sig = sighup → s.pc = .pthreadSigmask)
  exited : ∀ code, s.ended = some (.exited code) → code = 0 ∧ s.lockFile = false ∨ code = 1 ∧ s.lockFile = true
  file : s.lockFile = false → s.lines.getLast? = some sigterm ∧ s.lines.count sigterm = 1 ∧
    (s.ended = none ∨ s.ended = some (.exited 0) ∨ s.ended = some (.killed sigkill))

theorem endsOnlyBySignals {labels : List Act} {last : State}
    (run : Run step (fun _ _ => True) start labels last) : Ends last := by
  have holds := runHolds run
  refine ⟨fun sig finished => holds.ended _ finished, fun code finished => ?_, fun gone => ?_⟩
  · rcases holds.ended _ finished with ⟨zero, late⟩ | ⟨one, early⟩
    · exact .inl ⟨zero, holds.file.mpr late⟩
    · refine .inr ⟨one, Bool.of_not_eq_false fun gone => ?_⟩
      have late := holds.file.mp gone
      rcases early with here | here | here <;> cases late.symm.trans here
  · have late := holds.file.mp gone
    have terminates : last.pc.terminates = true := by rw [late]; rfl
    have once := holds.term
    rw [terminates, if_pos rfl] at once
    refine ⟨holds.last terminates, once, ?_⟩
    cases finished : last.ended with
    | none => exact .inl rfl
    | some ending =>
      have fits := holds.ended _ finished
      rw [late] at fits
      cases ending with
      | killed sig =>
        rcases fits with kill | ⟨early, -⟩
        · rw [kill]
          exact .inr (.inr rfl)
        · cases early
      | exited code =>
        rcases fits with ⟨zero, -⟩ | ⟨-, early | early | early⟩
        · rw [zero]
          exact .inr (.inl rfl)
        · cases early
        · cases early
        · cases early

structure Logs (s : State) : Prop where
  short : ∀ sig, s.lines.count sig ≤ s.arrivals sig
  newest : ∀ sig, (s.slot sig).pending = false → 0 < s.arrivals sig →
    sig ∈ s.lines ∧ (s.slot sig).starts.getLast? = some (s.arrivals sig)
  /- A SIGTERM more brings it to its end. -/
  stops : s.ended = none → s.pc.blocked = true →
    Reaches step (fun t => t.ended = some (.exited 0) ∧ t.lockFile = false) s

theorem exitStops {s : State} (holds : Holds s) (alive : s.ended = none) (here : s.pc = .exit) :
    Reaches step (fun t => t.ended = some (.exited 0) ∧ t.lockFile = false) s := by
  have taken : step s .exit = some {s with ended := some (.exited 0)} := by
    rw [step, if_pos alive, act, here]
  exact reachesStep taken (reachesHere ⟨rfl, holds.file.mpr here⟩)

theorem removeStops {s : State} (holds : Holds s) (alive : s.ended = none) (here : s.pc = .remove) :
    Reaches step (fun t => t.ended = some (.exited 0) ∧ t.lockFile = false) s := by
  have moved : Holds {s with pc := .exit, lockFile := false} :=
    movesHolds holds (by rw [here]; rfl) ⟨fun _ => rfl, fun _ => rfl⟩ alive
  have taken : step s .remove = some {s with pc := .exit, lockFile := false} := by
    rw [step, if_pos alive, act, here]
  exact reachesStep taken (exitStops moved alive rfl)

theorem sigwaitStops {s : State} (holds : Holds s) (alive : s.ended = none) (here : s.pc = .sigwait) :
    Reaches step (fun t => t.ended = some (.exited 0) ∧ t.lockFile = false) s := by
  have pending : ((s.remember sigterm).slot sigterm).pending = true := by
    simp only [State.remember, Function.update_self, Slot.request]
  have remembered : Holds (s.remember sigterm) := rememberHolds holds
  have taken : Holds ((s.remember sigterm).take sigterm) := takeHolds remembered here pending alive
  have removes : ((s.remember sigterm).take sigterm).pc = .remove := by simp only [State.take, if_true]
  have comes : step s (.signal sigterm) = some (s.remember sigterm) := by
    have blocked : s.pc.blocked = true := by rw [here]; rfl
    rw [step, if_pos alive, act, if_neg (by decide), if_neg (by decide), if_pos blocked]
  have waits : step (s.remember sigterm) (.sigwait sigterm) = some ((s.remember sigterm).take sigterm) := by
    rw [step, if_pos (show (s.remember sigterm).ended = none from alive), act,
      show (s.remember sigterm).pc = .sigwait from here]
    exact if_pos pending
  exact reachesStep comes (reachesStep waits (removeStops taken alive removes))

theorem blockedStops {s : State} (holds : Holds s) (alive : s.ended = none) (blocked : s.pc.blocked = true) :
    Reaches step (fun t => t.ended = some (.exited 0) ∧ t.lockFile = false) s := by
  cases here : s.pc with
  | sigaction | pthreadSigmask =>
    rw [here] at blocked
    cases blocked
  | pthreadCreate =>
    have moved : Holds {s with pc := .sigwait, lockFile := s.lockFile} :=
      movesHolds holds (by rw [here]; rfl) (by rw [holds.file, here]; decide) alive
    have taken : step s (.pthreadCreate true) = some {s with pc := .sigwait} := by
      rw [step, if_pos alive, act, here]
      exact congrArg some (if_pos rfl)
    exact reachesStep taken (sigwaitStops moved alive rfl)
  | sigwait => exact sigwaitStops holds alive here
  | remove => exact removeStops holds alive here
  | exit => exact exitStops holds alive here

theorem signalsLogged {labels : List Act} {last : State}
    (run : Run step (fun _ _ => True) start labels last) : Logs last := by
  have holds := runHolds run
  refine ⟨fun sig => ?_, fun sig clear sent => ?_, blockedStops holds⟩
  · rw [holds.lines]
    exact startsShort (holds.slots sig)
  · have newest := (holds.slots sig).served clear sent
    refine ⟨?_, newest⟩
    rw [← List.count_pos_iff, holds.lines, List.length_pos_iff]
    intro empty
    rw [empty] at newest
    cases newest

def session : List Act :=
  [.signal 1, .sigaction, .signal 17, .pthreadSigmask true, .signal 1, .signal 1, .pthreadCreate true,
   .sigwait 1, .signal 10, .sigwait 10, .signal 15, .sigwait 15, .remove, .exit]

theorem sessionEnds : ∃ last, Run step (fun _ _ => True) start session last ∧ Ends last ∧
    last.ended = some (.exited 0) := by
  obtain ⟨last, run, finished⟩ := checkedEnd step (fun _ _ => True) start session (fun s => s.ended)
    (some (.exited 0)) (by decide +kernel)
  exact ⟨last, run, endsOnlyBySignals run, finished⟩

theorem sessionLogs : ∃ last, Run step (fun _ _ => True) start session last ∧ Logs last ∧
    last.lines = [1, 10, 15] := by
  obtain ⟨last, run, lines⟩ := checkedEnd step (fun _ _ => True) start session (fun s => s.lines) [1, 10, 15]
    (by decide +kernel)
  exact ⟨last, run, signalsLogged run, lines⟩

end OsLabs.DaemonSignals
