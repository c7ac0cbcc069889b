import Mathlib.Logic.Function.Basic
import OsLabs.Runs

/-! The pid-file lock of the daemon, for any number of processes. A path names at most one
inode, a write lock belongs to an inode and a process, and remove only detaches the name.
Every system call of already_running and of the SIGTERM branch of thr_fn is a step of its
own; a process can die at any moment. -/
namespace OsLabs.DaemonLock
open Runs

abbrev Proc := Nat
abbrev Inode := Nat

inductive Stage where
  | daemonized
  | opened (ino : Inode)
  | locked (ino : Inode)
  | truncated (ino : Inode)
  | running (ino : Inode)   -- already_running has returned 0
  | refused                 -- already_running has returned 1
  | removed (ino : Inode)   -- remove(LOCKFILE) done, exit(0) to come
  | exited
  deriving DecidableEq, Repr

structure Sys where
  lockFile : Option Inode
  next : Inode
  owner : Inode → Option Proc
  content : Inode → List Char
  stage : Proc → Stage

def boot : Sys := ⟨none, 0, fun _ => none, fun _ => [], fun _ => .daemonized⟩

inductive Act where
  | opens (p : Proc)
  | openFails (p : Proc)
  | lockfile (p : Proc)
  | lockfileFails (p : Proc)   -- with an errno other than EACCES and EAGAIN
  | ftruncate (p : Proc)
  | write (p : Proc)
  | sigterm (p : Proc)
  | exit (p : Proc)
  deriving DecidableEq, Repr

def Sys.put (s : Sys) (p : Proc) (stage : Stage) : Sys :=
  {s with stage := Function.update s.stage p stage}

/- What sprintf "%ld" and write leave in the file, with the terminator. -/
def pidText (p : Proc) : List Char := Nat.toDigits 10 p ++ [Char.ofNat 0]

def Sys.free (s : Sys) (p : Proc) (ino : Inode) : Prop := s.owner ino = none ∨ s.owner ino = some p

instance (s : Sys) (p : Proc) (ino : Inode) : Decidable (s.free p ino) :=
  inferInstanceAs (Decidable (_ ∨ _))

/- open with O_CREAT: a fresh inode only when the name is absent. -/
def Sys.opens (s : Sys) (p : Proc) : Sys :=
  match s.lockFile with
  | some ino => s.put p (.opened ino)
  | none => {s.put p (.opened s.next) with lockFile := some s.next, next := s.next + 1}

/- Exit closes the descriptors and so releases the locks. -/
def Sys.exit (s : Sys) (p : Proc) : Sys :=
  {s.put p .exited with owner := fun ino => if s.owner ino = some p then none else s.owner ino}

def step (s : Sys) : Act → Option Sys
  | .opens p => match s.stage p with
    | .daemonized => some (s.opens p)
    | _ => none
  | .openFails p => match s.stage p with
    | .daemonized => some (s.exit p)
    | _ => none
  | .lockfile p => match s.stage p with
    | .opened ino =>
        if s.free p ino then
          some {s.put p (.locked ino) with owner := Function.update s.owner ino (some p)}
        else some (s.put p .refused)
    | _ => none
  | .lockfileFails p => match s.stage p with
    | .opened _ => some (s.exit p)
    | _ => none
  | .ftruncate p => match s.stage p with
    | .locked ino =>
        some {s.put p (.truncated ino) with content := Function.update s.content ino []}
    | _ => none
  | .write p => match s.stage p with
    | .truncated ino =>
        some {s.put p (.running ino) with content := Function.update s.content ino (pidText p)}
    | _ => none
  | .sigterm p => match s.stage p with
    | .running ino => some {s.put p (.removed ino) with lockFile := none}
    | _ => none
  | .exit p => match s.stage p with
    | .exited => none
    | _ => some (s.exit p)

def Returned (s : Sys) (p : Proc) : Prop := ∃ ino, s.stage p = .running ino ∨ s.stage p = .removed ino

def Single (s : Sys) : Prop := ∀ p q, Returned s p → Returned s q → p = q

/- F_SETLK is granted only on the inode that LOCKFILE names, and not while a process is
between its remove(LOCKFILE) and its exit. -/
def OnNamedFile (s : Sys) : Act → Prop
  | .lockfile p => ∀ ino, s.stage p = .opened ino → s.free p ino →
      s.lockFile = some ino ∧ ∀ q j, s.stage q ≠ .removed j
  | _ => True

def Stage.holds : Stage → Option Inode
  | .locked ino | .truncated ino | .running ino | .removed ino => some ino
  | _ => none

def Stage.named : Stage → Option Inode
  | .locked ino | .truncated ino | .running ino => some ino
  | _ => none

structure Sound (s : Sys) : Prop where
  held : ∀ p ino, (s.stage p).holds = some ino → s.owner ino = some p
  named : ∀ p ino, (s.stage p).named = some ino → s.lockFile = some ino
  lone : ∀ p q ino j, s.stage p = .removed ino → (s.stage q).holds = some j → q = p

theorem bootSound : Sound boot := by
  constructor
  · intro p ino holds
    cases holds
  · intro p ino named
    cases named
  · intro p q ino j removed
    cases removed

theorem namedHolds {stage : Stage} {ino : Inode} (named : stage.named = some ino) :
    stage.holds = some ino := by
  cases stage <;> simp_all [Stage.named, Stage.holds]

theorem soundSingle {s : Sys} (sound : Sound s) : Single s := by
  rintro p q ⟨i, hp⟩ ⟨j, hq⟩
  rcases hp with hp | hp <;> rcases hq with hq | hq
  · have left := sound.named p i (by rw [hp]; rfl)
    have right := sound.named q j (by rw [hq]; rfl)
    have same : i = j := Option.some.inj (left.symm.trans right)
    subst same
    have first := sound.held p i (by rw [hp]; rfl)
    have second := sound.held q i (by rw [hq]; rfl)
    exact Option.some.inj (first.symm.trans second)
  · exact sound.lone q p j i hq (by rw [hp]; rfl)
  · exact (sound.lone p q i j hp (by rw [hq]; rfl)).symm
  · exact sound.lone q p j i hq (by rw [hp]; rfl)

theorem putEvery {s : Sys} {p : Proc} {stage : Stage} (prop : Proc → Stage → Prop)
    (own : prop p stage) (others : ∀ q, q ≠ p → prop q (s.stage q)) (q : Proc) :
    prop q ((s.put p stage).stage q) := by
  by_cases same : q = p
  · rw [same]
    simpa only [Sys.put, Function.update_self] using own
  · simpa only [Sys.put, Function.update_of_ne same] using others q same

theorem putSound {s : Sys} {p : Proc} {stage : Stage} (sound : Sound s)
    (holds : ∀ ino, stage.holds = some ino → (s.stage p).holds = some ino)
    (named : ∀ ino, stage.named = some ino → (s.stage p).named = some ino)
    (stays : ∀ ino, stage ≠ .removed ino) : Sound (s.put p stage) := by
  constructor
  · exact putEvery (fun q here => ∀ ino, here.holds = some ino → s.owner ino = some q)
      (fun ino h => sound.held p ino (holds ino h)) (fun q _ => sound.held q)
  · exact putEvery (fun _ here => ∀ ino, here.named = some ino → s.lockFile = some ino)
      (fun ino h => sound.named p ino (named ino h)) (fun q _ => sound.named q)
  · intro q r ino j gone h
    have before : s.stage q = .removed ino :=
      putEvery (fun q here => here = .removed ino → s.stage q = .removed ino)
        (fun same => absurd same (stays ino)) (fun _ _ same => same) q gone
    have held : (s.stage r).holds = some j :=
      putEvery (fun r here => here.holds = some j → (s.stage r).holds = some j)
        (holds j) (fun _ _ same => same) r h
    exact sound.lone q r ino j before held

theorem opensSound {s : Sys} {p : Proc} (sound : Sound s) : Sound (s.opens p) := by
  have quiet : ∀ ino, Sound (s.put p (.opened ino)) := fun ino =>
    putSound sound (by intro j h; cases h) (by intro j h; cases h) (by intro j h; cases h)
  unfold Sys.opens
  split
  · exact quiet _
  · rename_i absent
    -- the name was free, so nobody's stage names an inode
    refine ⟨(quiet _).held, fun q ino h => ?_, (quiet _).lone⟩
    have present := (quiet s.next).named q ino h
    simp only [Sys.put] at present
    rw [absent] at present
    cases present

theorem exitSound {s : Sys} {p : Proc} (sound : Sound s) : Sound (s.exit p) := by
  have quiet : Sound (s.put p .exited) :=
    putSound sound (by intro j h; cases h) (by intro j h; cases h) (by intro j h; cases h)
  refine ⟨fun q ino h => ?_, quiet.named, quiet.lone⟩
  have mine : s.owner ino = some q := quiet.held q ino h
  have other : q ≠ p := by
    rintro rfl
    simp [Sys.exit, Sys.put, Stage.holds] at h
  simp only [Sys.exit, mine, Option.some.injEq, other, if_false]

theorem grantSound {s : Sys} {p : Proc} {ino : Inode} (sound : Sound s) (free : s.free p ino)
    (onName : s.lockFile = some ino) (nobody : ∀ q j, s.stage q ≠ .removed j) :
    Sound {s.put p (.locked ino) with owner := Function.update s.owner ino (some p)} := by
  constructor
  · refine putEvery (fun q here => ∀ j, here.holds = some j →
      Function.update s.owner ino (some p) j = some q) ?_ ?_
    · intro j h
      cases h
      exact Function.update_self ..
    · intro q other j h
      have mine := sound.held q j h
      have apart : j ≠ ino := by
        rintro rfl
        rcases free with unowned | own
        · rw [unowned] at mine
          cases mine
        · rw [own] at mine
          exact other (Option.some.inj mine).symm
      rw [Function.update_of_ne apart, mine]
  · refine putEvery (fun _ here => ∀ j, here.named = some j → s.lockFile = some j) ?_
      (fun q _ => sound.named q)
    intro j h
    cases h
    exact onName
  · intro q r j k gone h
    have before : s.stage q = .removed j :=
      putEvery (fun q here => here = .removed j → s.stage q = .removed j)
        (fun same => by cases same) (fun _ _ same => same) q gone
    exact absurd before (nobody q j)

theorem sigtermSound {s : Sys} {p : Proc} {ino : Inode} (sound : Sound s)
    (runs : s.stage p = .running ino) :
    Sound {s.put p (.removed ino) with lockFile := none} := by
  have mine := sound.held p ino (by rw [runs]; rfl)
  have onName := sound.named p ino (by rw [runs]; rfl)
  have alone : ∀ q j, (s.stage q).named = some j → q = p := by
    intro q j h
    have same := Option.some.inj ((sound.named q j h).symm.trans onName)
    subst same
    exact Option.some.inj ((sound.held q j (namedHolds h)).symm.trans mine)
  have holders : ∀ q j, (s.stage q).holds = some j → q = p := by
    intro q j h
    cases stage : s.stage q with
    | removed k => exact (sound.lone q p k ino stage (by rw [runs]; rfl)).symm
    | locked k => exact alone q k (by rw [stage]; rfl)
    | truncated k => exact alone q k (by rw [stage]; rfl)
    | running k => exact alone q k (by rw [stage]; rfl)
    | _ => rw [stage] at h; cases h
  constructor
  · refine putEvery (fun q here => ∀ j, here.holds = some j → s.owner j = some q) ?_
      (fun q _ => sound.held q)
    intro j h
    cases h
    exact mine
  · refine putEvery (fun _ here => ∀ j, here.named = some j → none = some j) ?_ ?_
    · intro j h
      cases h
    · intro q other j h
      exact absurd (alone q j h) other
  · intro q r j k gone h
    have last : ∀ q i, ((s.put p (.removed ino)).stage q).holds = some i → q = p :=
      putEvery (fun q here => ∀ i, here.holds = some i → q = p) (fun _ _ => rfl)
        (fun q _ => holders q)
    have first : q = p := last q j (by rw [gone]; rfl)
    exact (last r k h).trans first.symm

theorem stepSound {s t : Sys} {a : Act} (sound : Sound s) (onName : OnNamedFile s a)
    (taken : step s a = some t) : Sound t := by
  cases a with
  | opens p =>
    simp only [step] at taken
    split at taken
    · cases taken
      exact opensSound sound
    · cases taken
  | openFails p =>
    simp only [step] at taken
    split at taken
    · cases taken
      exact exitSound sound
    · cases taken
  | lockfile p =>
    simp only [step] at taken
    split at taken
    · rename_i ino opened
      split at taken
      · rename_i free
        cases taken
        obtain ⟨named, nobody⟩ := onName ino opened free
        exact grantSound sound free named nobody
      · cases taken
        exact putSound sound (by intro j h; cases h) (by intro j h; cases h) (by intro j h; cases h)
    · cases taken
  | lockfileFails p =>
    simp only [step] at taken
    split at taken
    · cases taken
      exact exitSound sound
    · cases taken
  | ftruncate p =>
    simp only [step] at taken
    split at taken
    · rename_i ino locked
      cases taken
      have kept : Sound (s.put p (.truncated ino)) :=
        putSound sound (by rw [locked]; exact fun _ => id) (by rw [locked]; exact fun _ => id)
          (by intro j h; cases h)
      exact ⟨kept.held, kept.named, kept.lone⟩
    · cases taken
  | write p =>
    simp only [step] at taken
    split at taken
    · rename_i ino truncated
      cases taken
      have kept : Sound (s.put p (.running ino)) :=
        putSound sound (by rw [truncated]; exact fun _ => id)
          (by rw [truncated]; exact fun _ => id) (by intro j h; cases h)
      exact ⟨kept.held, kept.named, kept.lone⟩
    · cases taken
  | sigterm p =>
    simp only [step] at taken
    split at taken
    · rename_i ino running
      cases taken
      exact sigtermSound sound running
    · cases taken
  | exit p =>
    simp only [step] at taken
    split at taken
    · cases taken
    · cases taken
      exact exitSound sound

theorem singleDaemon {labels : List Act} {last : Sys} (run : Run step OnNamedFile boot labels last) :
    Single last :=
  soundSingle (runInvariant Sound (fun _ _ _ sound onName taken => stepSound sound onName taken)
    run bootSound)

def handover : List Act :=
  [.opens 0, .lockfile 0, .ftruncate 0, .write 0, .opens 1, .lockfile 1, .exit 1,
   .sigterm 0, .exit 0, .opens 2, .lockfile 2, .ftruncate 2, .write 2]

theorem handoverSingle : ∃ last, exec step boot handover = some last ∧ Single last := by
  obtain ⟨last, run⟩ : ∃ last, Run step OnNamedFile boot handover last := by
    refine ⟨_, .cons trivial rfl (.cons ?_ rfl (.cons trivial rfl (.cons trivial rfl
      (.cons trivial rfl (.cons ?_ rfl (.cons trivial rfl (.cons trivial rfl (.cons trivial rfl
      (.cons trivial rfl (.cons ?_ rfl (.cons trivial rfl (.cons trivial rfl (.nil _)))))))))))))⟩
    all_goals
      intro ino opened free
      cases opened
      refine ⟨rfl, fun q j gone => ?_⟩
      simp only [Sys.opens, Sys.exit, Sys.put, Function.update_apply, boot] at gone
      clear free
      (repeat' split at gone) <;> cases gone
  exact ⟨last, runExec run, singleDaemon run⟩

def overlap : List Act :=
  [.opens 0, .lockfile 0, .ftruncate 0, .write 0, .sigterm 0,
   .opens 1, .lockfile 1, .ftruncate 1, .write 1]

theorem secondDaemon :
    ¬ ∀ labels last, Run step (fun _ _ => True) boot labels last → Single last := by
  intro always
  obtain ⟨last, run, stages⟩ := checkedEnd step (fun _ _ => True) boot overlap
    (fun s => (s.stage 0, s.stage 1)) (.removed 0, .running 1) (by decide +kernel)
  rw [Prod.mk.injEq] at stages
  have clash := always overlap last run 0 1 ⟨0, .inr stages.1⟩ ⟨1, .inl stages.2⟩
  exact absurd clash (by decide)

end OsLabs.DaemonLock
