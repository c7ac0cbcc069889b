import OsLabs.DaemonLock

/-! What the pid file says of the daemons, and which starts it refuses: over every run of the
lock protocol, processes dying at any moment. -/
namespace OsLabs.DaemonLock
open Runs

def readPid (text : List Char) : Nat :=
  Nat.ofDigitChars 10 (text.takeWhile fun c => decide (c ≠ Char.ofNat 0)) 0

theorem readPidText (p : Proc) : readPid (pidText p) = p := by
  have digits : ∀ c ∈ Nat.toDigits 10 p, decide (c ≠ Char.ofNat 0) = true := by
    intro c mem
    refine decide_eq_true fun zero => ?_
    have digit := Nat.isDigit_of_mem_toDigits (by decide) (by decide) mem
    rw [zero] at digit
    exact absurd digit (by decide)
  rw [readPid, pidText, List.takeWhile_append_of_pos digits, List.takeWhile_cons_of_neg (by decide),
    List.append_nil, Nat.ofDigitChars_toDigits (by decide) (by decide)]

structure Locked (s : Sys) : Prop where
  owner : ∀ p ino, s.owner ino = some p ↔ (s.stage p).holds = some ino
  content : ∀ p ino, s.stage p = .running ino ∨ s.stage p = .removed ino → s.content ino = pidText p

theorem bootLocked : Locked boot where
  owner := fun p ino => ⟨fun owner => (Option.some_ne_none p owner.symm).elim,
    fun holds => (Option.some_ne_none ino holds.symm).elim⟩
  content := fun p ino stage => by rcases stage with stage | stage <;> cases stage

theorem putLocked {s : Sys} {p : Proc} {stage : Stage} (locked : Locked s)
    (same : stage.holds = (s.stage p).holds)
    (content : ∀ ino, stage = .running ino ∨ stage = .removed ino → s.content ino = pidText p) :
    Locked (s.put p stage) where
  owner := fun q ino => by
    refine (locked.owner q ino).trans ?_
    by_cases mine : q = p
    · subst mine
      simp only [Sys.put, Function.update_self, same]
    · simp only [Sys.put, Function.update_of_ne mine]
  content := fun q ino here =>
    putEvery (fun q stage => stage = .running ino ∨ stage = .removed ino → s.content ino = pidText q)
      (content ino) (fun q _ => locked.content q ino) q here

theorem opensLocked {s : Sys} {p : Proc} (locked : Locked s) (here : s.stage p = .daemonized) :
    Locked (s.opens p) := by
  have moved : ∀ ino, Locked (s.put p (.opened ino)) := fun ino =>
    putLocked locked (by rw [here]; rfl) (by rintro j (same | same) <;> cases same)
  unfold Sys.opens
  split
  · exact moved _
  · exact ⟨(moved _).owner, (moved _).content⟩

theorem exitLocked {s : Sys} {p : Proc} (locked : Locked s) : Locked (s.exit p) where
  owner := fun q ino => by
    have before := locked.owner q ino
    by_cases mine : q = p
    · subst mine
      have released : (if s.owner ino = some q then none else s.owner ino) ≠ some q := by
        split
        · exact fun same => Option.some_ne_none q same.symm
        · assumption
      simp only [Sys.exit, Sys.put, Function.update_self, released, false_iff]
      exact fun same => Option.some_ne_none ino same.symm
    · have other : (if s.owner ino = some p then none else s.owner ino) = some q ↔ s.owner ino = some q := by
        split
        · rename_i owned
          rw [owned, Option.some.injEq]
          exact ⟨fun same => (Option.some_ne_none q same.symm).elim, fun same => absurd same.symm mine⟩
        · rfl
      simp only [Sys.exit, Sys.put, Function.update_of_ne mine, other, before]
  content := fun q ino here =>
    putEvery (fun q stage => stage = .running ino ∨ stage = .removed ino → s.content ino = pidText q)
      (fun same => by rcases same with same | same <;> cases same) (fun q _ => locked.content q ino) q here

theorem freeUnowned {s : Sys} {p : Proc} {ino j : Inode} (locked : Locked s) (opened : s.stage p = .opened j)
    (free : s.free p ino) : s.owner ino = none := by
  rcases free with free | mine
  · exact free
  · have holds := (locked.owner p ino).mp mine
    rw [opened] at holds
    cases holds

theorem grantLocked {s : Sys} {p : Proc} {ino : Inode} (locked : Locked s) (opened : s.stage p = .opened ino)
    (free : s.free p ino) :
    Locked {s.put p (.locked ino) with owner := Function.update s.owner ino (some p)} where
  owner := fun q j => by
    have unowned := freeUnowned locked opened free
    have before := locked.owner q j
    by_cases mine : q = p
    · subst mine
      rw [opened] at before
      by_cases same : j = ino
      · subst same
        simp [Sys.put, Stage.holds]
      · have elsewhere : s.owner j ≠ some q := fun owner => by cases before.mp owner
        simp only [Sys.put, Function.update_self, Function.update_of_ne same, elsewhere, false_iff, Stage.holds,
          Option.some.injEq]
        exact fun equal => same equal.symm
    · by_cases same : j = ino
      · subst same
        rw [unowned] at before
        have others : (s.stage q).holds ≠ some j := fun holds => Option.some_ne_none q (before.mpr holds).symm
        simp only [Sys.put, Function.update_self, Function.update_of_ne mine, Option.some.injEq, others, iff_false]
        exact fun equal => mine equal.symm
      · simp only [Sys.put, Function.update_of_ne mine, Function.update_of_ne same, before]
  content := fun q j here =>
    putEvery (fun q stage => stage = .running j ∨ stage = .removed j → s.content j = pidText q)
      (fun same => by rcases same with same | same <;> cases same) (fun q _ => locked.content q j) q here

theorem writeLocked {s : Sys} {p : Proc} {ino : Inode} {stage : Stage} {text : List Char} (locked : Locked s)
    (holds : (s.stage p).holds = some ino) (keeps : stage.holds = some ino)
    (own : ∀ j, stage = .running j ∨ stage = .removed j → text = pidText p) :
    Locked {s.put p stage with content := Function.update s.content ino text} where
  owner := fun q j => by
    refine (locked.owner q j).trans ?_
    by_cases mine : q = p
    · subst mine
      simp only [Sys.put, Function.update_self, holds, keeps]
    · simp only [Sys.put, Function.update_of_ne mine]
  content := fun q j here => by
    have stages : s.stage q = .running j ∨ s.stage q = .removed j → (s.stage q).holds = some j := by
      rintro (same | same) <;> rw [same] <;> rfl
    by_cases mine : q = p
    · subst mine
      have now : stage = .running j ∨ stage = .removed j := by
        simpa only [Sys.put, Function.update_self] using here
      have inode : j = ino := by
        rcases now with rfl | rfl <;> exact Option.some.inj keeps
      rw [inode]
      exact (Function.update_self ..).trans (own j now)
    · have before : s.stage q = .running j ∨ s.stage q = .removed j := by
        simpa only [Sys.put, Function.update_of_ne mine] using here
      have apart : j ≠ ino := by
        intro same
        have first := (locked.owner q j).mpr (stages before)
        rw [same] at first
        exact mine (Option.some.inj (first.symm.trans ((locked.owner p ino).mpr holds)))
      exact (Function.update_of_ne apart _ _).trans (locked.content q j before)

inductive Moves (s : Sys) : Act → Sys → Prop where
  | opens {p} (here : s.stage p = .daemonized) : Moves s (.opens p) (s.opens p)
  | leaves {a p} (whose : a = .openFails p ∨ a = .lockfileFails p ∨ a = .exit p) : Moves s a (s.exit p)
  | grants {p ino} (opened : s.stage p = .opened ino) (free : s.free p ino) : Moves s (.lockfile p)
      {s.put p (.locked ino) with owner := Function.update s.owner ino (some p)}
  | refuses {p ino} (opened : s.stage p = .opened ino) : Moves s (.lockfile p) (s.put p .refused)
  | truncates {p ino} (here : s.stage p = .locked ino) : Moves s (.ftruncate p)
      {s.put p (.truncated ino) with content := Function.update s.content ino []}
  | writes {p ino} (here : s.stage p = .truncated ino) : Moves s (.write p)
      {s.put p (.running ino) with content := Function.update s.content ino (pidText p)}
  | removes {p ino} (here : s.stage p = .running ino) :
      Moves s (.sigterm p) {s.put p (.removed ino) with lockFile := none}

theorem stepMoves {s t : Sys} {a : Act} (taken : step s a = some t) : Moves s a t := by
  cases a with
  | opens p =>
    simp only [step] at taken
    split at taken
    · rename_i here
      cases taken
      exact .opens here
    · cases taken
  | openFails p =>
    simp only [step] at taken
    split at taken <;> cases taken
    exact .leaves (.inl rfl)
  | lockfile p =>
    simp only [step] at taken
    split at taken
    · rename_i ino opened
      split at taken
      · rename_i free
        cases taken
        exact .grants opened free
      · cases taken
        exact .refuses opened
    · cases taken
  | lockfileFails p =>
    simp only [step] at taken
    split at taken <;> cases taken
    exact .leaves (.inr (.inl rfl))
  | ftruncate p =>
    simp only [step] at taken
    split at taken
    · rename_i ino here
      cases taken
      exact .truncates here
    · cases taken
  | write p =>
    simp only [step] at taken
    split at taken
    · rename_i ino here
      cases taken
      exact .writes here
    · cases taken
  | sigterm p =>
    simp only [step] at taken
    split at taken
    · rename_i ino here
      cases taken
      exact .removes here
    · cases taken
  | exit p =>
    simp only [step] at taken
    split at taken <;> cases taken
    exact .leaves (.inr (.inr rfl))

theorem stepLocked {s t : Sys} {a : Act} (locked : Locked s) (taken : step s a = some t) : Locked t := by
  cases stepMoves taken with
  | opens here => exact opensLocked locked here
  | leaves => exact exitLocked locked
  | grants opened free => exact grantLocked locked opened free
  | refuses opened =>
    exact putLocked locked (by rw [opened]; rfl) (by rintro j (same | same) <;> cases same)
  | truncates here =>
    exact writeLocked locked (by rw [here]; rfl) rfl (by rintro j (same | same) <;> cases same)
  | writes here => exact writeLocked locked (by rw [here]; rfl) rfl fun _ _ => rfl
  | @removes p ino here =>
    have moved : Locked (s.put p (.removed ino)) := by
      refine putLocked locked (by rw [here]; rfl) fun j now => ?_
      rcases now with same | same
      · cases same
      · cases same
        exact locked.content p ino (.inl here)
    exact ⟨moved.owner, moved.content⟩

theorem runLocked {ok : Sys → Act → Prop} {labels : List Act} {last : Sys}
    (run : Run step ok boot labels last) : Locked last :=
  runInvariant Locked (fun _ _ _ locked _ taken => stepLocked locked taken) run bootLocked

def Stage.asks : Stage → Option Inode
  | .opened ino => some ino
  | _ => none

/- F_SETLK is granted only on the inode that LOCKFILE names. A process may meanwhile stand
between its remove(LOCKFILE) and its exit. -/
def OnName (s : Sys) : Act → Prop
  | .lockfile p => ∀ ino ∈ (s.stage p).asks, s.free p ino → s.lockFile = some ino
  | _ => True

instance (s : Sys) : (a : Act) → Decidable (OnName s a)
  | .lockfile p => inferInstanceAs (Decidable (∀ ino ∈ (s.stage p).asks, s.free p ino → _))
  | .opens _ | .openFails _ | .lockfileFails _ | .ftruncate _ | .write _ | .sigterm _ | .exit _ =>
    isTrue trivial

def Named (s : Sys) : Prop := ∀ p ino, (s.stage p).named = some ino → s.lockFile = some ino

theorem putNamed {s : Sys} {p : Proc} {stage : Stage} (names : Named s)
    (own : ∀ ino, stage.named = some ino → s.lockFile = some ino) : Named (s.put p stage) :=
  putEvery (fun _ stage => ∀ ino, stage.named = some ino → s.lockFile = some ino) own fun q _ => names q

theorem stepNamed {s t : Sys} {a : Act} (locked : Locked s) (names : Named s) (onName : OnName s a)
    (taken : step s a = some t) : Named t := by
  cases stepMoves taken with
  | @opens p here =>
    have quiet : ∀ ino, Named (s.put p (.opened ino)) := fun ino =>
      putNamed names fun j same => by cases same
    unfold Sys.opens
    split
    · exact quiet _
    · rename_i absent
      exact fun q ino same => absurd ((quiet s.next q ino same).symm.trans absent) (Option.some_ne_none ino)
  | @leaves a p whose =>
    exact @putNamed s p .exited names fun j same => by cases same
  | @grants p ino opened free =>
    have file : s.lockFile = some ino := onName ino (by rw [opened]; rfl) free
    exact @putNamed s p (.locked ino) names fun j same => Option.some.inj same ▸ file
  | refuses => exact putNamed names fun j same => by cases same
  | @truncates p ino here =>
    exact @putNamed s p (.truncated ino) names fun j same => names p j (by rw [here]; exact same)
  | @writes p ino here =>
    exact @putNamed s p (.running ino) names fun j same => names p j (by rw [here]; exact same)
  | @removes p ino here =>
    -- the lock of the one name is this process's, so no other stage names an inode
    intro q j same
    by_cases mine : q = p
    · subst mine
      simp only [Sys.put, Function.update_self] at same
      cases same
    · simp only [Sys.put, Function.update_of_ne mine] at same
      have inode : j = ino :=
        Option.some.inj ((names q j same).symm.trans (names p ino (by rw [here]; rfl)))
      have theirs := (locked.owner q j).mpr (namedHolds same)
      have ours := (locked.owner p ino).mpr (by rw [here]; rfl)
      rw [inode] at theirs
      exact absurd (Option.some.inj (theirs.symm.trans ours)) mine

theorem pidFileTells {labels : List Act} {last : Sys} (run : Run step (fun _ _ => True) boot labels last) :
    (∀ p ino, last.stage p = .running ino ∨ last.stage p = .removed ino →
      readPid (last.content ino) = p ∧ ∀ q, (last.stage q).holds = some ino → q = p) ∧
    (Run step OnName boot labels last → ∀ p ino, last.stage p = .running ino →
      last.lockFile.map (fun j => readPid (last.content j)) = some p) := by
  have locked := runLocked run
  have own : ∀ p ino, last.stage p = .running ino ∨ last.stage p = .removed ino →
      readPid (last.content ino) = p := by
    intro p ino here
    rw [locked.content p ino here, readPidText]
  refine ⟨fun p ino here => ⟨own p ino here, fun q holds => ?_⟩, fun named p ino runs => ?_⟩
  · have mine : (last.stage p).holds = some ino := by
      rcases here with here | here <;> rw [here] <;> rfl
    exact Option.some.inj (((locked.owner q ino).mpr holds).symm.trans ((locked.owner p ino).mpr mine))
  · have both := runInvariant (fun s => Locked s ∧ Named s)
      (fun _ _ _ before onName taken =>
        ⟨stepLocked before.1 taken, stepNamed before.1 before.2 onName taken⟩)
      named ⟨bootLocked, fun p ino same => by cases same⟩
    rw [both.2 p ino (by rw [runs]; rfl), Option.map_some, own p ino (.inl runs)]

def Stage.inode : Stage → Option Inode
  | .opened ino => some ino
  | stage => stage.holds

structure Numbered (s : Sys) : Prop where
  stages : ∀ p ino, (s.stage p).inode = some ino → ino < s.next
  file : ∀ ino, s.lockFile = some ino → ino < s.next

theorem holdsInode {stage : Stage} {ino : Inode} (holds : stage.holds = some ino) : stage.inode = some ino := by
  cases stage <;> first | exact holds | cases holds

theorem putNumbered {s : Sys} {p : Proc} {stage : Stage} (numbered : Numbered s)
    (own : ∀ ino, stage.inode = some ino → ino < s.next) : Numbered (s.put p stage) where
  stages := putEvery (fun _ stage => ∀ ino, stage.inode = some ino → ino < s.next) own
    (fun q _ => numbered.stages q)
  file := numbered.file

theorem opensNumbered {s : Sys} {p : Proc} (numbered : Numbered s) : Numbered (s.opens p) := by
  unfold Sys.opens
  split
  · rename_i ino named
    exact putNumbered numbered fun j same => Option.some.inj same ▸ numbered.file ino named
  · have later : Numbered {s with next := s.next + 1} :=
      ⟨fun q ino here => Nat.lt_succ_of_lt (numbered.stages q ino here),
        fun ino named => Nat.lt_succ_of_lt (numbered.file ino named)⟩
    have opened : Numbered ({s with next := s.next + 1}.put p (.opened s.next)) :=
      putNumbered later fun ino same => Option.some.inj same ▸ Nat.lt_succ_self _
    exact ⟨opened.stages, fun ino same => Option.some.inj same ▸ Nat.lt_succ_self _⟩

theorem laterNumbered {s : Sys} {p : Proc} {stage : Stage} (numbered : Numbered s)
    (same : ∀ ino, stage.inode = some ino → (s.stage p).inode = some ino) : Numbered (s.put p stage) :=
  putNumbered numbered fun ino here => numbered.stages p ino (same ino here)

theorem stepNumbered {s t : Sys} {a : Act} (numbered : Numbered s) (taken : step s a = some t) :
    Numbered t := by
  cases stepMoves taken with
  | opens => exact opensNumbered numbered
  | @leaves a p whose =>
    have moved := @laterNumbered s p .exited numbered (by intro ino here; cases here)
    exact ⟨moved.stages, moved.file⟩
  | @grants p ino opened free =>
    have moved := @laterNumbered s p (.locked ino) numbered (by rw [opened]; exact fun _ same => same)
    exact ⟨moved.stages, moved.file⟩
  | refuses => exact laterNumbered numbered (by intro j here; cases here)
  | @truncates p ino here =>
    have moved := @laterNumbered s p (.truncated ino) numbered (by rw [here]; exact fun _ same => same)
    exact ⟨moved.stages, moved.file⟩
  | @writes p ino here =>
    have moved := @laterNumbered s p (.running ino) numbered (by rw [here]; exact fun _ same => same)
    exact ⟨moved.stages, moved.file⟩
  | @removes p ino here =>
    have moved := @laterNumbered s p (.removed ino) numbered (by rw [here]; exact fun _ same => same)
    exact ⟨moved.stages, fun j named => by cases named⟩

def startsUp (p : Proc) : List Act := [.opens p, .lockfile p]

def writesPid (p : Proc) : List Act := [.ftruncate p, .write p]

def Sys.held (s : Sys) : Prop := ∃ q ino, s.lockFile = some ino ∧ (s.stage q).holds = some ino

theorem bootNumbered : Numbered boot :=
  ⟨fun _ ino here => (Option.some_ne_none ino here.symm).elim,
    fun ino named => (Option.some_ne_none ino named.symm).elim⟩

theorem startsFree {s : Sys} {p : Proc} {ino : Inode} (opened : s.stage p = .opened ino)
    (named : s.lockFile = some ino) (free : s.owner ino = none) :
    ∃ t, step s (.lockfile p) = some t ∧ t.stage p = .locked ino ∧
      ∃ u, exec step t (writesPid p) = some u ∧ u.stage p = .running ino ∧
        u.lockFile = some ino ∧ readPid (u.content ino) = p := by
  let granted : Sys := {s.put p (.locked ino) with owner := Function.update s.owner ino (some p)}
  let emptied : Sys := {granted.put p (.truncated ino) with content := Function.update granted.content ino []}
  let written : Sys := {emptied.put p (.running ino) with
    content := Function.update emptied.content ino (pidText p)}
  have locks : granted.stage p = .locked ino := Function.update_self ..
  have empties : emptied.stage p = .truncated ino := Function.update_self ..
  have first : step s (.lockfile p) = some granted := by
    rw [step, opened]
    exact if_pos (.inl free)
  have second : step granted (.ftruncate p) = some emptied := by rw [step, locks]
  have third : step emptied (.write p) = some written := by rw [step, empties]
  refine ⟨granted, first, locks, written, ?_, Function.update_self .., named, ?_⟩
  · simp only [writesPid, exec, second, third, Option.bind_some]
  · have text : written.content ino = pidText p := Function.update_self ..
    rw [text, readPidText]

theorem startsOpened {s : Sys} {p : Proc} {ino : Inode} (opens : step s (.opens p) = some (s.opens p))
    (opened : (s.opens p).stage p = .opened ino) (named : (s.opens p).lockFile = some ino)
    (free : (s.opens p).owner ino = none) (unheld : ¬ s.held) :
    ∃ t, exec step s (startsUp p) = some t ∧ (t.stage p = .refused ↔ s.held) ∧
      (¬ s.held → ∃ u ino, exec step t (writesPid p) = some u ∧ u.stage p = .running ino ∧
        u.lockFile = some ino ∧ readPid (u.content ino) = p) := by
  obtain ⟨t, taken, grants, u, writes, runs, still, tells⟩ := startsFree opened named free
  refine ⟨t, ?_, ⟨fun refused => ?_, fun held => absurd held unheld⟩,
    fun _ => ⟨u, ino, writes, runs, still, tells⟩⟩
  · simp only [startsUp, exec, opens, Option.bind_some, taken]
  · rw [grants] at refused
    cases refused

theorem startsUnlessHeld {labels : List Act} {last : Sys} (run : Run step (fun _ _ => True) boot labels last)
    {p : Proc} (here : last.stage p = .daemonized) :
    ∃ t, exec step last (startsUp p) = some t ∧ (t.stage p = .refused ↔ last.held) ∧
      (¬ last.held → ∃ u ino, exec step t (writesPid p) = some u ∧ u.stage p = .running ino ∧
        u.lockFile = some ino ∧ readPid (u.content ino) = p) := by
  have locked := runLocked run
  have numbered := runInvariant Numbered (fun _ _ _ before _ taken => stepNumbered before taken) run bootNumbered
  have opens : step last (.opens p) = some (last.opens p) := by rw [step, here]
  cases named : last.lockFile with
  | none =>
    have opened : last.opens p = {last.put p (.opened last.next) with
        lockFile := some last.next, next := last.next + 1} := by rw [Sys.opens, named]
    have unheld : ¬ last.held := by
      rintro ⟨q, ino, same, -⟩
      exact Option.some_ne_none ino (same.symm.trans named)
    have free : (last.opens p).owner last.next = none := by
      rw [opened]
      cases owner : last.owner last.next with
      | none => exact owner
      | some q =>
        have below := numbered.stages q last.next (holdsInode ((locked.owner q last.next).mp owner))
        exact absurd below (Nat.lt_irrefl _)
    have stage : (last.opens p).stage p = .opened last.next := by
      rw [opened]
      exact Function.update_self ..
    exact startsOpened opens stage (by rw [opened]) free unheld
  | some ino =>
    have opened : last.opens p = last.put p (.opened ino) := by rw [Sys.opens, named]
    have stage : (last.opens p).stage p = .opened ino := by
      rw [opened]
      exact Function.update_self ..
    have same : (last.opens p).owner ino = last.owner ino := by rw [opened]; rfl
    cases owner : last.owner ino with
    | none =>
      have unheld : ¬ last.held := by
        rintro ⟨q, j, other, holds⟩
        cases other.symm.trans named
        exact Option.some_ne_none q (((locked.owner q ino).mpr holds).symm.trans owner)
      exact startsOpened opens stage (by rw [opened]; exact named) (same.trans owner) unheld
    | some q =>
      have holds := (locked.owner q ino).mp owner
      have held : last.held := ⟨q, ino, named, holds⟩
      have taken : ¬ (last.opens p).free p ino := by
        rintro (free | mine)
        · exact Option.some_ne_none q ((same.trans owner).symm.trans free)
        · obtain rfl : q = p := Option.some.inj (owner.symm.trans (same.symm.trans mine))
          rw [here] at holds
          cases holds
      refine ⟨(last.opens p).put p .refused, ?_, ⟨fun _ => held, fun _ => Function.update_self ..⟩,
        fun unheld => absurd held unheld⟩
      simp only [startsUp, exec, opens, Option.bind_some]
      rw [step, stage]
      simp only [if_neg taken, Option.bind_some]

def died : List Act := [.opens 7, .lockfile 7, .ftruncate 7, .write 7, .exit 7]

theorem diedStarts :
    (∃ last, Run step (fun _ _ => True) boot (died.take 4) last ∧
      ∃ t, exec step last (startsUp 8) = some t ∧ t.stage 8 = .refused) ∧
    ∃ last, Run step (fun _ _ => True) boot died last ∧
      ∃ t, exec step last (startsUp 8) = some t ∧ t.stage 8 ≠ .refused ∧
        ∃ u ino, exec step t (writesPid 8) = some u ∧ u.stage 8 = .running ino ∧
          u.lockFile = some ino ∧ readPid (u.content ino) = 8 := by
  constructor
  · obtain ⟨last, run, seen⟩ := checkedEnd step (fun _ _ => True) boot (died.take 4)
      (fun s => (s.stage 8, s.stage 7, s.lockFile)) (.daemonized, .running 0, some 0) (by decide +kernel)
    simp only [Prod.mk.injEq] at seen
    obtain ⟨here, runs, file⟩ := seen
    obtain ⟨t, taken, refused, -⟩ := startsUnlessHeld run here
    exact ⟨last, run, t, taken, refused.mpr ⟨7, 0, file, by rw [runs]; rfl⟩⟩
  · obtain ⟨last, run, seen⟩ := checkedEnd step (fun _ _ => True) boot died
      (fun s => (s.stage 8, s.lockFile, s.owner 0)) (.daemonized, some 0, none) (by decide +kernel)
    simp only [Prod.mk.injEq] at seen
    obtain ⟨here, file, unowned⟩ := seen
    have unheld : ¬ last.held := by
      rintro ⟨q, ino, named, holds⟩
      obtain rfl : 0 = ino := Option.some.inj (file.symm.trans named)
      exact Option.some_ne_none q ((((runLocked run).owner q 0).mpr holds).symm.trans unowned)
    obtain ⟨t, taken, refused, starts⟩ := startsUnlessHeld run here
    exact ⟨last, run, t, taken, fun same => unheld (refused.mp same), starts unheld⟩

def overlapped : List Act :=
  [.opens 7, .lockfile 7, .ftruncate 7, .write 7, .sigterm 7,
   .opens 8, .lockfile 8, .ftruncate 8, .write 8]

theorem overlappedTells : ∃ last, Run step OnName boot overlapped last ∧
    last.stage 7 = .removed 0 ∧ readPid (last.content 0) = 7 ∧
    last.stage 8 = .running 1 ∧ last.lockFile.map (fun j => readPid (last.content j)) = some 8 := by
  obtain ⟨last, run, seen⟩ := checkedEnd step OnName boot overlapped (fun s => (s.stage 7, s.stage 8))
    (.removed 0, .running 1) (by decide +kernel)
  rw [Prod.mk.injEq] at seen
  obtain ⟨tells, named⟩ := pidFileTells (runFree run)
  exact ⟨last, run, seen.1, (tells 7 0 (.inr seen.1)).1, seen.2, named run 8 1 seen.2⟩

end OsLabs.DaemonLock
