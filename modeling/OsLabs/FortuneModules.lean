import Mathlib.Logic.Function.Basic
import OsLabs.Runs

/-! The two fortune modules of lab_04 beside one another. Both use the same three names in
/proc; initFortune and exitFortune of one are run in any order with those of the other,
statement by statement. Every entry is created in the root, and removed by its name. The
calls that print are left out. -/
namespace OsLabs.FortuneModules
open Runs

inductive Module where
  | fortune
  | seqfile
  deriving DecidableEq, Repr

inductive Name where
  | fortuneDir
  | fortuneFile
  | fortuneSymlink
  deriving DecidableEq, Repr

abbrev Path := List Name

def fortunePath : Module → Path
  | .fortune => [.fortuneFile]
  | .seqfile => [.fortuneDir, .fortuneFile]

inductive Entry where
  | dir
  | file
  | symlink (target : Path)
  deriving DecidableEq, Repr

def entryOf (m : Module) : Name → Entry
  | .fortuneDir => .dir
  | .fortuneFile => .file
  | .fortuneSymlink => .symlink (fortunePath m)

inductive Stage where
  | unloaded | vmalloc | memset | procMkdir | procCreate | procSymlink | reset | loaded
  | removeSymlink | removeFile | removeDir | vfree
  deriving DecidableEq, Repr

structure Loading where
  stage : Stage
  pointers : Name → Bool
  buffer : Bool

/- The entries of /proc with the module that created them. A fault is a removal of an entry
that is missing or belongs to the other module, or a vfree of nothing. -/
structure Sys where
  module : Module → Loading
  proc : Path → Option (Module × Entry)
  faults : Nat

def Sys.start : Sys := ⟨fun _ => ⟨.unloaded, fun _ => false, false⟩, fun _ => none, 0⟩

def Sys.goto (s : Sys) (m : Module) (stage : Stage) : Sys :=
  {s with module := Function.update s.module m {s.module m with stage := stage}}

/- proc_mkdir, proc_create or proc_symlink: NULL for a name that is taken, or without memory. -/
def create (s : Sys) (m : Module) (name : Name) (ok : Bool) (next : Stage) : Sys :=
  if ok = true ∧ s.proc [name] = none then
    {s with
      module := Function.update s.module m {s.module m with
        stage := next, pointers := Function.update (s.module m).pointers name true},
      proc := Function.update s.proc [name] (some (m, entryOf m name))}
  else s.goto m .removeSymlink

/- remove_proc_entry, when the pointer is not NULL. -/
def remove (s : Sys) (m : Module) (name : Name) (next : Stage) : Sys :=
  if (s.module m).pointers name then
    {s.goto m next with
      proc := Function.update s.proc [name] none,
      faults := if (s.proc [name]).map Prod.fst = some m then s.faults else s.faults + 1}
  else s.goto m next

inductive Act where
  | insmod
  | next (ok : Bool)
  | rmmod
  deriving DecidableEq, Repr

def nextStep (s : Sys) (m : Module) (ok : Bool) : Option Sys :=
  match (s.module m).stage with
  | .unloaded | .loaded => none
  | .vmalloc =>
      if ok then some {s with
        module := Function.update s.module m {s.module m with stage := .memset, buffer := true}}
      else some (s.goto m .unloaded)
  | .memset => some (s.goto m .procMkdir)
  | .procMkdir => some (create s m .fortuneDir ok .procCreate)
  | .procCreate => some (create s m .fortuneFile ok .procSymlink)
  | .procSymlink => some (create s m .fortuneSymlink ok .reset)
  | .reset => some (s.goto m .loaded)
  | .removeSymlink => some (remove s m .fortuneSymlink .removeFile)
  | .removeFile => some (remove s m .fortuneFile .removeDir)
  | .removeDir => some (remove s m .fortuneDir .vfree)
  | .vfree => some {s with
      module := Function.update s.module m {s.module m with stage := .unloaded, buffer := false},
      faults := if (s.module m).buffer then s.faults else s.faults + 1}

def step (s : Sys) (a : Module × Act) : Option Sys :=
  match a.2 with
  | .insmod =>
      if (s.module a.1).stage = .unloaded then
        some {s with module := Function.update s.module a.1 ⟨.vmalloc, fun _ => false, false⟩}
      else none
  | .next ok => nextStep s a.1 ok
  | .rmmod => if (s.module a.1).stage = .loaded then some (s.goto a.1 .removeSymlink) else none

def Stage.made : Stage → Name → Bool
  | .procCreate, .fortuneDir => true
  | .procSymlink, .fortuneDir | .procSymlink, .fortuneFile => true
  | .reset, _ | .loaded, _ => true
  | _, _ => false

def Stage.building : Stage → Bool
  | .vmalloc | .memset | .procMkdir | .procCreate | .procSymlink | .reset | .loaded => true
  | _ => false

def Stage.keeps : Stage → Name → Bool
  | .unloaded, _ | .vfree, _ => false
  | .removeFile, .fortuneSymlink => false
  | .removeDir, .fortuneSymlink | .removeDir, .fortuneFile => false
  | _, _ => true

def Stage.allocated : Stage → Bool
  | .unloaded | .vmalloc => false
  | _ => true

structure Fits (l : Loading) : Prop where
  made : l.stage.building = true → ∀ name, l.pointers name = l.stage.made name
  file : l.pointers .fortuneSymlink = true → l.pointers .fortuneFile = true
  dir : l.pointers .fortuneFile = true → l.pointers .fortuneDir = true
  buffer : l.buffer = l.stage.allocated

def Loading.owns (l : Loading) (name : Name) : Bool := l.pointers name && l.stage.keeps name

structure Placed (s : Sys) : Prop where
  fits : ∀ m, Fits (s.module m)
  owned : ∀ m name, s.proc [name] = some (m, entryOf m name) ↔ (s.module m).owns name = true
  only : ∀ p x, s.proc p = some x → ∃ m name, p = [name] ∧ x = (m, entryOf m name)
  faults : s.faults = 0

theorem startPlaced : Placed Sys.start :=
  ⟨fun _ => ⟨nofun, nofun, nofun, rfl⟩, fun _ _ => ⟨nofun, nofun⟩, nofun, rfl⟩

theorem placedSame {s : Sys} {m : Module} {l : Loading} (placed : Placed s) (fits : Fits l)
    (same : ∀ name, l.owns name = (s.module m).owns name) :
    Placed {s with module := Function.update s.module m l} := by
  refine ⟨fun n => ?_, fun n name => ?_, placed.only, placed.faults⟩
  · by_cases here : n = m
    · subst here
      simpa only [Function.update_self] using fits
    · simpa only [Function.update_of_ne here] using placed.fits n
  · by_cases here : n = m
    · subst here
      simp only [Function.update_self, same]
      exact placed.owned n name
    · simp only [Function.update_of_ne here]
      exact placed.owned n name

theorem placedGoto {s : Sys} {m : Module} {stage : Stage} (placed : Placed s)
    (made : stage.building = true → ∀ name, (s.module m).pointers name = stage.made name)
    (buffer : (s.module m).buffer = stage.allocated)
    (keeps : ∀ name, (s.module m).pointers name = true →
      stage.keeps name = (s.module m).stage.keeps name) : Placed (s.goto m stage) := by
  have fits := placed.fits m
  refine placedSame placed ⟨made, fits.file, fits.dir, buffer⟩ fun name => ?_
  unfold Loading.owns
  cases pointer : (s.module m).pointers name with
  | false => rw [Bool.false_and, Bool.false_and]
  | true => rw [Bool.true_and, Bool.true_and, keeps name pointer]

theorem madeFile (stage : Stage) (symlink : stage.made .fortuneSymlink = true) :
    stage.made .fortuneFile = true := by
  cases stage <;> first | rfl | contradiction

theorem madeDir (stage : Stage) (file : stage.made .fortuneFile = true) :
    stage.made .fortuneDir = true := by
  cases stage <;> first | rfl | contradiction

theorem buildingKeeps {stage : Stage} (building : stage.building = true) (name : Name) :
    stage.keeps name = true := by
  cases stage <;> first | rfl | contradiction

theorem madeFits {l : Loading} (made : ∀ name, l.pointers name = l.stage.made name)
    (buffer : l.buffer = l.stage.allocated) : Fits l :=
  ⟨fun _ => made, fun symlink => made .fortuneFile ▸ madeFile l.stage (made .fortuneSymlink ▸ symlink),
    fun file => made .fortuneDir ▸ madeDir l.stage (made .fortuneFile ▸ file), buffer⟩

theorem keepsFile (stage : Stage) (symlink : stage.keeps .fortuneSymlink = true) :
    stage.keeps .fortuneFile = true := by
  cases stage <;> first | rfl | contradiction

theorem oneOwner {s : Sys} (placed : Placed s) {m n : Module} {name : Name}
    (mine : (s.module m).owns name = true) (other : (s.module n).owns name = true) : m = n := by
  have first := (placed.owned m name).mpr mine
  have second := (placed.owned n name).mpr other
  exact (Prod.mk.inj (Option.some.inj (first.symm.trans second))).1

theorem placedChange {s : Sys} {m : Module} {l : Loading} {name : Name} {x : Option (Module × Entry)}
    (placed : Placed s) (fits : Fits l) (x_is : x = if l.owns name then some (m, entryOf m name) else none)
    (free : ∀ n, n ≠ m → (s.module n).owns name = false)
    (same : ∀ other, other ≠ name → l.owns other = (s.module m).owns other) :
    Placed {s with module := Function.update s.module m l, proc := Function.update s.proc [name] x} := by
  refine ⟨fun n => ?_, fun n other => ?_, fun p y found => ?_, placed.faults⟩
  · by_cases here : n = m
    · subst here
      simpa only [Function.update_self] using fits
    · simpa only [Function.update_of_ne here] using placed.fits n
  · by_cases there : other = name
    · subst there
      simp only [Function.update_self, x_is]
      by_cases here : n = m
      · subst here
        rw [Function.update_self]
        cases l.owns other <;> simp
      · rw [Function.update_of_ne here, free n here]
        cases l.owns other <;> simp [Ne.symm here]
    · have apart : [other] ≠ [name] := fun same => there (List.cons.inj same).1
      simp only [Function.update_of_ne apart]
      rw [placed.owned n other]
      by_cases here : n = m
      · subst here
        rw [Function.update_self, same other there]
      · rw [Function.update_of_ne here]
  · by_cases here : p = [name]
    · subst here
      simp only [Function.update_self, x_is] at found
      split at found
      · exact ⟨m, name, rfl, (Option.some.inj found).symm⟩
      · cases found
    · simp only [Function.update_of_ne here] at found
      exact placed.only p y found

theorem createPlaced {s : Sys} {m : Module} {name : Name} {ok : Bool} {next : Stage} (placed : Placed s)
    (building : (s.module m).stage.building = true) (still : next.building = true)
    (allocated : (s.module m).buffer = true) (all : next.allocated = true)
    (made : ∀ other, next.made other = if other = name then true else (s.module m).stage.made other) :
    Placed (create s m name ok next) := by
  have fits := placed.fits m
  unfold create
  split
  · rename_i free
    have pointers : ∀ other, Function.update (s.module m).pointers name true other = next.made other := by
      intro other
      rw [made other]
      by_cases here : other = name
      · subst here
        rw [Function.update_self, if_pos rfl]
      · rw [Function.update_of_ne here, if_neg here]
        exact fits.made building other
    refine placedChange placed (madeFits pointers (allocated.trans all.symm)) ?_ (fun n _ => ?_) fun other there => ?_
    · simp only [Loading.owns, Function.update_self, buildingKeeps still, Bool.and_self, if_true]
    · refine Bool.eq_false_iff.mpr fun owns => ?_
      have taken := (placed.owned n name).mpr owns
      rw [free.2] at taken
      cases taken
    · simp only [Loading.owns, Function.update_of_ne there, buildingKeeps still, buildingKeeps building]
  · exact placedGoto placed nofun allocated fun other _ => (buildingKeeps building other).symm

theorem removePlaced {s : Sys} {m : Module} {name : Name} {next : Stage} (placed : Placed s)
    (allocated : (s.module m).buffer = true) (cleaning : next.building = false)
    (all : next.allocated = true) (mine : (s.module m).stage.keeps name = true)
    (keeps : ∀ other, next.keeps other = if other = name then false else (s.module m).stage.keeps other) :
    Placed (remove s m name next) := by
  have fits := placed.fits m
  unfold remove
  split
  · rename_i pointer
    have owns : (s.module m).owns name = true := by rw [Loading.owns, pointer, mine]; rfl
    have here := (placed.owned m name).mpr owns
    rw [here, Option.map_some, if_pos rfl]
    refine placedChange placed ⟨fun building => ?_, fits.file, fits.dir, allocated.trans all.symm⟩ ?_
      (fun n other => ?_) fun other there => ?_
    · rw [cleaning] at building
      contradiction
    · simp only [Loading.owns, keeps, if_true, Bool.and_false, Bool.false_eq_true, if_false]
    · refine Bool.eq_false_iff.mpr fun also => other (oneOwner placed also owns)
    · simp only [Loading.owns, keeps, if_neg there]
  · rename_i pointer
    refine placedGoto placed (fun building => ?_) (allocated.trans all.symm) fun other held => ?_
    · rw [cleaning] at building
      contradiction
    · rw [keeps, if_neg]
      rintro rfl
      exact pointer held

theorem nextPlaced {s u : Sys} {m : Module} {ok : Bool} (placed : Placed s)
    (taken : nextStep s m ok = some u) : Placed u := by
  have fits := placed.fits m
  have buffer := fits.buffer
  unfold nextStep at taken
  cases stage : (s.module m).stage with
  | unloaded | loaded =>
    rw [stage] at taken
    contradiction
  | vmalloc =>
    rw [stage] at taken buffer
    have cleared : ∀ name, (s.module m).pointers name = false := by
      intro name
      rw [fits.made (by rw [stage]; rfl), stage]
      rfl
    cases ok with
    | true =>
      cases Option.some.inj taken
      exact placedSame placed (madeFits (fun name => by rw [cleared]; rfl) rfl)
        fun name => by simp only [Loading.owns, cleared, Bool.false_and]
    | false =>
      cases Option.some.inj taken
      exact placedGoto placed nofun buffer fun name held => by rw [cleared] at held; contradiction
  | memset =>
    rw [stage] at taken buffer
    cases Option.some.inj taken
    refine placedGoto placed (fun _ name => ?_) buffer fun name _ => by rw [stage]; cases name <;> rfl
    rw [fits.made (by rw [stage]; rfl), stage]
    rfl
  | procMkdir | procCreate | procSymlink =>
    rw [stage] at taken buffer
    cases Option.some.inj taken
    refine createPlaced placed (by rw [stage]; rfl) rfl buffer rfl fun other => ?_
    rw [stage]
    cases other <;> rfl
  | reset =>
    rw [stage] at taken buffer
    cases Option.some.inj taken
    refine placedGoto placed (fun _ name => ?_) buffer fun name _ => by rw [stage]; rfl
    rw [fits.made (by rw [stage]; rfl), stage]
    rfl
  | removeSymlink | removeFile | removeDir =>
    rw [stage] at taken buffer
    cases Option.some.inj taken
    refine removePlaced placed buffer rfl rfl (by rw [stage]; rfl) fun other => ?_
    rw [stage]
    cases other <;> rfl
  | vfree =>
    rw [stage] at taken buffer
    cases Option.some.inj taken
    have freed : (if (s.module m).buffer = true then s.faults else s.faults + 1) = s.faults := if_pos buffer
    rw [freed]
    exact placedSame placed ⟨nofun, fits.file, fits.dir, rfl⟩
      fun name => by simp only [Loading.owns, stage, Stage.keeps, Bool.and_false]

theorem stepPlaced {s u : Sys} {a : Module × Act} (placed : Placed s) (taken : step s a = some u) :
    Placed u := by
  obtain ⟨m, act⟩ := a
  cases act with
  | insmod =>
    simp only [step] at taken
    split at taken
    · rename_i unloaded
      cases Option.some.inj taken
      exact placedSame placed (madeFits (fun _ => rfl) rfl)
        fun name => by simp only [Loading.owns, unloaded, Stage.keeps, Bool.and_false, Bool.false_and]
    · contradiction
  | next ok => exact nextPlaced placed taken
  | rmmod =>
    simp only [step] at taken
    split at taken
    · rename_i loaded
      have buffer := (placed.fits m).buffer
      rw [loaded] at buffer
      cases Option.some.inj taken
      exact placedGoto placed nofun buffer fun name _ => by rw [loaded]; rfl
    · contradiction

theorem modulesExclude (labels : List (Module × Act)) (last : Sys)
    (run : Run step (fun _ _ => True) Sys.start labels last) :
    last.faults = 0 ∧
    (∀ m n, (last.module m).stage = .loaded → (last.module n).stage = .loaded → m = n) ∧
    (∀ m, (last.module m).stage = .loaded → ∀ name, last.proc [name] = some (m, entryOf m name)) ∧
    (∀ m, (last.module m).stage = .unloaded →
      (last.module m).buffer = false ∧ ∀ p e, last.proc p ≠ some (m, e)) ∧
    (∀ m target, last.proc [.fortuneSymlink] = some (m, .symlink target) →
      last.proc target = if m = .fortune then some (m, .file) else none) := by
  have placed := runInvariant Placed (fun _ _ _ before _ taken => stepPlaced before taken) run startPlaced
  have loaded : ∀ m, (last.module m).stage = .loaded → ∀ name, (last.module m).owns name = true := by
    intro m stage name
    rw [Loading.owns, (placed.fits m).made (by rw [stage]; rfl), stage]
    rfl
  refine ⟨placed.faults,
    fun m n first second => oneOwner placed (loaded m first .fortuneDir) (loaded n second .fortuneDir),
    fun m stage name => (placed.owned m name).mpr (loaded m stage name), fun m stage => ⟨?_, fun p e found => ?_⟩,
    fun m target found => ?_⟩
  · rw [(placed.fits m).buffer, stage]
    rfl
  · obtain ⟨n, name, rfl, same⟩ := placed.only p _ found
    cases (Prod.mk.inj same).1
    have owns := (placed.owned m name).mp (by rw [found, same])
    rw [Loading.owns, stage, Stage.keeps, Bool.and_false] at owns
    contradiction
  · obtain ⟨n, name, path, same⟩ := placed.only _ _ found
    cases (List.cons.inj path).1
    obtain ⟨rfl, entry⟩ := Prod.mk.inj same
    cases entry
    have owns := (placed.owned m .fortuneSymlink).mp found
    rw [Loading.owns, Bool.and_eq_true] at owns
    have file : (last.module m).owns .fortuneFile = true := by
      rw [Loading.owns, (placed.fits m).file owns.1, keepsFile _ owns.2]
      rfl
    cases m with
    | fortune => exact (placed.owned .fortune .fortuneFile).mpr file
    | seqfile =>
      rw [if_neg (by decide)]
      cases there : last.proc (fortunePath .seqfile) with
      | none => rfl
      | some x =>
        obtain ⟨n, name, root, _⟩ := placed.only _ _ there
        cases root

def inTurn : List (Module × Act) :=
  (.seqfile, .insmod) :: List.replicate 6 (.seqfile, .next true) ++
    (.fortune, .insmod) :: List.replicate 7 (.fortune, .next true) ++
    (.seqfile, .rmmod) :: List.replicate 4 (.seqfile, .next true) ++
    (.fortune, .insmod) :: List.replicate 6 (.fortune, .next true)

theorem inTurnLoads : ∃ last, Run step (fun _ _ => True) Sys.start inTurn last ∧ last.faults = 0 ∧
    last.proc [.fortuneSymlink] = some (.fortune, .symlink [.fortuneFile]) ∧
    last.proc [.fortuneFile] = some (.fortune, .file) := by
  obtain ⟨last, run, loaded⟩ := checkedEnd step (fun _ _ => True) Sys.start inTurn
    (fun s => (s.module .fortune).stage) .loaded (by decide +kernel)
  obtain ⟨sound, _, entries, _, resolves⟩ := modulesExclude inTurn last run
  have symlink := entries .fortune loaded .fortuneSymlink
  exact ⟨last, run, sound, symlink, resolves .fortune _ symlink⟩

end OsLabs.FortuneModules
