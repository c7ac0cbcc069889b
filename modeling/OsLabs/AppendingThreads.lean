import OsLabs.BufferedWriter
import OsLabs.CMemory
import OsLabs.Runs

/-! app3_threads.c of lab_05: two threads append to one file, each through a stream of its
own. Opens and writes succeed and every write goes to the end of the file; stdio may pass
buffered bytes on at any time before fclose. No lock holds getInfo together, so its stat and its
printf are statements of their own; of what it prints the size is kept. -/
namespace OsLabs.AppendingThreads
open CMemory (Byte)
open BufferedWriter SharedStream Runs

inductive Thread where
  | main
  | launchThread
  deriving DecidableEq, Repr

inductive Place where
  | waiting
  | opening
  | opened
  | shows
  | writing (c : Nat)
  | closed
  | showsAgain
  | ended
  | returned
  | failed
  deriving DecidableEq, Repr

def argument : Thread → Nat
  | .launchThread => 65
  | .main => 66

/- `size` is st_size in the statbuf of each thread, `reports` lists the sizes printed. -/
structure Sys where
  writers : Writers Thread Byte
  place : Thread → Place
  size : Thread → Nat
  reports : List (Thread × Nat)

def Sys.start (old : List Byte) : Sys := ⟨Writers.opened old, fun _ => .waiting, fun _ => 0, []⟩

def Sys.enter (s : Sys) (who : Thread) (place : Place) : Sys :=
  {s with place := Function.update s.place who place}

def Sys.stat (s : Sys) (who : Thread) : Sys :=
  {s with size := Function.update s.size who s.writers.file.length}

def Sys.printf (s : Sys) (who : Thread) : Sys := {s with reports := s.reports ++ [(who, s.size who)]}

inductive Act where
  | creates (succeeds : Bool)
  | opens (who : Thread)
  | stats (who : Thread)
  | shows (who : Thread)
  | prints (who : Thread)
  | passes (who : Thread) (k : Nat)
  | closes (who : Thread)
  | joins
  deriving DecidableEq, Repr

/- main returns -1 when pthread_create fails, and waits for the thread at its end. -/
def step (s : Sys) : Act → Option Sys
  | .creates succeeds =>
      if s.place .main = .waiting then
        if succeeds then some {s with place := fun _ => .opening} else some (s.enter .main .failed)
      else none
  | .opens who => if s.place who = .opening then some (s.enter who .opened) else none
  | .stats who => match s.place who with
      | .opened => some ((s.stat who).enter who .shows)
      | .closed => some ((s.stat who).enter who .showsAgain)
      | _ => none
  | .shows who => match s.place who with
      | .shows => some ((s.printf who).enter who (.writing (argument who)))
      | .showsAgain => some ((s.printf who).enter who .ended)
      | _ => none
  | .prints who => match s.place who with
      | .writing c =>
          if c ≤ 90 then
            some ({s with writers := put s.writers who (UInt8.ofNat c)}.enter who (.writing (c + 2)))
          else none
      | _ => none
  | .passes who k =>
      if 0 < k ∧ k ≤ (s.writers.buffer who).length then some {s with writers := passEnd s.writers who k}
      else none
  | .closes who => match s.place who with
      | .writing c =>
          if 90 < c then
            some ({s with writers := passEnd s.writers who (s.writers.buffer who).length}.enter who .closed)
          else none
      | _ => none
  | .joins =>
      if s.place .main = .ended ∧ s.place .launchThread = .ended then some (s.enter .main .returned)
      else none

def printedBefore (first c : Nat) : List Byte :=
  (List.range ((c - first) / 2)).map (fun n => UInt8.ofNat (first + 2 * n))

def letters (who : Thread) : List Byte := printedBefore (argument who) (argument who + 26)

theorem printedNext {first c n : Nat} (here : c = first + 2 * n) :
    printedBefore first (c + 2) = printedBefore first c ++ [UInt8.ofNat c] := by
  have more : (c + 2 - first) / 2 = n + 1 := by omega
  have half : (c - first) / 2 = n := by omega
  rw [printedBefore, printedBefore, more, half, List.range_succ, List.map_append, here]
  rfl

theorem lastLetter {who : Thread} {c n : Nat} (here : c = argument who + 2 * n)
    (bound : c ≤ argument who + 26) : c ≤ 90 → c + 2 ≤ argument who + 26 := by
  cases who <;> simp only [argument] at * <;> omega

theorem afterLast {who : Thread} {c : Nat} (bound : c ≤ argument who + 26) (past : 90 < c)
    {n : Nat} (here : c = argument who + 2 * n) : c = argument who + 26 := by
  cases who <;> simp only [argument] at * <;> omega

def Stands (who : Thread) (given buffer : List Byte) : Place → Prop
  | .waiting | .opening | .opened | .shows | .failed => given = []
  | .writing c => given = printedBefore (argument who) c ∧ c ≤ argument who + 26 ∧
      ∃ n, c = argument who + 2 * n
  | .closed | .showsAgain | .ended | .returned => given = letters who ∧ buffer = []

def Place.shut : Place → Bool
  | .closed | .showsAgain | .ended | .returned => true
  | _ => false

def Place.measured : Place → Bool
  | .showsAgain | .ended | .returned => true
  | _ => false

def Tells (old file : Nat) (shown : List Nat) (size : Nat) : Place → Prop
  | .waiting | .opening | .opened | .failed => shown = []
  | .shows => shown = [] ∧ old ≤ size ∧ size ≤ file
  | .writing _ | .closed => ∃ first, shown = [first] ∧ old ≤ first ∧ first ≤ file
  | .showsAgain => ∃ first, shown = [first] ∧ old ≤ first ∧ first ≤ size ∧ old + 13 ≤ size ∧ size ≤ file
  | .ended | .returned =>
      ∃ first, shown = [first, size] ∧ old ≤ first ∧ first ≤ size ∧ old + 13 ≤ size ∧ size ≤ file

structure Ordered (place : Thread → Place) : Prop where
  waits : place .main = .waiting ∨ place .main = .failed → place .launchThread = .waiting
  joined : place .main = .returned → place .launchThread = .ended

structure Sized (old : List Byte) (s : Sys) : Prop where
  tells : ∀ who, Tells old.length s.writers.file.length (owned s.reports who) (s.size who) (s.place who)
  latest : (∀ who, (s.place who).measured = true) → ∃ who, s.size who = s.writers.file.length

structure Keeps (old : List Byte) (s : Sys) (log : List (Thread × Byte)) : Prop where
  appended : Appended old s.writers log
  stands : ∀ who, Stands who (s.writers.given who) (s.writers.buffer who) (s.place who)
  ordered : Ordered s.place
  sized : Sized old s

theorem startKeeps (old : List Byte) : Keeps old (Sys.start old) [] :=
  ⟨openedAppended old, fun _ => rfl, ⟨fun _ => rfl, fun place => by cases place⟩,
    ⟨fun _ => rfl, fun measured => Bool.noConfusion (measured .main)⟩⟩

theorem standsEnter {v w : Writers Thread Byte} {place : Thread → Place} {who : Thread} {next : Place}
    (stands : ∀ t, Stands t (v.given t) (v.buffer t) (place t))
    (own : Stands who (w.given who) (w.buffer who) next)
    (frame : ∀ t, t ≠ who → w.given t = v.given t ∧ w.buffer t = v.buffer t) (t : Thread) :
    Stands t (w.given t) (w.buffer t) (Function.update place who next t) := by
  by_cases here : t = who
  · subst here
    rw [Function.update_self]
    exact own
  · rw [Function.update_of_ne here, (frame t here).1, (frame t here).2]
    exact stands t

def Place.running : Place → Bool
  | .opening | .opened | .shows | .writing _ | .closed | .showsAgain => true
  | _ => false

theorem orderedEnter {place : Thread → Place} {who : Thread} {next : Place} (ordered : Ordered place)
    (before : (place who).running = true) (after : next.running = true ∨ next = .ended) :
    Ordered (Function.update place who next) := by
  have begun : place who ≠ .waiting ∧ place who ≠ .ended := by
    constructor <;> intro here <;> rw [here] at before <;> exact Bool.noConfusion before
  have entered : next ≠ .waiting ∧ next ≠ .failed ∧ next ≠ .returned := by
    rcases after with running | rfl
    · refine ⟨?_, ?_, ?_⟩ <;> rintro rfl <;> exact Bool.noConfusion running
    · exact ⟨by simp, by simp, by simp⟩
  cases who with
  | main =>
    refine ⟨fun main => ?_, fun main => ?_⟩
    · rw [Function.update_self] at main
      exact absurd main (not_or.mpr ⟨entered.1, entered.2.1⟩)
    · rw [Function.update_self] at main
      exact absurd main entered.2.2
  | launchThread =>
    refine ⟨fun main => ?_, fun main => ?_⟩
    · exact absurd (ordered.waits main) begun.1
    · exact absurd (ordered.joined main) begun.2

theorem tellsLonger {old file more size : Nat} {shown : List Nat} {place : Place}
    (tells : Tells old file shown size place) (longer : file ≤ more) : Tells old more shown size place := by
  cases place with
  | waiting | opening | opened | failed => exact tells
  | shows => exact ⟨tells.1, tells.2.1, Nat.le_trans tells.2.2 longer⟩
  | writing | closed =>
    obtain ⟨first, shown, low, high⟩ := tells
    exact ⟨first, shown, low, Nat.le_trans high longer⟩
  | showsAgain | ended | returned =>
    obtain ⟨first, shown, low, less, all, high⟩ := tells
    exact ⟨first, shown, low, less, all, Nat.le_trans high longer⟩

theorem sizedEnter {old : List Byte} {s u : Sys} {who : Thread} (sized : Sized old s)
    (longer : s.writers.file.length ≤ u.writers.file.length)
    (frame : ∀ t, t ≠ who →
      owned u.reports t = owned s.reports t ∧ u.size t = s.size t ∧ u.place t = s.place t)
    (own : Tells old.length u.writers.file.length (owned u.reports who) (u.size who) (u.place who))
    (latest : (∀ t, (u.place t).measured = true) → ∃ t, u.size t = u.writers.file.length) : Sized old u := by
  refine ⟨fun t => ?_, latest⟩
  by_cases here : t = who
  · subst here
    exact own
  · obtain ⟨reports, size, place⟩ := frame t here
    rw [reports, size, place]
    exact tellsLonger (sized.tells t) longer

theorem placeFrame {s : Sys} {who : Thread} {next : Place} (t : Thread) (other : t ≠ who) :
    Function.update s.place who next t = s.place t := Function.update_of_ne other _ _

theorem notMeasured {s : Sys} {who : Thread} {next : Place} (early : next.measured = false) {P : Prop}
    (all : ∀ t, (Function.update s.place who next t).measured = true) : P := by
  have own := all who
  rw [Function.update_self, early] at own
  exact Bool.noConfusion own

theorem sizedMoves {old : List Byte} {s : Sys} {who : Thread} {w : Writers Thread Byte} {next : Place}
    (sized : Sized old s) (longer : s.writers.file.length ≤ w.file.length) (early : next.measured = false)
    (own : Tells old.length w.file.length (owned s.reports who) (s.size who) next) :
    Sized old ({s with writers := w}.enter who next) := by
  refine @sizedEnter old s _ who sized longer
    (fun t other => ⟨rfl, rfl, placeFrame t other⟩) ?_ (notMeasured early)
  change Tells _ _ _ _ (Function.update s.place who next who)
  rw [Function.update_self]
  exact own

theorem sizedStat {old : List Byte} {s : Sys} {who : Thread} {next : Place} (sized : Sized old s)
    (own : Tells old.length s.writers.file.length (owned s.reports who) s.writers.file.length next) :
    Sized old ((s.stat who).enter who next) := by
  refine @sizedEnter old s _ who sized (Nat.le_refl _)
    (fun t other => ⟨rfl, Function.update_of_ne other _ _, placeFrame t other⟩) ?_
    (fun _ => ⟨who, Function.update_self ..⟩)
  change Tells _ _ _ (Function.update s.size who s.writers.file.length who)
    (Function.update s.place who next who)
  rw [Function.update_self, Function.update_self]
  exact own

theorem sizedPrintf {old : List Byte} {s : Sys} {who : Thread} {next : Place} (sized : Sized old s)
    (same : next.measured = (s.place who).measured)
    (own : Tells old.length s.writers.file.length (owned s.reports who ++ [s.size who]) (s.size who) next) :
    Sized old ((s.printf who).enter who next) := by
  refine @sizedEnter old s _ who sized (Nat.le_refl _)
    (fun t other => ⟨ownedOther _ other.symm _, rfl, placeFrame t other⟩) ?_
    (fun all => sized.latest fun t => ?_)
  · change Tells _ _ (owned (s.reports ++ [(who, s.size who)]) who) _ (Function.update s.place who next who)
    rw [ownedHere, Function.update_self]
    exact own
  · have here : (Function.update s.place who next t).measured = true := all t
    by_cases other : t = who
    · subst other
      rwa [Function.update_self, same] at here
    · rwa [Function.update_of_ne other] at here

theorem passLonger (w : Writers Thread Byte) (who : Thread) (k : Nat) :
    w.file.length ≤ (passEnd w who k).file.length := by
  simp only [passEnd, List.length_append]
  omega

inductive Moves (s : Sys) : Act → Sys → Prop where
  | creates (waiting : s.place .main = .waiting) :
      Moves s (.creates true) {s with place := fun _ => .opening}
  | refused (waiting : s.place .main = .waiting) : Moves s (.creates false) (s.enter .main .failed)
  | opens {who} (opening : s.place who = .opening) : Moves s (.opens who) (s.enter who .opened)
  | stats {who} (opened : s.place who = .opened) : Moves s (.stats who) ((s.stat who).enter who .shows)
  | statsAgain {who} (closed : s.place who = .closed) :
      Moves s (.stats who) ((s.stat who).enter who .showsAgain)
  | shows {who} (measured : s.place who = .shows) :
      Moves s (.shows who) ((s.printf who).enter who (.writing (argument who)))
  | showsAgain {who} (measured : s.place who = .showsAgain) :
      Moves s (.shows who) ((s.printf who).enter who .ended)
  | prints {who c} (writing : s.place who = .writing c) (inside : c ≤ 90) : Moves s (.prints who)
      ({s with writers := put s.writers who (UInt8.ofNat c)}.enter who (.writing (c + 2)))
  | passes {who k} (held : 0 < k ∧ k ≤ (s.writers.buffer who).length) :
      Moves s (.passes who k) {s with writers := passEnd s.writers who k}
  | closes {who c} (writing : s.place who = .writing c) (past : 90 < c) : Moves s (.closes who)
      ({s with writers := passEnd s.writers who (s.writers.buffer who).length}.enter who .closed)
  | joins (both : s.place .main = .ended ∧ s.place .launchThread = .ended) :
      Moves s .joins (s.enter .main .returned)

theorem stepMoves {s u : Sys} {a : Act} (taken : step s a = some u) : Moves s a u := by
  cases a with
  | creates succeeds =>
    simp only [step] at taken
    split at taken
    · rename_i waiting
      cases succeeds with
      | true =>
        cases Option.some.inj taken
        exact .creates waiting
      | false =>
        cases Option.some.inj taken
        exact .refused waiting
    · contradiction
  | opens who =>
    simp only [step] at taken
    split at taken
    · rename_i opening
      cases Option.some.inj taken
      exact .opens opening
    · contradiction
  | stats who =>
    simp only [step] at taken
    split at taken
    · rename_i opened
      cases Option.some.inj taken
      exact .stats opened
    · rename_i closed
      cases Option.some.inj taken
      exact .statsAgain closed
    · contradiction
  | shows who =>
    simp only [step] at taken
    split at taken
    · rename_i measured
      cases Option.some.inj taken
      exact .shows measured
    · rename_i measured
      cases Option.some.inj taken
      exact .showsAgain measured
    · contradiction
  | prints who =>
    simp only [step] at taken
    split at taken
    · rename_i c writing
      split at taken
      · rename_i inside
        cases Option.some.inj taken
        exact .prints writing inside
      · contradiction
    · contradiction
  | passes who k =>
    simp only [step] at taken
    split at taken
    · rename_i held
      cases Option.some.inj taken
      exact .passes held
    · contradiction
  | closes who =>
    simp only [step] at taken
    split at taken
    · rename_i c writing
      split at taken
      · rename_i past
        cases Option.some.inj taken
        exact .closes writing past
      · contradiction
    · contradiction
  | joins =>
    simp only [step] at taken
    split at taken
    · rename_i both
      cases Option.some.inj taken
      exact .joins both
    · contradiction

theorem waitingNothing {s : Sys} (stands : ∀ t, Stands t (s.writers.given t) (s.writers.buffer t) (s.place t))
    (ordered : Ordered s.place) (waiting : s.place .main = .waiting) (t : Thread) :
    s.writers.given t = [] := by
  have here := stands t
  cases t with
  | main => rwa [waiting] at here
  | launchThread => rwa [ordered.waits (.inl waiting)] at here

theorem entersKeeps {old : List Byte} {s u : Sys} {log : List (Thread × Byte)} {who : Thread} {next : Place}
    (keeps : Keeps old s log) (same : u.writers = s.writers) (place : u.place = Function.update s.place who next)
    (own : Stands who (s.writers.given who) (s.writers.buffer who) next) (ordered : Ordered u.place)
    (sized : Sized old u) : Keeps old u log := by
  refine ⟨same ▸ keeps.appended, fun t => ?_, ordered, sized⟩
  rw [same, place]
  exact standsEnter keeps.stands own (fun _ _ => ⟨rfl, rfl⟩) t

theorem printsKeeps {old : List Byte} {s : Sys} {log : List (Thread × Byte)} {who : Thread} {c : Nat}
    (keeps : Keeps old s log) (writing : s.place who = .writing c) (inside : c ≤ 90) :
    Keeps old ({s with writers := put s.writers who (UInt8.ofNat c)}.enter who (.writing (c + 2))) log := by
  have own := keeps.stands who
  rw [writing] at own
  obtain ⟨given, bound, n, place⟩ := own
  have longer : (put s.writers who (UInt8.ofNat c)).given who = printedBefore (argument who) (c + 2) := by
    simp only [put, Function.update_self, given, printedNext place]
  have frame : ∀ t, t ≠ who → (put s.writers who (UInt8.ofNat c)).given t = s.writers.given t ∧
      (put s.writers who (UInt8.ofNat c)).buffer t = s.writers.buffer t := by
    intro t other
    exact ⟨Function.update_of_ne other _ _, Function.update_of_ne other _ _⟩
  have tells := keeps.sized.tells who
  rw [writing] at tells
  exact ⟨putAppended keeps.appended who _,
    standsEnter keeps.stands ⟨longer, lastLetter place bound inside, n + 1, by omega⟩ frame,
    orderedEnter keeps.ordered (by rw [writing]; rfl) (.inl rfl),
    sizedMoves keeps.sized (Nat.le_refl _) rfl tells⟩

theorem passesKeeps {old : List Byte} {s : Sys} {log : List (Thread × Byte)} {who : Thread} {k : Nat}
    (keeps : Keeps old s log) (held : 0 < k ∧ k ≤ (s.writers.buffer who).length) :
    ∃ log, Keeps old {s with writers := passEnd s.writers who k} log := by
  have holds : s.writers.buffer who ≠ [] := by
    intro empty
    rw [empty, List.length_nil] at held
    omega
  have own := keeps.stands who
  have early : (s.place who).measured = false := by
    cases place : s.place who <;> rw [place] at own
    case showsAgain | ended | returned => exact absurd own.2 holds
    all_goals rfl
  refine ⟨_, passAppended keeps.appended who k, fun t => ?_, ⟨keeps.ordered.waits, keeps.ordered.joined⟩,
    @sizedEnter old s _ who keeps.sized (passLonger _ _ _) (fun _ _ => ⟨rfl, rfl, rfl⟩)
      (tellsLonger (keeps.sized.tells who) (passLonger _ _ _)) fun all => ?_⟩
  · by_cases here : t = who
    · subst here
      cases place : s.place t <;> rw [place] at own
      case closed | showsAgain | ended | returned => exact absurd own.2 holds
      all_goals exact own
    · simp only [passEnd, Function.update_of_ne here]
      exact keeps.stands t
  · exact Bool.noConfusion (early.symm.trans (all who))

theorem closesKeeps {old : List Byte} {s : Sys} {log : List (Thread × Byte)} {who : Thread} {c : Nat}
    (keeps : Keeps old s log) (writing : s.place who = .writing c) (past : 90 < c) :
    ∃ log, Keeps old
      ({s with writers := passEnd s.writers who (s.writers.buffer who).length}.enter who .closed) log := by
  have own := keeps.stands who
  rw [writing] at own
  obtain ⟨given, bound, n, place⟩ := own
  rw [afterLast bound past place] at given
  have empty : (passEnd s.writers who (s.writers.buffer who).length).buffer who = [] := by
    simp only [passEnd, Function.update_self, List.drop_length]
  have frame : ∀ t, t ≠ who →
      (passEnd s.writers who (s.writers.buffer who).length).given t = s.writers.given t ∧
      (passEnd s.writers who (s.writers.buffer who).length).buffer t = s.writers.buffer t := by
    intro t other
    exact ⟨rfl, Function.update_of_ne other _ _⟩
  have tells := keeps.sized.tells who
  rw [writing] at tells
  have longer := passLonger s.writers who (s.writers.buffer who).length
  have shown : Tells old.length _ _ (s.size who) .closed := tellsLonger tells longer
  exact ⟨_, passAppended keeps.appended who _, standsEnter keeps.stands ⟨given, empty⟩ frame,
    orderedEnter keeps.ordered (by rw [writing]; rfl) (.inl rfl),
    sizedMoves keeps.sized longer rfl shown⟩

theorem lettersLength (who : Thread) : (letters who).length = 13 := by
  cases who <;> rfl

theorem oldInside {old : List Byte} {w : Writers Thread Byte} {log : List (Thread × Byte)}
    (appended : Appended old w log) : old.length ≤ w.file.length := by
  rw [appended.file, List.length_append]
  exact Nat.le_add_right _ _

theorem closedInside {old : List Byte} {w : Writers Thread Byte} {log : List (Thread × Byte)} {who : Thread}
    (appended : Appended old w log) (given : w.given who = letters who) (empty : w.buffer who = []) :
    old.length + 13 ≤ w.file.length := by
  have all : owned log who = letters who := by
    rw [← given, appended.given who, empty, List.append_nil]
  have fewer : (owned log who).length ≤ log.length := by
    rw [owned, List.length_map]
    exact List.length_filter_le _ _
  rw [all, lettersLength] at fewer
  rw [appended.file, List.length_append, List.length_map]
  omega

theorem stepKeeps {old : List Byte} {s u : Sys} {a : Act} {log : List (Thread × Byte)}
    (keeps : Keeps old s log) (taken : step s a = some u) : ∃ log, Keeps old u log := by
  have ⟨appended, stands, ordered, sized⟩ := keeps
  cases stepMoves taken with
  | creates waiting =>
    have empty : ∀ t, s.writers.given t = [] := waitingNothing stands ordered waiting
    refine ⟨log, appended, empty, ⟨fun main => ?_, fun main => by cases main⟩, fun t => ?_,
      fun all => Bool.noConfusion (all .main)⟩
    · rcases main with main | main <;> cases main
    · have tells := sized.tells t
      cases t with
      | main => rwa [waiting] at tells
      | launchThread => rwa [ordered.waits (.inl waiting)] at tells
  | refused waiting =>
    have empty := waitingNothing stands ordered waiting .main
    have tells := sized.tells .main
    rw [waiting] at tells
    exact ⟨log, entersKeeps keeps rfl rfl empty
      ⟨fun _ => ordered.waits (.inl waiting), fun main => by cases main⟩
      (sizedMoves sized (Nat.le_refl _) rfl tells)⟩
  | @opens who opening =>
    have own := stands who
    have tells := sized.tells who
    have running : (s.place who).running = true := by rw [opening]; rfl
    rw [opening] at own tells
    exact ⟨log, entersKeeps keeps rfl rfl own (orderedEnter ordered running (.inl rfl))
      (sizedMoves sized (Nat.le_refl _) rfl tells)⟩
  | @stats who opened =>
    have own := stands who
    have tells := sized.tells who
    have running : (s.place who).running = true := by rw [opened]; rfl
    rw [opened] at own tells
    exact ⟨log, entersKeeps keeps rfl rfl own (orderedEnter ordered running (.inl rfl))
      (sizedStat sized ⟨tells, oldInside appended, Nat.le_refl _⟩)⟩
  | @statsAgain who closed =>
    have own := stands who
    have tells := sized.tells who
    have running : (s.place who).running = true := by rw [closed]; rfl
    rw [closed] at own tells
    obtain ⟨first, shown, low, high⟩ := tells
    exact ⟨log, entersKeeps keeps rfl rfl own (orderedEnter ordered running (.inl rfl))
      (sizedStat sized ⟨first, shown, low, high, closedInside appended own.1 own.2, Nat.le_refl _⟩)⟩
  | @shows who measured =>
    have own := stands who
    have tells := sized.tells who
    have running : (s.place who).running = true := by rw [measured]; rfl
    rw [measured] at own tells
    have first : printedBefore (argument who) (argument who) = [] := by
      rw [printedBefore, Nat.sub_self]
      rfl
    exact ⟨log, entersKeeps keeps rfl rfl ⟨own.trans first.symm, Nat.le_add_right _ _, 0, rfl⟩
      (orderedEnter ordered running (.inl rfl))
      (sizedPrintf sized (by rw [measured]; rfl) ⟨_, by rw [tells.1]; rfl, tells.2⟩)⟩
  | @showsAgain who measured =>
    have own := stands who
    have tells := sized.tells who
    have running : (s.place who).running = true := by rw [measured]; rfl
    rw [measured] at own tells
    obtain ⟨first, shown, bounds⟩ := tells
    exact ⟨log, entersKeeps keeps rfl rfl own (orderedEnter ordered running (.inr rfl))
      (sizedPrintf sized (by rw [measured]; rfl) ⟨first, by rw [shown]; rfl, bounds⟩)⟩
  | prints writing inside => exact ⟨log, printsKeeps keeps writing inside⟩
  | passes held => exact passesKeeps keeps held
  | closes writing past => exact closesKeeps keeps writing past
  | joins both =>
    have own := stands .main
    have tells := sized.tells .main
    rw [both.1] at own tells
    refine ⟨log, entersKeeps keeps rfl rfl own ⟨fun main => ?_, fun _ => both.2⟩ ?_⟩
    · rcases main with main | main <;> cases main
    · refine @sizedEnter old s _ .main sized (Nat.le_refl _) (fun t other => ⟨rfl, rfl, placeFrame t other⟩)
        tells fun _ => sized.latest fun who => ?_
      cases who with
      | main => rw [both.1]; rfl
      | launchThread => rw [both.2]; rfl

structure Whole (old : List Byte) (w : Writers Thread Byte) (place : Thread → Place)
    (order : List Thread) : Prop where
  apart : order.Nodup
  closed : ∀ who, who ∈ order ↔ (place who).shut = true
  file : w.file = old ++ order.flatMap letters
  held : ∀ who, who ∉ order → w.buffer who = w.given who

theorem wholeEnter {old : List Byte} {v w : Writers Thread Byte} {place : Thread → Place}
    {order : List Thread} {who : Thread} {next : Place} (whole : Whole old v place order)
    (before : (place who).shut = next.shut) (file : w.file = v.file)
    (held : ∀ t, t ∉ order → w.buffer t = w.given t) :
    Whole old w (Function.update place who next) order := by
  refine ⟨whole.apart, fun t => ?_, file.trans whole.file, held⟩
  by_cases here : t = who
  · subst here
    rw [whole.closed t, before, Function.update_self]
  · rw [whole.closed t, Function.update_of_ne here]

theorem closesWhole {old : List Byte} {s : Sys} {log : List (Thread × Byte)} {order : List Thread}
    {who : Thread} {c : Nat} (keeps : Keeps old s log) (whole : Whole old s.writers s.place order)
    (writing : s.place who = .writing c) (past : 90 < c) :
    Whole old (passEnd s.writers who (s.writers.buffer who).length) (Function.update s.place who .closed)
      (order ++ [who]) := by
  have own := keeps.stands who
  rw [writing] at own
  obtain ⟨given, bound, n, place⟩ := own
  rw [afterLast bound past place] at given
  have outside : who ∉ order := by
    rw [whole.closed who, writing]
    exact Bool.false_ne_true
  refine ⟨List.nodup_append.mpr ⟨whole.apart, List.pairwise_singleton _ _, ?_⟩, fun t => ?_, ?_,
    fun t apart => ?_⟩
  · intro t mem l last same
    rw [List.mem_singleton.mp last] at same
    exact outside (same ▸ mem)
  · rw [List.mem_append, List.mem_singleton, whole.closed t]
    by_cases here : t = who
    · subst here
      simp [Place.shut]
    · simp [here]
  · simp only [passEnd, List.take_length, whole.held who outside, given, whole.file, List.flatMap_append,
      List.flatMap_singleton, List.append_assoc]
    rfl
  · rw [List.mem_append, List.mem_singleton, not_or] at apart
    simp only [passEnd, Function.update_of_ne apart.2]
    exact whole.held t apart.1

theorem stepWhole {old : List Byte} {s u : Sys} {a : Act} {log : List (Thread × Byte)}
    {order : List Thread} (keeps : Keeps old s log) (whole : Whole old s.writers s.place order)
    (held : ∀ who k, a ≠ .passes who k) (taken : step s a = some u) :
    ∃ order, Whole old u.writers u.place order := by
  cases stepMoves taken with
  | creates waiting =>
    have unopened : ∀ t, (s.place t).shut = false := by
      intro t
      cases t with
      | main => rw [waiting]; rfl
      | launchThread => rw [keeps.ordered.waits (.inl waiting)]; rfl
    exact ⟨order, whole.apart, fun t => by rw [whole.closed t, unopened t]; rfl, whole.file, whole.held⟩
  | refused before | opens before | stats before | statsAgain before | shows before | showsAgain before =>
    exact ⟨order, wholeEnter whole ((congrArg Place.shut before).trans rfl) rfl whole.held⟩
  | @prints who c writing inside =>
    refine ⟨order, wholeEnter whole (by rw [writing]; rfl) rfl fun t outside => ?_⟩
    by_cases here : t = who
    · subst here
      simp only [Sys.enter, put, Function.update_self, whole.held t outside]
    · simp only [Sys.enter, put, Function.update_of_ne here, whole.held t outside]
  | passes => exact absurd rfl (held _ _)
  | closes writing past => exact ⟨_, closesWhole keeps whole writing past⟩
  | joins both => exact ⟨order, wholeEnter whole (by rw [both.1]; rfl) rfl whole.held⟩

theorem twoThreads (log : List (Thread × Byte)) : ∀ e ∈ log, e.1 = .main ∨ e.1 = .launchThread := by
  intro e _
  cases e.1 with
  | main => exact .inl rfl
  | launchThread => exact .inr rfl

theorem bothOrders {order : List Thread} (apart : order.Nodup) (all : ∀ who, who ∈ order) :
    order = [.main, .launchThread] ∨ order = [.launchThread, .main] := by
  have same : order.Perm [.main, .launchThread] :=
    (List.perm_ext_iff_of_nodup apart (by decide)).mpr fun who =>
      ⟨fun _ => by cases who <;> decide, fun _ => all who⟩
  obtain ⟨a, b, rfl⟩ := List.length_eq_two.mp same.length_eq
  cases a <;> cases b
  case main.launchThread => exact .inl rfl
  case launchThread.main => exact .inr rfl
  all_goals simp at apart

theorem ownedNothing {α : Type} {log : List (Thread × α)} (empty : ∀ who, owned log who = []) : log = [] := by
  cases log with
  | nil => rfl
  | cons e rest =>
    have first := empty e.1
    simp [owned] at first

theorem failedNothing {old : List Byte} {s : Sys} {log : List (Thread × Byte)} (keeps : Keeps old s log)
    (failed : s.place .main = .failed) : log = [] ∧ s.reports = [] := by
  have waits := keeps.ordered.waits (.inr failed)
  have unwritten : ∀ who, s.writers.given who = [] := by
    intro who
    have own := keeps.stands who
    cases who with
    | main => rwa [failed] at own
    | launchThread => rwa [waits] at own
  have unshown : ∀ who, owned s.reports who = [] := by
    intro who
    have tells := keeps.sized.tells who
    cases who with
    | main => rwa [failed] at tells
    | launchThread => rwa [waits] at tells
  exact ⟨ownedNothing fun who =>
    (List.append_eq_nil_iff.mp ((keeps.appended.given who).symm.trans (unwritten who))).1,
    ownedNothing unshown⟩

theorem endedOwn {old : List Byte} {s : Sys} {log : List (Thread × Byte)} {who : Thread}
    (keeps : Keeps old s log) (ended : s.place who = .ended ∨ s.place who = .returned) :
    owned log who = letters who := by
  have own : s.writers.given who = letters who ∧ s.writers.buffer who = [] := by
    have here := keeps.stands who
    rcases ended with place | place <;> rwa [place] at here
  rw [← own.1, keeps.appended.given who, own.2, List.append_nil]

theorem allWritten {old : List Byte} {w : Writers Thread Byte} {log : List (Thread × Byte)}
    (appended : Appended old w log) (own : ∀ who, owned log who = letters who) :
    w.file.length = old.length + 26 := by
  have both := (ownedPerm (by decide) (twoThreads log)).length_eq
  rw [List.length_append, own, own, lettersLength, lettersLength] at both
  rw [appended.file, List.length_append, both]

theorem endedTold {old : List Byte} {s : Sys} {who : Thread} (sized : Sized old s)
    (ended : s.place who = .ended ∨ s.place who = .returned) :
    ∃ first, owned s.reports who = [first, s.size who] ∧ old.length ≤ first ∧ first ≤ s.size who ∧
      old.length + 13 ≤ s.size who ∧ s.size who ≤ s.writers.file.length := by
  have tells := sized.tells who
  rcases ended with place | place <;> rwa [place] at tells

theorem runKeeps {old : List Byte} {labels : List Act} {last : Sys}
    (run : Run step (fun _ _ => True) (Sys.start old) labels last) : ∃ log, Keeps old last log :=
  runInvariant (fun s => ∃ log, Keeps old s log)
    (fun _ _ _ ⟨_, before⟩ _ taken => stepKeeps before taken) run ⟨[], startKeeps old⟩

theorem runWhole {old : List Byte} {labels : List Act} {last : Sys}
    (run : Run step (fun _ _ => True) (Sys.start old) labels last)
    (held : ∀ a ∈ labels, ∀ who k, a ≠ .passes who k) :
    ∃ order, Whole old last.writers last.place order := by
  have start : Whole old (Sys.start old).writers (Sys.start old).place [] :=
    ⟨List.nodup_nil, fun who => by simp [Sys.start, Place.shut], by simp [Sys.start, Writers.opened],
      fun _ _ => rfl⟩
  have both : ∃ log, Keeps old last log ∧ ∃ order, Whole old last.writers last.place order := by
    refine runInvariant
      (fun s => ∃ log, Keeps old s log ∧ ∃ order, Whole old s.writers s.place order)
      ?_ ((runLabels run).mpr held) ⟨[], startKeeps old, [], start⟩
    rintro s a u ⟨_, keeps, _, whole⟩ held taken
    obtain ⟨next, kept⟩ := stepKeeps keeps taken
    exact ⟨next, kept, stepWhole keeps whole held taken⟩
  obtain ⟨_, _, ordered⟩ := both
  exact ordered

theorem wholeInOrder {old : List Byte} {w : Writers Thread Byte} {place : Thread → Place}
    {order : List Thread} (whole : Whole old w place order) (shut : ∀ who, (place who).shut = true) :
    w.file = old ++ (letters .main ++ letters .launchThread) ∨
    w.file = old ++ (letters .launchThread ++ letters .main) := by
  have file := whole.file
  rcases bothOrders whole.apart (fun who => (whole.closed who).mpr (shut who)) with same | same
  · rw [same] at file
    exact .inl (by simpa using file)
  · rw [same] at file
    exact .inr (by simpa using file)

theorem appendsEverything (old : List Byte) (labels : List Act) (last : Sys)
    (run : Run step (fun _ _ => True) (Sys.start old) labels last) :
    old <+: last.writers.file ∧
    (last.place .main = .failed → last.writers.file = old ∧ last.reports = []) ∧
    (last.place .main = .returned →
      last.writers.file.length = old.length + 26 ∧
      (∀ who, ∃ first second, owned last.reports who = [first, second] ∧
        old.length ≤ first ∧ first ≤ second ∧ old.length + 13 ≤ second ∧ second ≤ old.length + 26) ∧
      (∃ who, (owned last.reports who).getLast? = some (old.length + 26)) ∧
      (∃ log, last.writers.file = old ++ log.map Prod.snd ∧ ∀ who, owned log who = letters who) ∧
      ((∀ a ∈ labels, ∀ who k, a ≠ .passes who k) →
        last.writers.file = old ++ (letters .main ++ letters .launchThread) ∨
        last.writers.file = old ++ (letters .launchThread ++ letters .main))) := by
  obtain ⟨log, keeps⟩ := runKeeps run
  have ⟨appended, _, ordered, sized⟩ := keeps
  refine ⟨⟨_, appended.file.symm⟩, fun failed => ?_, fun returned => ?_⟩
  · obtain ⟨empty, unshown⟩ := failedNothing keeps failed
    exact ⟨by rw [appended.file, empty, List.map_nil, List.append_nil], unshown⟩
  · have ended : ∀ who, last.place who = .ended ∨ last.place who = .returned := by
      intro who
      cases who with
      | main => exact .inr returned
      | launchThread => exact .inl (ordered.joined returned)
    have own : ∀ who, owned log who = letters who := fun who => endedOwn keeps (ended who)
    have size := allWritten appended own
    refine ⟨size, fun who => ?_, ?_, ⟨log, appended.file, own⟩, fun held => ?_⟩
    · obtain ⟨first, shown, bounds⟩ := endedTold sized (ended who)
      rw [size] at bounds
      exact ⟨first, last.size who, shown, bounds⟩
    · obtain ⟨who, whole⟩ := sized.latest fun who => by
        rcases ended who with here | here <;> rw [here] <;> rfl
      obtain ⟨first, shown, _⟩ := endedTold sized (ended who)
      exact ⟨who, by rw [shown, whole, size]; rfl⟩
    · obtain ⟨order, whole⟩ := runWhole run held
      exact wholeInOrder whole fun who => by
        rcases ended who with here | here <;> rw [here] <;> rfl

def passedEarly : List Act :=
  [.creates true, .opens .main, .stats .main, .shows .main] ++
    [.opens .launchThread, .stats .launchThread, .shows .launchThread] ++
    List.replicate 5 (.prints .launchThread) ++ [.passes .launchThread 4] ++
    List.replicate 13 (.prints .main) ++ [.closes .main, .stats .main] ++
    List.replicate 8 (.prints .launchThread) ++
    [.closes .launchThread, .stats .launchThread, .shows .launchThread, .shows .main, .joins]

theorem passedEarlyAppends : ∃ last, Run step (fun _ _ => True) (Sys.start [33]) passedEarly last ∧
    last.reports = [(.main, 1), (.launchThread, 1), (.launchThread, 27), (.main, 18)] ∧
    [33] <+: last.writers.file ∧ last.writers.file.length = [33].length + 26 ∧
    (∃ who, (owned last.reports who).getLast? = some ([33].length + 26)) := by
  obtain ⟨last, run, seen⟩ := checkedEnd step (fun _ _ => True) (Sys.start [33]) passedEarly
    (fun s => (s.place .main, s.reports))
    (.returned, [(.main, 1), (.launchThread, 1), (.launchThread, 27), (.main, 18)]) (by decide +kernel)
  rw [Prod.mk.injEq] at seen
  obtain ⟨old, _, whole⟩ := appendsEverything [33] passedEarly last run
  obtain ⟨length, _, shown, _⟩ := whole seen.1
  exact ⟨last, run, seen.2, old, length, shown⟩

end OsLabs.AppendingThreads
