import OsLabs.KeyListing

/-! f of lab_09 part1 statement by statement. my_tasklet_function may come between any two of
them and then runs to its end, as a tasklet does on the processor that it interrupts. -/
namespace OsLabs.ListingSteps
open Runs KeyLog
open TaskletKeys (symbol)
open KeyListing (Listing entry f fLoop loopLeaves loggedAfter Mirrors stepMirrors)

/- A call of f by what it does next, with its i and the entries printed. Reading an entry at or
behind POS_MAX leaves the array. -/
inductive Reader where
  | away
  | tests (i : Nat) (shown : List (Option String))
  | prints (i : Nat) (shown : List (Option String))
  | ended (shown : List (Option String))
  | left
  deriving DecidableEq, Repr

/- The histories of a call: what had been logged and what the array held when it began, whether
the array has been restarted since, and how many statements f has executed. -/
structure Sys where
  listing : Listing
  reader : Reader
  begun : List String
  before : Nat → Option String
  restarted : Bool
  statements : Nat

def loaded : Sys := ⟨.empty, .away, [], fun _ => none, false, 0⟩

inductive Act where
  | taskletFunction (code : UInt8)
  | call
  | statement
  deriving DecidableEq, Repr

def restarts (w : Listing) (code : UInt8) : Bool := (symbol code).isSome && !decide (w.log.pos < posMax)

def next (log : SimbolLog) : Reader → Option Reader
  | .tests i shown => some (if i ≤ log.pos then .prints i shown else .ended shown)
  | .prints i shown => some (if i < posMax then .tests (i + 1) (shown ++ [log.simbol i]) else .left)
  | _ => none

def step (s : Sys) : Act → Option Sys
  | .taskletFunction code => (KeyListing.step s.listing (.taskletFunction code)).map fun w =>
      {s with listing := w, restarted := s.restarted || restarts s.listing code}
  | .call => match s.reader with
      | .away | .ended _ => some ⟨s.listing, .tests 0 [], s.listing.logged, s.listing.log.simbol, false, 0⟩
      | _ => none
  | .statement => (next s.listing.log s.reader).map fun r =>
      {s with reader := r, statements := s.statements + 1}

def text (shown : List (Option String)) : List Char := shown.flatMap entry ++ ['\n']

theorem loopAlone {s : Sys} {n i : Nat} {shown : List (Option String)} (here : s.reader = .tests i shown)
    (reach : i + n = s.listing.log.pos + 1) (inside : i + n ≤ posMax) :
    ∃ u added, exec step s (List.replicate (2 * n + 1) .statement) = some u ∧
      u.reader = .ended (shown ++ added) ∧ fLoop s.listing.log n i = some (text added) := by
  induction n generalizing s i shown with
  | zero =>
    have past : ¬ i ≤ s.listing.log.pos := by omega
    refine ⟨{s with reader := .ended shown, statements := s.statements + 1}, [], ?_, by simp, rfl⟩
    simp only [Nat.mul_zero, Nat.zero_add, List.replicate_one, exec, step, here, next, if_neg past,
      Option.map_some, Option.bind_some]
  | succ n ih =>
    have more : i ≤ s.listing.log.pos := by omega
    have room : i < posMax := by omega
    let read : Sys := {s with
      reader := .tests (i + 1) (shown ++ [s.listing.log.simbol i]), statements := s.statements + 1 + 1}
    have behind : i + 1 + n = s.listing.log.pos + 1 := by omega
    obtain ⟨u, added, runs, ended, printed⟩ := @ih read (i + 1) _ rfl behind (by omega)
    refine ⟨u, s.listing.log.simbol i :: added, ?_, by rw [ended, List.append_assoc]; rfl, ?_⟩
    · rw [show 2 * (n + 1) + 1 = 2 * n + 1 + 1 + 1 by omega, List.replicate_succ, List.replicate_succ]
      simp only [exec, step, here, next, if_pos more, if_pos room, Option.map_some, Option.bind_some]
      exact runs
    · rw [fLoop, if_pos room, printed]
      simp [text]

theorem leavesAlone {s : Sys} {n i : Nat} {shown : List (Option String)} (here : s.reader = .tests i shown)
    (reach : i + n = posMax) (full : s.listing.log.pos = posMax) :
    ∃ u, exec step s (List.replicate (2 * n + 2) .statement) = some u ∧ u.reader = .left := by
  induction n generalizing s i shown with
  | zero =>
    have more : i ≤ s.listing.log.pos := by omega
    have room : ¬ i < posMax := by omega
    refine ⟨{s with reader := .left, statements := s.statements + 1 + 1}, ?_, rfl⟩
    simp only [Nat.mul_zero, Nat.zero_add, List.replicate_succ, List.replicate_zero, exec, step, here, next,
      if_pos more, if_neg room, Option.map_some, Option.bind_some]
  | succ n ih =>
    have more : i ≤ s.listing.log.pos := by omega
    have room : i < posMax := by omega
    let read : Sys := {s with
      reader := .tests (i + 1) (shown ++ [s.listing.log.simbol i]), statements := s.statements + 1 + 1}
    obtain ⟨u, runs, left⟩ := @ih read (i + 1) _ rfl (by omega) full
    refine ⟨u, ?_, left⟩
    rw [show 2 * (n + 1) + 2 = 2 * n + 2 + 1 + 1 by omega, List.replicate_succ, List.replicate_succ]
    simp only [exec, step, here, next, if_pos more, if_pos room, Option.map_some, Option.bind_some]
    exact runs

theorem callAlone {s : Sys} (here : s.reader = .tests 0 []) :
    (s.listing.log.pos < posMax → ∃ u shown,
      exec step s (List.replicate (2 * (s.listing.log.pos + 1) + 1) .statement) = some u ∧
        u.reader = .ended shown ∧ f s.listing.log = some (text shown)) ∧
    (s.listing.log.pos = posMax → f s.listing.log = none ∧ ∃ u,
      exec step s (List.replicate (2 * posMax + 2) .statement) = some u ∧ u.reader = .left) := by
  refine ⟨fun room => ?_, fun full => ⟨?_, leavesAlone here (Nat.zero_add _) full⟩⟩
  · obtain ⟨u, added, runs, ended, printed⟩ := loopAlone here (Nat.zero_add _) (by omega)
    exact ⟨u, added, runs, ended, printed⟩
  · exact loopLeaves s.listing.log (by omega) (Nat.zero_le _)

inductive Tasklet (w : Listing) (code : UInt8) : Listing → Prop where
  | ignores (absent : symbol code = none) : Tasklet w code w
  | stores (name : String) (room : w.log.pos < posMax) : Tasklet w code
      ⟨⟨Function.update w.log.simbol w.log.pos (some name), w.log.pos + 1, room⟩, w.logged ++ [name]⟩
  | restarts (full : restarts w code = true) : Tasklet w code ⟨⟨w.log.simbol, 0, Nat.zero_le _⟩, []⟩

theorem taskletMoves (w : Listing) (code : UInt8) :
    Tasklet w code ⟨w.log.press code, loggedAfter w code⟩ := by
  cases found : symbol code with
  | none =>
    have table : ascii[code.toNat]? = none := found
    simp only [loggedAfter, SimbolLog.press, found, table]
    exact .ignores found
  | some name =>
    have table : ascii[code.toNat]? = some name := found
    simp only [loggedAfter, SimbolLog.press, found, table]
    by_cases room : w.log.pos < posMax
    · simp only [dif_pos room, if_pos room]
      exact .stores name room
    · simp only [dif_neg room, if_neg room]
      exact .restarts (by simp [restarts, found, room])

structure Told (s : Sys) (shown : List (Option String)) : Prop where
  kept : s.begun <+: s.listing.logged
  stale : ∀ j, s.listing.log.pos ≤ j → s.listing.log.simbol j = s.before j
  entries : ∀ j e, shown[j]? = some e →
    j < s.listing.logged.length ∧ e = s.listing.logged[j]? ∨ s.begun.length ≤ j ∧ e = s.before j

theorem taskletTold {s : Sys} {shown : List (Option String)} {code : UInt8} {w : Listing}
    (told : Told s shown) (moved : Tasklet s.listing code w) (calm : restarts s.listing code = false) :
    Told {s with listing := w} shown := by
  cases moved with
  | ignores => exact ⟨told.kept, told.stale, told.entries⟩
  | stores name room =>
    refine ⟨told.kept.trans (List.prefix_append _ _), fun j behind => ?_, fun j e printed => ?_⟩
    · have other : j ≠ s.listing.log.pos := Nat.ne_of_gt behind
      exact (Function.update_of_ne other _ _).trans (told.stale j (Nat.le_of_succ_le behind))
    · refine (told.entries j e printed).imp_left fun ⟨inside, same⟩ => ⟨?_, ?_⟩
      · rw [List.length_append]
        exact Nat.lt_add_right _ inside
      · rw [same, List.getElem?_append_left inside]
  | restarts full =>
    rw [calm] at full
    contradiction

theorem printsTold {s : Sys} {shown : List (Option String)} (mirrors : Mirrors s.listing)
    (told : Told s shown) :
    Told s (shown ++ [s.listing.log.simbol shown.length]) := by
  refine ⟨told.kept, told.stale, fun j e printed => ?_⟩
  by_cases old : j < shown.length
  · rw [List.getElem?_append_left old] at printed
    exact told.entries j e printed
  · have here : j = shown.length := by
      have bound := (List.getElem?_eq_some_iff.mp printed).1
      rw [List.length_append, List.length_singleton] at bound
      omega
    subst here
    rw [List.getElem?_concat_length, Option.some.injEq] at printed
    subst printed
    by_cases logged : shown.length < s.listing.logged.length
    · exact .inl ⟨logged, by rw [mirrors.same _ logged, List.getElem?_eq_getElem logged]⟩
    · have behind : s.listing.log.pos ≤ shown.length := mirrors.size ▸ Nat.le_of_not_lt logged
      exact .inr ⟨Nat.le_trans told.kept.length_le (Nat.le_of_not_lt logged), told.stale _ behind⟩

def Stands (s : Sys) : Reader → Prop
  | .away => s.statements = 0
  | .tests i shown => shown.length = i ∧ i ≤ posMax ∧ s.statements = 2 * i ∧
      (s.restarted = false → i ≤ s.listing.log.pos + 1 ∧ Told s shown)
  | .prints i shown => shown.length = i ∧ i ≤ posMax ∧ s.statements = 2 * i + 1 ∧
      (s.restarted = false → i ≤ s.listing.log.pos ∧ Told s shown)
  | .ended shown => shown.length ≤ posMax ∧ s.statements = 2 * shown.length + 1
  | .left => s.statements = 2 * posMax + 2

structure Reading (s : Sys) : Prop where
  mirrors : Mirrors s.listing
  stands : Stands s s.reader

theorem loadedReading : Reading loaded :=
  ⟨⟨rfl, fun i inside => absurd inside (Nat.not_lt_zero i)⟩, rfl⟩

theorem calmGrows {w u : Listing} {code : UInt8} (moved : Tasklet w code u) (calm : restarts w code = false) :
    w.log.pos ≤ u.log.pos := by
  cases moved with
  | ignores => exact Nat.le_refl _
  | stores => exact Nat.le_succ _
  | restarts full =>
    rw [calm] at full
    contradiction

theorem taskletReading {s : Sys} (reading : Reading s) (code : UInt8) :
    Reading {s with
      listing := ⟨s.listing.log.press code, loggedAfter s.listing code⟩
      restarted := s.restarted || restarts s.listing code} := by
  have moved := taskletMoves s.listing code
  refine ⟨@stepMirrors s.listing _ (.taskletFunction code) reading.mirrors rfl, ?_⟩
  have stands := reading.stands
  have calm : (s.restarted || restarts s.listing code) = false →
      s.restarted = false ∧ restarts s.listing code = false := Bool.or_eq_false_iff.mp
  cases here : s.reader with
  | away | ended shown | left =>
    rw [here] at stands
    exact stands
  | tests i shown =>
    rw [here] at stands
    obtain ⟨length, bound, count, whole⟩ := stands
    refine ⟨length, bound, count, fun quiet => ?_⟩
    obtain ⟨before, now⟩ := calm quiet
    obtain ⟨inside, told⟩ := whole before
    have later := taskletTold told moved now
    exact ⟨Nat.le_trans inside (Nat.succ_le_succ (calmGrows moved now)), later.kept, later.stale,
      later.entries⟩
  | prints i shown =>
    rw [here] at stands
    obtain ⟨length, bound, count, whole⟩ := stands
    refine ⟨length, bound, count, fun quiet => ?_⟩
    obtain ⟨before, now⟩ := calm quiet
    obtain ⟨inside, told⟩ := whole before
    have later := taskletTold told moved now
    exact ⟨Nat.le_trans inside (calmGrows moved now), later.kept, later.stale, later.entries⟩

theorem callReading {s : Sys} (reading : Reading s) :
    Reading ⟨s.listing, .tests 0 [], s.listing.logged, s.listing.log.simbol, false, 0⟩ :=
  ⟨reading.mirrors, rfl, Nat.zero_le _, rfl, fun _ =>
    ⟨Nat.zero_le _, List.prefix_rfl, fun _ _ => rfl, fun j e printed => by simp at printed⟩⟩

theorem statementReading {s : Sys} {r : Reader} (reading : Reading s)
    (taken : next s.listing.log s.reader = some r) :
    Reading {s with reader := r, statements := s.statements + 1} := by
  refine ⟨reading.mirrors, ?_⟩
  have stands := reading.stands
  cases here : s.reader with
  | away | ended shown | left =>
    rw [here] at taken
    cases taken
  | tests i shown =>
    rw [here] at stands taken
    obtain ⟨length, bound, count, whole⟩ := stands
    simp only [next, Option.some.injEq] at taken
    subst taken
    split
    · rename_i inside
      refine ⟨length, bound, by rw [count], fun quiet => ⟨inside, ?_⟩⟩
      have told := (whole quiet).2
      exact ⟨told.kept, told.stale, told.entries⟩
    · exact ⟨length ▸ bound, by rw [count, length]⟩
  | prints i shown =>
    rw [here] at stands taken
    obtain ⟨length, bound, count, whole⟩ := stands
    simp only [next, Option.some.injEq] at taken
    subst taken
    split
    · rename_i inside
      refine ⟨by simp [length], inside, by simp only [count]; omega, fun quiet => ?_⟩
      obtain ⟨reached, told⟩ := whole quiet
      have more := printsTold reading.mirrors told
      rw [length] at more
      exact ⟨Nat.succ_le_succ reached, more.kept, more.stale, more.entries⟩
    · have last : i = posMax := by omega
      exact (congrArg (· + 1) count).trans (by rw [last])

theorem stepReading {s u : Sys} {a : Act} (reading : Reading s) (taken : step s a = some u) : Reading u := by
  cases a with
  | taskletFunction code =>
    cases taken
    exact taskletReading reading code
  | call =>
    simp only [step] at taken
    split at taken
    · cases taken
      exact callReading reading
    · cases taken
      exact callReading reading
    · cases taken
  | statement =>
    obtain ⟨r, moved, same⟩ := Option.map_eq_some_iff.mp taken
    cases same
    exact statementReading reading moved

structure Ends (s : Sys) (shown : List (Option String)) : Prop where
  bounded : shown.length ≤ posMax
  whole : s.restarted = false → shown.length = s.listing.logged.length + 1
  first : s.restarted = false → s.begun.map some <+: shown
  entries : s.restarted = false → ∀ j e, shown[j]? = some e →
    j < s.listing.logged.length ∧ e = s.listing.logged[j]? ∨ s.begun.length ≤ j ∧ e = s.before j

theorem toldFirst {s : Sys} {shown : List (Option String)} (told : Told s shown)
    (enough : s.listing.logged.length ≤ shown.length) : s.begun.map some <+: shown := by
  refine List.prefix_iff_getElem?.mpr fun j inside => ?_
  rw [List.length_map] at inside
  have there : j < shown.length :=
    Nat.lt_of_lt_of_le inside (Nat.le_trans told.kept.length_le enough)
  rw [List.getElem?_eq_getElem there, List.getElem_map]
  rcases told.entries j _ (List.getElem?_eq_getElem there) with ⟨-, same⟩ | ⟨behind, -⟩
  · rw [same, List.prefix_iff_getElem?.mp told.kept j inside]
  · exact absurd inside (Nat.not_lt_of_le behind)

theorem statementsBounded {s : Sys} (reading : Reading s) : s.statements ≤ 2 * (posMax + 1) := by
  have stands := reading.stands
  cases here : s.reader <;> rw [here] at stands
  case away => exact Nat.le_trans (Nat.le_of_eq stands) (Nat.zero_le _)
  case left => exact Nat.le_of_eq stands
  case ended shown => obtain ⟨bound, count⟩ := stands; omega
  case tests i shown => obtain ⟨-, bound, count, -⟩ := stands; omega
  case prints i shown => obtain ⟨-, bound, count, -⟩ := stands; omega

theorem statementEnds {s u : Sys} (reading : Reading s) (taken : step s .statement = some u) :
    (∀ shown, u.reader = .ended shown → Ends s shown) ∧
      (u.reader = .left → s.restarted = true ∨ s.listing.log.pos = posMax) := by
  have stands := reading.stands
  obtain ⟨r, moved, same⟩ := Option.map_eq_some_iff.mp taken
  cases same
  cases here : s.reader <;> rw [here] at stands moved
  case away | ended | left => cases moved
  case tests i shown =>
    obtain ⟨length, bound, -, whole⟩ := stands
    simp only [next, Option.some.injEq] at moved
    subst moved
    split
    · exact ⟨fun shown ended => (by cases ended), fun left => (by cases left)⟩
    · rename_i past
      refine ⟨fun printed ended => ?_, fun left => (by cases left)⟩
      cases ended
      have size := reading.mirrors.size
      refine ⟨length ▸ bound, fun quiet => ?_, fun quiet => ?_, fun quiet => (whole quiet).2.entries⟩
      · have reached := (whole quiet).1
        omega
      · exact toldFirst (whole quiet).2 (by omega)
  case prints i shown =>
    obtain ⟨-, bound, -, whole⟩ := stands
    simp only [next, Option.some.injEq] at moved
    subst moved
    split
    · exact ⟨fun shown ended => (by cases ended), fun left => (by cases left)⟩
    · refine ⟨fun shown ended => (by cases ended), fun _ => ?_⟩
      cases restarted : s.restarted with
      | true => exact .inl rfl
      | false =>
        have reached := (whole restarted).1
        have array := s.listing.log.inArray
        exact .inr (by omega)

def Reader.underWay : Reader → Bool
  | .tests _ _ | .prints _ _ => true
  | _ => false

theorem underWayGoes (s : Sys) : s.reader.underWay = true ↔ ∃ u, step s .statement = some u := by
  cases here : s.reader <;> simp [step, here, next, Reader.underWay]

theorem listingInterrupted {labels : List Act} {last : Sys}
    (run : Run step (fun _ _ => True) loaded labels last) :
    last.statements ≤ 2 * (posMax + 1) ∧
      (last.reader.underWay = true ↔ ∃ u, step last .statement = some u) ∧
      ∀ u, step last .statement = some u →
        (∀ shown, u.reader = .ended shown → Ends last shown) ∧
        (u.reader = .left → last.restarted = true ∨ last.listing.log.pos = posMax) := by
  have reading := runInvariant Reading (fun _ _ _ before _ taken => stepReading before taken) run loadedReading
  exact ⟨statementsBounded reading, underWayGoes last, fun u taken => statementEnds reading taken⟩

def interrupted : List Act :=
  [.taskletFunction 30, .call, .statement, .statement, .statement, .statement, .taskletFunction 31,
    .statement, .statement]

theorem interruptedEnds : ∃ last u, Run step (fun _ _ => True) loaded interrupted last ∧
    step last .statement = some u ∧ u.reader = .ended [some "A", none, none] ∧
    Ends last [some "A", none, none] := by
  obtain ⟨u, whole, ended⟩ := checkedEnd step (fun _ _ => True) loaded (interrupted ++ [.statement])
    (fun s => s.reader) (.ended [some "A", none, none]) (by decide +kernel)
  obtain ⟨last, run, tail⟩ := runSplit whole
  cases tail with
  | cons _ taken rest =>
    cases rest
    exact ⟨last, u, run, taken, ended, ((listingInterrupted run).2.2 u taken).1 _ ended⟩

end OsLabs.ListingSteps
