import OsLabs.TaskletKeys

/-! The array of symbols and its listing in proc. The tasklet function and f run in any
order, each as a whole; pos_simbol is for the one the next free entry and for the other
the last one to print. -/
namespace OsLabs.KeyListing
open Runs KeyLog TaskletKeys

/- `logged` lists the symbols stored since the array was last restarted. -/
structure Listing where
  log : SimbolLog
  logged : List String

def Listing.empty : Listing := ⟨.empty, []⟩

/- "%s " in the kernel, where a null pointer has a text too. -/
def entry (simbol : Option String) : List Char := (simbol.getD "(null)").toList ++ [' ']

/- while (i <= pos_simbol), which makes `n` more rounds; an index at or behind POS_MAX
leaves the array. -/
def fLoop (log : SimbolLog) : Nat → Nat → Option (List Char)
  | 0, _ => some ['\n']
  | n + 1, i =>
      if i < posMax then (fLoop log n (i + 1)).map (entry (log.simbol i) ++ ·) else none

def f (log : SimbolLog) : Option (List Char) := fLoop log (log.pos + 1) 0

def listing (names : List String) : List Char := names.flatMap (fun name => entry (some name)) ++ ['\n']

inductive Act where
  | taskletFunction (code : UInt8)
  | f
  deriving DecidableEq, Repr

def loggedAfter (w : Listing) (code : UInt8) : List String :=
  match symbol code with
  | none => w.logged
  | some name => if w.log.pos < posMax then w.logged ++ [name] else []

def step (w : Listing) : Act → Option Listing
  | .taskletFunction code => some ⟨w.log.press code, loggedAfter w code⟩
  | .f => some w

def Agrees (w : Listing) : Act → Prop
  | .taskletFunction code =>
      (w.log.press code).entries = (w.logged ++ (symbol code).toList).map some
  | .f => f w.log = some (listing w.logged)

def Unlisted (w : Listing) : Act → Prop
  | .taskletFunction code => code < 84 → w.log.pos < posMax
  | .f => False

instance (w : Listing) : (a : Act) → Decidable (Unlisted w a)
  | .taskletFunction _ => inferInstanceAs (Decidable (_ → _))
  | .f => isFalse id

structure Mirrors (w : Listing) : Prop where
  size : w.logged.length = w.log.pos
  same : ∀ i (inside : i < w.logged.length), w.log.simbol i = some w.logged[i]

theorem stepMirrors {w u : Listing} {a : Act} (mirrors : Mirrors w) (taken : step w a = some u) :
    Mirrors u := by
  obtain ⟨size, same⟩ := mirrors
  cases a with
  | f =>
    cases Option.some.inj taken
    exact ⟨size, same⟩
  | taskletFunction code =>
    cases Option.some.inj taken
    cases found : symbol code with
    | none =>
      have table : ascii[code.toNat]? = none := found
      simp only [loggedAfter, SimbolLog.press, found, table]
      exact ⟨size, same⟩
    | some name =>
      have table : ascii[code.toNat]? = some name := found
      simp only [loggedAfter, SimbolLog.press, found, table]
      by_cases room : w.log.pos < posMax
      · simp only [dif_pos room, if_pos room]
        refine ⟨by simp [size], fun i inside => ?_⟩
        simp only
        by_cases old : i < w.logged.length
        · have other : i ≠ w.log.pos := by omega
          rw [Function.update_of_ne other, same i old, List.getElem_append_left old]
        · have last : i = w.log.pos := by
            simp only [List.length_append, List.length_singleton] at inside
            omega
          subst last
          simp [← size]
      · simp only [dif_neg room, if_neg room]
        exact ⟨rfl, fun i inside => absurd inside (Nat.not_lt_zero i)⟩

theorem loopPrints (log : SimbolLog) {n i : Nat} (inside : i + n ≤ posMax) :
    fLoop log n i = some ((List.range' i n).flatMap (fun k => entry (log.simbol k)) ++ ['\n']) := by
  induction n generalizing i with
  | zero => rfl
  | succ n ih =>
    have here : i < posMax := by omega
    rw [fLoop, if_pos here, ih (by omega), List.range'_succ, List.flatMap_cons]
    simp

theorem loopLeaves (log : SimbolLog) {n i : Nat} (beyond : posMax < i + n) (inside : i ≤ posMax) :
    fLoop log n i = none := by
  induction n generalizing i with
  | zero => omega
  | succ n ih =>
    rw [fLoop]
    split
    · rw [ih (by omega) (by omega)]
      rfl
    · rfl

theorem mirrorsEntries {w : Listing} (mirrors : Mirrors w) : w.log.entries = w.logged.map some := by
  refine List.ext_getElem (by simp [SimbolLog.entries, mirrors.size]) (fun i _ inside => ?_)
  rw [List.length_map] at inside
  simp [SimbolLog.entries, mirrors.same i inside]

theorem loggedEntries {w : Listing} (mirrors : Mirrors w) :
    (List.range' 0 w.log.pos).flatMap (fun k => entry (w.log.simbol k)) =
      w.logged.flatMap (fun name => entry (some name)) := by
  have left := congrArg (List.flatMap entry) (mirrorsEntries mirrors)
  simpa only [SimbolLog.entries, List.range_eq_range', List.flatMap_map] using left

theorem fPrintsMore {w : Listing} (mirrors : Mirrors w) :
    f w.log = if w.log.pos < posMax then
      some (w.logged.flatMap (fun name => entry (some name)) ++ entry (w.log.simbol w.log.pos) ++ ['\n'])
      else none := by
  split
  · rename_i room
    rw [f, loopPrints w.log (by omega), List.range'_concat, List.flatMap_append, loggedEntries mirrors]
    simp
  · rename_i full
    exact loopLeaves w.log (by omega) (Nat.zero_le _)

theorem fNeverAgrees {w : Listing} (mirrors : Mirrors w) : ¬ Agrees w .f := by
  intro agrees
  have printed : f w.log = some (listing w.logged) := agrees
  rw [fPrintsMore mirrors] at printed
  split at printed
  · have lengths := congrArg List.length (Option.some.inj printed)
    simp [listing, entry] at lengths
  · contradiction

theorem taskletAgrees {w : Listing} (mirrors : Mirrors w) (code : UInt8) :
    Agrees w (.taskletFunction code) ↔ Unlisted w (.taskletFunction code) := by
  have after : (w.log.press code).entries = (loggedAfter w code).map some :=
    mirrorsEntries (@stepMirrors w _ (.taskletFunction code) mirrors rfl)
  have same : Agrees w (.taskletFunction code) ↔ loggedAfter w code = w.logged ++ (symbol code).toList := by
    rw [Agrees, after]
    exact List.map_inj_right fun _ _ => Option.some.inj
  rw [same]
  simp only [Unlisted, loggedAfter, ← symbolBelow]
  cases found : symbol code with
  | none => simp
  | some name =>
    by_cases room : w.log.pos < posMax
    · simp [room]
    · simp [room]

theorem logListedExactly (acts : List Act) (last : Listing)
    (run : Run step (fun _ _ => True) Listing.empty acts last) :
    last.log.entries = last.logged.map some ∧
      (Run step Agrees Listing.empty acts last ↔ Run step Unlisted Listing.empty acts last) := by
  have begins : Mirrors Listing.empty := ⟨rfl, fun i inside => absurd inside (Nat.not_lt_zero i)⟩
  constructor
  · exact mirrorsEntries
      (runInvariant Mirrors (fun w a u mirrors _ taken => stepMirrors mirrors taken) run begins)
  · refine runIff Mirrors ?_ (fun w a u mirrors _ _ taken => stepMirrors mirrors taken) run begins
    intro w a u mirrors _ taken
    cases a with
    | taskletFunction code => exact taskletAgrees mirrors code
    | f => exact iff_of_false (fNeverAgrees mirrors) id

theorem keysAgree : ∃ last, Run step Agrees Listing.empty
    [.taskletFunction 30, .taskletFunction 158, .taskletFunction 31] last ∧
    last.log.entries = [some "A", some "S"] := by
  obtain ⟨last, run, entries⟩ := checkedEnd step Unlisted Listing.empty
    [.taskletFunction 30, .taskletFunction 158, .taskletFunction 31] (fun w => w.log.entries)
    [some "A", some "S"] (by decide +kernel)
  exact ⟨last, (logListedExactly _ last (runFree run)).2.mpr run, entries⟩

theorem nullListed :
    (∃ u, exec step Listing.empty [.taskletFunction 30] = some u ∧ u.log.entries = [some "A"] ∧
      f u.log = some ['A', ' ', '(', 'n', 'u', 'l', 'l', ')', ' ', '\n']) ∧
    ¬ ∀ acts last, Run step (fun _ _ => True) Listing.empty acts last →
      Run step Agrees Listing.empty acts last := by
  have shown : (exec step Listing.empty [.taskletFunction 30]).map
      (fun u => (u.log.entries, f u.log, u.logged)) =
      some ([some "A"], some ['A', ' ', '(', 'n', 'u', 'l', 'l', ')', ' ', '\n'], ["A"]) := by
    decide +kernel
  obtain ⟨u, pressed, seen⟩ := Option.map_eq_some_iff.mp shown
  simp only [Prod.mk.injEq] at seen
  obtain ⟨entries, printed, logged⟩ := seen
  refine ⟨⟨u, pressed, entries, printed⟩, fun all => ?_⟩
  obtain ⟨last, free⟩ := checkedRun step (fun _ _ => True) Listing.empty
    ([.taskletFunction 30] ++ [.f]) (by decide +kernel)
  obtain ⟨before, same, agrees⟩ := runLast [.taskletFunction 30] (all _ _ free)
  cases Option.some.inj (pressed.symm.trans same)
  have listed : f u.log = some (listing u.logged) := agrees
  rw [printed, logged] at listed
  exact absurd listed (by decide)

end OsLabs.KeyListing
