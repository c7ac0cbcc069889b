import Mathlib.Logic.Function.Basic

/-! Finite runs of a labelled partial step. A run keeps the list of its labels and
asks `ok` of every step it takes, in the state before the step; `fun _ _ => True`
leaves the run free. Fairness and infinite runs are not treated. -/
namespace OsLabs.Runs

section Steps
variable {σ α : Type*}

inductive Run (step : σ → α → Option σ) (ok : σ → α → Prop) : σ → List α → σ → Prop where
  | nil (s : σ) : Run step ok s [] s
  | cons {s a u rest t} (meets : ok s a) (taken : step s a = some u)
      (tail : Run step ok u rest t) : Run step ok s (a :: rest) t

variable {step : σ → α → Option σ} {ok : σ → α → Prop}

theorem runSplit {s t : σ} {left right : List α} (run : Run step ok s (left ++ right) t) :
    ∃ u, Run step ok s left u ∧ Run step ok u right t := by
  induction left generalizing s with
  | nil => exact ⟨s, .nil s, run⟩
  | cons a left ih =>
    cases run with
    | cons meets taken tail =>
      obtain ⟨u, before, after⟩ := ih tail
      exact ⟨u, .cons meets taken before, after⟩

theorem runAppend {s u t : σ} {left right : List α} (before : Run step ok s left u)
    (after : Run step ok u right t) : Run step ok s (left ++ right) t := by
  induction before with
  | nil s => exact after
  | cons meets taken tail ih => exact .cons meets taken (ih after)

theorem runInvariant (inv : σ → Prop)
    (kept : ∀ s a u, inv s → ok s a → step s a = some u → inv u)
    {s t : σ} {labels : List α} (run : Run step ok s labels t) (start : inv s) : inv t := by
  induction run with
  | nil s => exact start
  | cons meets taken tail ih => exact ih (kept _ _ _ start meets taken)

theorem runStrengthen (inv : σ → Prop) {good : σ → α → Prop}
    (kept : ∀ s a u, inv s → ok s a → step s a = some u → good s a ∧ inv u)
    {s t : σ} {labels : List α} (run : Run step ok s labels t) (start : inv s) :
    Run step good s labels t := by
  induction run with
  | nil s => exact .nil s
  | cons meets taken tail ih =>
    obtain ⟨here, later⟩ := kept _ _ _ start meets taken
    exact .cons here taken (ih later)

theorem runWeaken {good : σ → α → Prop} (weaker : ∀ s a, ok s a → good s a) {s t : σ}
    {labels : List α} (run : Run step ok s labels t) : Run step good s labels t :=
  runStrengthen (fun _ => True) (fun s a _ _ meets _ => ⟨weaker s a meets, trivial⟩) run trivial

theorem runFree {s t : σ} {labels : List α} (run : Run step ok s labels t) :
    Run step (fun _ _ => True) s labels t :=
  runWeaken (fun _ _ _ => trivial) run

theorem runBoth {good : α → Prop} {s t : σ} {labels : List α} (run : Run step ok s labels t)
    (all : ∀ a ∈ labels, good a) : Run step (fun s a => ok s a ∧ good a) s labels t := by
  induction run with
  | nil s => exact .nil s
  | cons meets taken tail ih =>
    rw [List.forall_mem_cons] at all
    exact .cons ⟨meets, all.1⟩ taken (ih all.2)

theorem runLabels {good : α → Prop} {s t : σ} {labels : List α} (run : Run step ok s labels t) :
    Run step (fun _ a => good a) s labels t ↔ ∀ a ∈ labels, good a := by
  induction run with
  | nil s => exact ⟨fun _ a mem => absurd mem List.not_mem_nil, fun _ => .nil s⟩
  | cons meets taken tail ih =>
    rw [List.forall_mem_cons, ← ih]
    refine ⟨fun whole => ?_, fun both => .cons both.1 taken both.2⟩
    cases whole with
    | cons first moved rest =>
      cases Option.some.inj (taken.symm.trans moved)
      exact ⟨first, rest⟩

theorem runIff (inv : σ → Prop) {legal good : σ → α → Prop}
    (same : ∀ s a u, inv s → legal s a → step s a = some u → (good s a ↔ ok s a))
    (kept : ∀ s a u, inv s → legal s a → ok s a → step s a = some u → inv u)
    {s t : σ} {labels : List α} (run : Run step legal s labels t) (start : inv s) :
    Run step good s labels t ↔ Run step ok s labels t := by
  induction run with
  | nil s => exact ⟨fun _ => .nil s, fun _ => .nil s⟩
  | cons meets taken tail ih =>
    have here := same _ _ _ start meets taken
    constructor
    · intro run
      cases run with
      | cons first moved rest =>
        cases Option.some.inj (taken.symm.trans moved)
        have later := kept _ _ _ start meets (here.mp first) taken
        exact .cons (here.mp first) taken ((ih later).mp rest)
    · intro run
      cases run with
      | cons first moved rest =>
        cases Option.some.inj (taken.symm.trans moved)
        exact .cons (here.mpr first) taken ((ih (kept _ _ _ start meets first taken)).mpr rest)

theorem runOrDamage (inv bad : σ → Prop) {legal : σ → α → Prop}
    (split : ∀ s a u, inv s → legal s a → step s a = some u →
      ok s a ∧ inv u ∨ ¬ ok s a ∧ bad u)
    (stuck : ∀ s a u, bad s → legal s a → step s a = some u → bad u)
    {s t : σ} {labels : List α} (run : Run step legal s labels t) (start : inv s) :
    Run step ok s labels t ∧ inv t ∨ ¬ Run step ok s labels t ∧ bad t := by
  induction run with
  | nil s => exact .inl ⟨.nil s, start⟩
  | cons meets taken tail ih =>
    rcases split _ _ _ start meets taken with ⟨here, later⟩ | ⟨missed, damaged⟩
    · rcases ih later with ⟨rest, last⟩ | ⟨broken, last⟩
      · exact .inl ⟨.cons here taken rest, last⟩
      · refine .inr ⟨fun whole => broken ?_, last⟩
        cases whole with
        | cons first moved rest =>
          cases Option.some.inj (taken.symm.trans moved)
          exact rest
    · refine .inr ⟨fun whole => ?_, runInvariant bad stuck tail damaged⟩
      cases whole with
      | cons first moved rest => exact missed first

theorem runSticky (inv bad : σ → Prop) {legal : σ → α → Prop} (clean : ∀ s, inv s → ¬ bad s)
    (split : ∀ s a u, inv s → legal s a → step s a = some u →
      ok s a ∧ inv u ∨ ¬ ok s a ∧ bad u)
    (stuck : ∀ s a u, bad s → legal s a → step s a = some u → bad u)
    {s t : σ} {labels : List α} (run : Run step legal s labels t) (start : inv s) :
    ¬ bad t ↔ Run step ok s labels t := by
  rcases runOrDamage inv bad split stuck run start with ⟨whole, sound⟩ | ⟨broken, damaged⟩
  · exact ⟨fun _ => whole, fun _ => clean t sound⟩
  · exact ⟨fun sound => absurd damaged sound, fun whole => absurd whole broken⟩

def exec (step : σ → α → Option σ) : σ → List α → Option σ
  | s, [] => some s
  | s, a :: rest => (step s a).bind (fun u => exec step u rest)

theorem runExec {s t : σ} {labels : List α} (run : Run step ok s labels t) :
    exec step s labels = some t := by
  induction run with
  | nil s => rfl
  | cons meets taken tail ih => simp only [exec, taken, Option.bind_some, ih]

theorem runLast (labels : List α) {s t : σ} {a : α} (run : Run step ok s (labels ++ [a]) t) :
    ∃ u, exec step s labels = some u ∧ ok u a := by
  obtain ⟨u, before, last⟩ := runSplit run
  cases last with
  | cons meets taken tail => exact ⟨u, runExec before, meets⟩

def Reaches (step : σ → α → Option σ) (goal : σ → Prop) (s : σ) : Prop :=
  ∃ labels t, Run step (fun _ _ => True) s labels t ∧ goal t

theorem reachesHere {goal : σ → Prop} {s : σ} (here : goal s) : Reaches step goal s :=
  ⟨[], s, .nil s, here⟩

theorem reachesStep {goal : σ → Prop} {s u : σ} {a : α} (taken : step s a = some u)
    (later : Reaches step goal u) : Reaches step goal s := by
  obtain ⟨labels, t, run, there⟩ := later
  exact ⟨a :: labels, t, .cons trivial taken run, there⟩

theorem reachesTrans {goal between : σ → Prop} {s : σ} (first : Reaches step between s)
    (second : ∀ u, between u → Reaches step goal u) : Reaches step goal s := by
  obtain ⟨left, u, before, there⟩ := first
  obtain ⟨right, t, after, last⟩ := second u there
  exact ⟨left ++ right, t, runAppend before after, last⟩

def checkRun (step : σ → α → Option σ) (ok : σ → α → Prop) [∀ s a, Decidable (ok s a)] :
    σ → List α → Option σ
  | s, [] => some s
  | s, a :: rest => if ok s a then (step s a).bind (fun u => checkRun step ok u rest) else none

theorem checkRuns [∀ s a, Decidable (ok s a)] {s t : σ} {labels : List α}
    (found : checkRun step ok s labels = some t) : Run step ok s labels t := by
  induction labels generalizing s with
  | nil => cases found; exact .nil _
  | cons a rest ih =>
    simp only [checkRun] at found
    split at found
    · rename_i meets
      obtain ⟨u, taken, later⟩ := Option.bind_eq_some_iff.mp found
      exact .cons meets taken (ih later)
    · contradiction

theorem checkedRun (step : σ → α → Option σ) (ok : σ → α → Prop) [∀ s a, Decidable (ok s a)]
    (s : σ) (labels : List α)
    (found : (checkRun step ok s labels).isSome) : ∃ t, Run step ok s labels t := by
  obtain ⟨t, reached⟩ := Option.isSome_iff_exists.mp found
  exact ⟨t, checkRuns reached⟩

theorem checkedEnd {β : Type*} (step : σ → α → Option σ) (ok : σ → α → Prop)
    [∀ s a, Decidable (ok s a)] (s : σ) (labels : List α) (view : σ → β) (seen : β)
    (found : (checkRun step ok s labels).map view = some seen) :
    ∃ t, Run step ok s labels t ∧ view t = seen := by
  obtain ⟨t, reached, same⟩ := Option.map_eq_some_iff.mp found
  exact ⟨t, checkRuns reached, same⟩

end Steps

/- Machines that answer every label. A missing answer is a step the code leaves
undefined, so a trace exists only for runs without one. -/
section Reactions
variable {σ τ α ο : Type*}

def trace (react : σ → α → Option (ο × σ)) : σ → List α → Option (List ο)
  | _, [] => some []
  | s, a :: rest =>
    (react s a).bind (fun out => (trace react out.2 rest).map (fun later => out.1 :: later))

theorem traceSimulation {react : σ → α → Option (ο × σ)} {spec : τ → α → ο × τ}
    {rel : σ → τ → List α → Prop}
    (simulates : ∀ s t a rest, rel s t (a :: rest) →
      ∃ u, react s a = some ((spec t a).1, u) ∧ rel u (spec t a).2 rest)
    {s : σ} {t : τ} {labels : List α} (related : rel s t labels) :
    trace react s labels = trace (fun x a => some (spec x a)) t labels := by
  induction labels generalizing s t with
  | nil => rfl
  | cons a rest ih =>
    obtain ⟨u, answered, next⟩ := simulates s t a rest related
    simp only [trace, answered, Option.bind_some, ih next]

theorem traceSame {react : σ → α → Option (ο × σ)} {rel : σ → σ → Prop}
    (related : ∀ s t a, rel s t → react s a = none ∧ react t a = none ∨
      ∃ o u v, react s a = some (o, u) ∧ react t a = some (o, v) ∧ rel u v)
    {s t : σ} (same : rel s t) (labels : List α) : trace react s labels = trace react t labels := by
  induction labels generalizing s t with
  | nil => rfl
  | cons a rest ih =>
    rcases related s t a same with ⟨left, right⟩ | ⟨o, u, v, left, right, next⟩
    · simp only [trace, left, right]
    · simp only [trace, left, right, Option.bind_some, ih next]

end Reactions

end OsLabs.Runs
