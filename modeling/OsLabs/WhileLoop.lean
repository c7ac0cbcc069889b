import Mathlib.Data.Nat.Notation

/-! A while loop run with fuel, over a body that may fail. `Leads` says that the loop gets
from one state to another whatever the fuel left over. -/
namespace OsLabs.WhileLoop

section Loop
variable {σ ε : Type*} (done : σ → Bool) (body : σ → Except ε σ)

def whileLoop : Nat → σ → Option (Except ε σ)
  | 0, _ => none
  | fuel + 1, s =>
      if done s then some (.ok s)
      else match body s with
        | .error e => some (.error e)
        | .ok t => whileLoop fuel t

def Leads (s t : σ) : Prop :=
  ∃ n, ∀ fuel, whileLoop done body (n + fuel) s = whileLoop done body fuel t

variable {done body}

theorem leadsRefl (s : σ) : Leads done body s s := ⟨0, fun fuel => by rw [Nat.zero_add]⟩

theorem leadsTrans {s t u : σ} (first : Leads done body s t) (second : Leads done body t u) :
    Leads done body s u := by
  obtain ⟨n, early⟩ := first
  obtain ⟨m, late⟩ := second
  exact ⟨n + m, fun fuel => by rw [Nat.add_assoc, early, late]⟩

theorem leadsStep {s t : σ} (more : done s = false) (taken : body s = .ok t) :
    Leads done body s t :=
  ⟨1, fun fuel => by rw [Nat.add_comm, whileLoop, more, taken]; rfl⟩

theorem leadsDone {s t : σ} (leads : Leads done body s t) (ended : done t = true) :
    ∃ n, ∀ fuel, n ≤ fuel → whileLoop done body fuel s = some (.ok t) := by
  obtain ⟨n, early⟩ := leads
  refine ⟨n + 1, fun fuel enough => ?_⟩
  obtain ⟨rest, rfl⟩ := Nat.exists_eq_add_of_le enough
  rw [Nat.add_assoc, early, Nat.add_comm, whileLoop, ended]
  rfl

theorem whileCases {fuel : Nat} {s : σ} {result : Except ε σ}
    (ended : whileLoop done body (fuel + 1) s = some result) :
    done s = true ∧ result = .ok s ∨
      done s = false ∧ ((∃ e, body s = .error e ∧ result = .error e) ∨
        ∃ t, body s = .ok t ∧ whileLoop done body fuel t = some result) := by
  rw [whileLoop] at ended
  cases stop : done s with
  | true =>
    rw [stop] at ended
    cases ended
    exact .inl ⟨rfl, rfl⟩
  | false =>
    rw [stop, if_neg Bool.false_ne_true] at ended
    refine .inr ⟨rfl, ?_⟩
    cases taken : body s with
    | error e =>
      rw [taken] at ended
      cases ended
      exact .inl ⟨e, rfl, rfl⟩
    | ok t =>
      rw [taken] at ended
      exact .inr ⟨t, rfl, ended⟩

theorem whileInvariant (inv : σ → Prop)
    (kept : ∀ s t, inv s → done s = false → body s = .ok t → inv t) {fuel : Nat} {s t : σ}
    (start : inv s) (ended : whileLoop done body fuel s = some (.ok t)) : inv t := by
  induction fuel generalizing s with
  | zero => cases ended
  | succ fuel ih =>
    rcases whileCases ended with ⟨-, same⟩ | ⟨more, ⟨e, -, same⟩ | ⟨u, taken, later⟩⟩
    · cases same
      exact start
    · cases same
    · exact ih (kept s u start more taken) later

theorem whileDone {fuel : Nat} {s t : σ} (ended : whileLoop done body fuel s = some (.ok t)) :
    done t = true := by
  induction fuel generalizing s with
  | zero => cases ended
  | succ fuel ih =>
    rcases whileCases ended with ⟨stop, same⟩ | ⟨-, ⟨e, -, same⟩ | ⟨u, -, later⟩⟩
    · cases same
      exact stop
    · cases same
    · exact ih later

theorem whileEnds (measure : σ → Nat)
    (lowers : ∀ s t, done s = false → body s = .ok t → measure t < measure s) {fuel : Nat} {s : σ}
    (enough : measure s < fuel) : (whileLoop done body fuel s).isSome := by
  induction fuel generalizing s with
  | zero => exact absurd enough (Nat.not_lt_zero _)
  | succ fuel ih =>
    rw [whileLoop]
    cases stop : done s with
    | true => rfl
    | false =>
      cases taken : body s with
      | error e => rfl
      | ok t => exact ih (Nat.lt_of_lt_of_le (lowers s t stop taken) (Nat.le_of_lt_succ enough))

theorem whileTotal (inv : σ → Prop) (measure : σ → Nat)
    (turn : ∀ s, inv s → done s = false → ∃ t, body s = .ok t ∧ inv t ∧ measure t < measure s) {s : σ}
    (start : inv s) : ∃ t, inv t ∧ done t = true ∧
      ∀ fuel, measure s < fuel → whileLoop done body fuel s = some (.ok t) := by
  induction h : measure s using Nat.strongRecOn generalizing s with
  | ind n ih =>
    cases stop : done s with
    | true =>
      refine ⟨s, start, stop, fun fuel enough => ?_⟩
      obtain ⟨fuel, rfl⟩ := Nat.exists_eq_succ_of_ne_zero (Nat.ne_of_gt (Nat.lt_of_le_of_lt (Nat.zero_le n) enough))
      rw [whileLoop, stop, if_pos rfl]
    | false =>
      obtain ⟨u, taken, kept, lowers⟩ := turn s start stop
      obtain ⟨t, last, ended, runs⟩ := ih (measure u) (h ▸ lowers) kept rfl
      refine ⟨t, last, ended, fun fuel enough => ?_⟩
      obtain ⟨fuel, rfl⟩ := Nat.exists_eq_succ_of_ne_zero (Nat.ne_of_gt (Nat.lt_of_le_of_lt (Nat.zero_le n) enough))
      rw [whileLoop, stop, if_neg Bool.false_ne_true, taken]
      exact runs fuel (Nat.lt_of_lt_of_le (h ▸ lowers) (Nat.le_of_lt_succ enough))

theorem whileFails (inv : σ → Prop)
    (kept : ∀ s t, inv s → done s = false → body s = .ok t → inv t) {fuel : Nat} {s : σ} {e : ε}
    (start : inv s) (ended : whileLoop done body fuel s = some (.error e)) :
    ∃ t, inv t ∧ done t = false ∧ body t = .error e := by
  induction fuel generalizing s with
  | zero => cases ended
  | succ fuel ih =>
    rcases whileCases ended with ⟨-, same⟩ | ⟨more, ⟨d, failed, same⟩ | ⟨u, taken, later⟩⟩
    · cases same
    · cases same
      exact ⟨s, start, more, failed⟩
    · exact ih (kept s u start more taken) later

theorem whileMore {fuel : Nat} {s : σ} {result : Except ε σ}
    (ended : whileLoop done body fuel s = some result) (more : Nat) :
    whileLoop done body (fuel + more) s = some result := by
  induction fuel generalizing s with
  | zero => cases ended
  | succ fuel ih =>
    rw [Nat.succ_add, whileLoop]
    rcases whileCases ended with ⟨stop, rfl⟩ | ⟨goes, ⟨e, failed, rfl⟩ | ⟨t, taken, later⟩⟩
    · rw [if_pos stop]
    · rw [goes, if_neg Bool.false_ne_true, failed]
    · rw [goes, if_neg Bool.false_ne_true, taken]
      exact ih later

theorem whileSimulates {τ δ : Type*} {done' : τ → Bool} {body' : τ → Except δ τ}
    (rel : σ → τ → Prop) (agree : ∀ s t, rel s t → done s = done' t)
    (fails : ∀ s t e, rel s t → done s = false → body s = .error e → ∃ d, body' t = .error d)
    (moves : ∀ s t u, rel s t → done s = false → body s = .ok u → ∃ v, body' t = .ok v ∧ rel u v)
    (fuel : Nat) {s : σ} {t : τ} (start : rel s t) :
    whileLoop done body fuel s = none ∧ whileLoop done' body' fuel t = none ∨
      (∃ e d, whileLoop done body fuel s = some (.error e) ∧
        whileLoop done' body' fuel t = some (.error d)) ∨
      ∃ u v, whileLoop done body fuel s = some (.ok u) ∧
        whileLoop done' body' fuel t = some (.ok v) ∧ rel u v := by
  induction fuel generalizing s t with
  | zero => exact .inl ⟨rfl, rfl⟩
  | succ fuel ih =>
    rw [whileLoop, whileLoop, ← agree s t start]
    cases stop : done s with
    | true => exact .inr (.inr ⟨s, t, rfl, rfl, start⟩)
    | false =>
      cases taken : body s with
      | error e =>
        obtain ⟨d, other⟩ := fails s t e start stop taken
        exact .inr (.inl ⟨e, d, rfl, by rw [other]; rfl⟩)
      | ok u =>
        obtain ⟨v, other, related⟩ := moves s t u start stop taken
        rw [other]
        exact ih related

end Loop

end OsLabs.WhileLoop
