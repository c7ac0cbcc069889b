import Mathlib.Data.List.Range

/-! A list that only grows, read by one cursor in cyclic order. The cursor goes back
to the first item when it has reached the number of items present at that moment,
so items added during a pass belong to it. -/
namespace OsLabs.CyclicList

structure Cursor (α : Type*) where
  items : List α
  next : Nat
  inRange : next ≤ items.length

variable {α : Type*}

namespace Cursor

def empty : Cursor α := ⟨[], 0, Nat.le_refl 0⟩

def add (c : Cursor α) (item : α) : Cursor α :=
  ⟨c.items ++ [item], c.next, by rw [List.length_append]; exact Nat.le_add_right_of_le c.inRange⟩

def turn (c : Cursor α) : Nat := if c.next = c.items.length then 0 else c.next

theorem turnLt (c : Cursor α) (filled : 0 < c.items.length) : c.turn < c.items.length := by
  have := c.inRange
  unfold turn
  split <;> omega

def current (c : Cursor α) (filled : 0 < c.items.length) : α :=
  c.items.get ⟨c.turn, c.turnLt filled⟩

def advance (c : Cursor α) (filled : 0 < c.items.length) : Cursor α :=
  ⟨c.items, c.turn + 1, c.turnLt filled⟩

end Cursor

inductive Call (α : Type*) where
  | add (item : α)
  | serve

structure Turn where
  number : Nat
  present : Nat
  deriving DecidableEq, Repr

def call (c : Cursor α) : Call α → Cursor α
  | .add item => c.add item
  | .serve => if filled : 0 < c.items.length then c.advance filled else c

def turns (c : Cursor α) : List (Call α) → List Turn
  | [] => []
  | .add item :: rest => turns (c.add item) rest
  | .serve :: rest =>
      if filled : 0 < c.items.length then ⟨c.turn, c.items.length⟩ :: turns (c.advance filled) rest
      else turns c rest

theorem turnsUntilReset {c : Cursor α} {calls : List (Call α)} {mid post : List Turn} {last : Turn}
    (started : 0 < c.next) (log : turns c calls = mid ++ last :: post)
    (inside : ∀ t ∈ mid, t.number ≠ 0) (reset : last.number = 0) :
    mid.map Turn.number = List.range' c.next mid.length ∧ last.present = c.next + mid.length := by
  induction calls generalizing c mid with
  | nil => simp [turns] at log
  | cons first rest ih =>
    cases first with
    | add item => exact ih (c := c.add item) started log inside
    | serve =>
      simp only [turns] at log
      split at log
      · rename_i filled
        cases mid with
        | nil =>
          simp only [List.nil_append, List.cons.injEq] at log
          have same := log.1.symm
          subst same
          have ended : c.next = c.items.length := by
            by_contra other
            simp only [Cursor.turn, if_neg other] at reset
            omega
          exact ⟨rfl, by simp [ended]⟩
        | cons head tail =>
          simp only [List.cons_append, List.cons.injEq] at log
          obtain ⟨same, later⟩ := log
          subst same
          have fresh := inside _ List.mem_cons_self
          have stays : c.turn = c.next := by
            simp only [Cursor.turn] at fresh ⊢
            split at fresh
            · exact absurd rfl fresh
            · rename_i other; exact if_neg other
          have next := ih (c := c.advance filled) (Nat.succ_pos _) later
            (fun t mem => inside t (List.mem_cons_of_mem _ mem))
          simp only [Cursor.advance, stays] at next
          simp only [List.map_cons, List.length_cons, List.range'_succ, next.1, stays, next.2, true_and]
          omega
      · exact ih started log inside

theorem passExact {c : Cursor α} {calls : List (Call α)} {pre mid post : List Turn}
    {first last : Turn} (log : turns c calls = pre ++ first :: mid ++ last :: post)
    (start : first.number = 0) (inside : ∀ t ∈ mid, t.number ≠ 0) (reset : last.number = 0) :
    (first :: mid).map Turn.number = List.range last.present := by
  induction calls generalizing c pre with
  | nil => simp [turns] at log
  | cons head rest ih =>
    cases head with
    | add item => exact ih (c := c.add item) log
    | serve =>
      simp only [turns] at log
      split at log
      · rename_i filled
        cases pre with
        | cons earlier pre =>
          simp only [List.cons_append, List.cons.injEq] at log
          exact ih (c := c.advance filled) log.2
        | nil =>
          simp only [List.nil_append, List.cons_append, List.cons.injEq] at log
          obtain ⟨same, later⟩ := log
          have turn : c.turn = 0 := by rw [← start, ← same]
          have after := turnsUntilReset (c := c.advance filled) (Nat.succ_pos _) later inside reset
          simp only [Cursor.advance, turn, Nat.zero_add] at after
          rw [List.map_cons, after.1, after.2, start, List.range_eq_range', Nat.add_comm,
            List.range'_succ]
      · exact ih log

end OsLabs.CyclicList
