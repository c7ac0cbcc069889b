/-! Ordered forests and their rows: every node with its depth, in preorder. The rows are read
back into the forest, the children of a row being the deeper rows right behind it. -/
namespace OsLabs.DepthRows

variable {α : Type}

inductive Forest (α : Type) where
  | nil
  | cons (root : α) (children rest : Forest α)
  deriving DecidableEq, Repr

namespace Forest

def append : Forest α → Forest α → Forest α
  | nil, g => g
  | cons root children rest, g => cons root children (rest.append g)

def rows (depth : Nat) : Forest α → List (Nat × α)
  | nil => []
  | cons root children rest => (depth, root) :: (children.rows (depth + 1) ++ rest.rows depth)

theorem rowsAppend (depth : Nat) (f g : Forest α) :
    (f.append g).rows depth = f.rows depth ++ g.rows depth := by
  induction f with
  | nil => rfl
  | cons root children rest _ ih => simp only [append, rows, ih, List.cons_append, List.append_assoc]

theorem rowsDeep {depth : Nat} {f : Forest α} : ∀ r ∈ f.rows depth, depth ≤ r.1 := by
  induction f generalizing depth with
  | nil => intro r mem; cases mem
  | cons root children rest below beside =>
    intro r mem
    rcases List.mem_cons.mp mem with rfl | mem
    · exact Nat.le_refl _
    · rcases List.mem_append.mp mem with inside | behind
      · exact Nat.le_of_succ_le (below r inside)
      · exact beside r behind

end Forest

def readForest : Nat → List (Nat × α) → Forest α
  | 0, _ => .nil
  | _, [] => .nil
  | fuel + 1, (depth, root) :: more =>
      .cons root (readForest fuel (more.takeWhile fun r => decide (depth < r.1)))
        (readForest fuel (more.dropWhile fun r => decide (depth < r.1)))

theorem childRows (depth : Nat) (children rest : Forest α) :
    (children.rows (depth + 1) ++ rest.rows depth).takeWhile (fun r => decide (depth < r.1)) =
      children.rows (depth + 1) ∧
    (children.rows (depth + 1) ++ rest.rows depth).dropWhile (fun r => decide (depth < r.1)) =
      rest.rows depth := by
  have deeper : ∀ r ∈ children.rows (depth + 1), decide (depth < r.1) = true := by
    intro r mem
    exact decide_eq_true (Forest.rowsDeep r mem)
  rw [List.takeWhile_append_of_pos deeper, List.dropWhile_append_of_pos deeper]
  cases rest with
  | nil => exact ⟨List.append_nil _, rfl⟩
  | cons root children rest =>
    have stops : decide (depth < depth) = false := decide_eq_false (Nat.lt_irrefl depth)
    simp only [Forest.rows, List.takeWhile_cons, List.dropWhile_cons, stops, Bool.false_eq_true,
      if_false, List.append_nil, and_self]

theorem readRows (f : Forest α) (depth fuel : Nat) (enough : (f.rows depth).length ≤ fuel) :
    readForest fuel (f.rows depth) = f := by
  induction f generalizing depth fuel with
  | nil => cases fuel <;> rfl
  | cons root children rest below beside =>
    simp only [Forest.rows, List.length_cons, List.length_append] at enough
    obtain ⟨fuel, rfl⟩ := Nat.exists_eq_succ_of_ne_zero (by omega : fuel ≠ 0)
    obtain ⟨inside, behind⟩ := childRows depth children rest
    rw [Forest.rows, readForest, inside, behind, below _ _ (by omega), beside _ _ (by omega)]

end OsLabs.DepthRows
