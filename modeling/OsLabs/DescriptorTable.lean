import Mathlib.Data.Nat.Notation
import Mathlib.Logic.Function.Basic

/-! The table of the open descriptors of a process. A new descriptor gets the lowest free number,
and only one below the limit. What the descriptors stand for is left open. -/
namespace OsLabs.DescriptorTable

abbrev Table (α : Type*) := Nat → Option α

section Operations
variable {α : Type*}

def lowest (t : Table α) (limit : Nat) : Option Nat :=
  (List.range limit).find? fun fd => (t fd).isNone

def install (t : Table α) (limit : Nat) (file : α) : Option (Nat × Table α) :=
  (lowest t limit).map fun fd => (fd, Function.update t fd (some file))

def dup (t : Table α) (limit fd : Nat) : Option (Nat × Table α) := (t fd).bind (install t limit)

def close (t : Table α) (fd : Nat) : Table α := Function.update t fd none

def closedBelow (t : Table α) (n : Nat) : Table α := fun fd => if fd < n then none else t fd

def filledBelow (t : Table α) (n : Nat) (file : α) : Table α :=
  fun fd => if fd < n then some file else t fd

variable {t : Table α} {limit : Nat}

theorem lowestIs {fd : Nat} : lowest t limit = some fd ↔ fd < limit ∧ t fd = none ∧ ∀ k < fd, t k ≠ none := by
  rw [lowest, List.find?_range_eq_some]
  simp only [Option.isNone_iff_eq_none, List.mem_range, Bool.not_eq_true', Option.isNone_eq_false_iff,
    Option.isSome_iff_ne_none]
  exact ⟨fun h => ⟨h.2.1, h.1, h.2.2⟩, fun h => ⟨h.2.1, h.1, h.2.2⟩⟩

theorem lowestNone : lowest t limit = none ↔ ∀ fd < limit, t fd ≠ none := by
  simp only [lowest, List.find?_eq_none, List.mem_range, Option.isNone_iff_eq_none, ne_eq]

theorem closeNext (t : Table α) (n : Nat) : close (closedBelow t n) n = closedBelow t (n + 1) := by
  funext fd
  by_cases same : fd = n
  · rw [same, close, Function.update_self, closedBelow, if_pos (Nat.lt_succ_self n)]
  · rw [close, Function.update_of_ne same]
    have either : fd < n ↔ fd < n + 1 := by omega
    simp only [closedBelow, either]

theorem filledNone (t : Table α) (file : α) : filledBelow t 0 file = t := rfl

variable {file : α} {k : Nat}

theorem filledAt (below : k < limit) : filledBelow t limit file k = some file := if_pos below

theorem filledBehind (behind : limit ≤ k) : filledBelow t limit file k = t k :=
  if_neg (Nat.not_lt.mpr behind)

theorem installNext (below : k < limit) (free : t k = none) :
    install (filledBelow t k file) limit file = some (k, filledBelow t (k + 1) file) := by
  have taken : ∀ j < k, filledBelow t k file j ≠ none := by
    intro j early
    rw [filledAt early]
    exact Option.some_ne_none file
  have first : lowest (filledBelow t k file) limit = some k :=
    lowestIs.mpr ⟨below, (filledBehind (Nat.le_refl k)).trans free, taken⟩
  have grown : Function.update (filledBelow t k file) k (some file) = filledBelow t (k + 1) file := by
    funext fd
    by_cases same : fd = k
    · rw [same, Function.update_self, filledAt (Nat.lt_succ_self k)]
    · rw [Function.update_of_ne same]
      have either : fd < k ↔ fd < k + 1 := by omega
      simp only [filledBelow, either]
  rw [install, first, Option.map_some, grown]

theorem installFull (full : limit ≤ k) (other : α) : install (filledBelow t k file) limit other = none := by
  refine Option.map_eq_none_iff.mpr (lowestNone.mpr fun fd below => ?_)
  rw [filledAt (Nat.lt_of_lt_of_le below full)]
  exact Option.some_ne_none file

end Operations

end OsLabs.DescriptorTable
