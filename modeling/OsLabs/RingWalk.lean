import Mathlib.Dynamics.PeriodicPts.Lemmas

/-! A do-while walk along the links of a ring: from a start, until the start is met again. It ends
exactly if the start lies on a ring, and has then met every member of the ring once. -/
namespace OsLabs.RingWalk
open Function

section Members
variable {α : Type*} (next : α → α) (start : α)

def members (n : Nat) : List α := (List.range n).map fun k => next^[k] start

variable {next start}

theorem membersSucc (n : Nat) : members next start (n + 1) = start :: members next (next start) n := by
  rw [members, List.range_succ_eq_map, List.map_cons, List.map_map]
  rfl

theorem membersLength (n : Nat) : (members next start n).length = n := by
  rw [members, List.length_map, List.length_range]

theorem membersMem {n : Nat} {t : α} : t ∈ members next start n ↔ ∃ k < n, next^[k] start = t := by
  simp only [members, List.mem_map, List.mem_range]

theorem ringNodup (next : α → α) (start : α) : (members next start (minimalPeriod next start)).Nodup := by
  refine List.Nodup.map_on (fun j left k right same => ?_) List.nodup_range
  exact iterate_injOn_Iio_minimalPeriod (List.mem_range.mp left) (List.mem_range.mp right) same

theorem ringMem (periodic : start ∈ periodicPts next) (t : α) :
    t ∈ members next start (minimalPeriod next start) ↔ ∃ k, next^[k] start = t := by
  rw [membersMem]
  constructor
  · rintro ⟨k, -, same⟩
    exact ⟨k, same⟩
  · rintro ⟨k, same⟩
    exact ⟨k % minimalPeriod next start, Nat.mod_lt _ (minimalPeriod_pos_of_mem_periodicPts periodic),
      iterate_mod_minimalPeriod_eq.trans same⟩

end Members

section Walk
variable {α : Type*} [DecidableEq α] (next : α → α) (start : α)

def walk : Nat → α → Option (List α)
  | 0, _ => none
  | fuel + 1, cur => if next cur = start then some [cur] else (walk fuel (next cur)).map (cur :: ·)

variable {next start}

theorem walkEnds {fuel : Nat} {cur : α} {visited : List α} (ended : walk next start fuel cur = some visited) :
    visited = members next cur visited.length ∧ 0 < visited.length ∧
      next^[visited.length] cur = start ∧ ∀ k < visited.length, 0 < k → next^[k] cur ≠ start := by
  induction fuel generalizing cur visited with
  | zero => cases ended
  | succ fuel ih =>
    rw [walk] at ended
    split at ended
    · rename_i back
      cases Option.some.inj ended
      exact ⟨rfl, Nat.one_pos, back, fun k below pos => by simp only [List.length_singleton] at below; omega⟩
    · rename_i other
      obtain ⟨behind, later, rfl⟩ := Option.map_eq_some_iff.mp ended
      obtain ⟨same, -, back, before⟩ := ih later
      refine ⟨?_, Nat.succ_pos _, back, fun k below pos => ?_⟩
      · rw [List.length_cons, membersSucc, ← same]
      · obtain ⟨k, rfl⟩ := Nat.exists_eq_succ_of_ne_zero (Nat.ne_of_gt pos)
        cases k with
        | zero => exact other
        | succ k => exact before (k + 1) (Nat.lt_of_succ_lt_succ below) (Nat.succ_pos k)

theorem walkReturns {n fuel : Nat} {cur : α} (back : next^[n] (next cur) = start) (enough : n < fuel) :
    (walk next start fuel cur).isSome := by
  obtain ⟨fuel, rfl⟩ := Nat.exists_eq_succ_of_ne_zero (Nat.ne_of_gt (Nat.lt_of_le_of_lt (Nat.zero_le n) enough))
  induction n generalizing fuel cur with
  | zero =>
    have here : next cur = start := back
    rw [walk, if_pos here]
    rfl
  | succ n ih =>
    rw [walk]
    split
    · rfl
    · rw [Option.isSome_map]
      obtain ⟨fuel, rfl⟩ := Nat.exists_eq_succ_of_ne_zero (by omega : fuel ≠ 0)
      exact ih back fuel (Nat.lt_of_succ_lt_succ enough)

theorem walkPeriod {fuel : Nat} {visited : List α} (ended : walk next start fuel start = some visited) :
    start ∈ periodicPts next ∧ visited = members next start (minimalPeriod next start) := by
  obtain ⟨same, positive, back, before⟩ := walkEnds ended
  have periodic : start ∈ periodicPts next := mk_mem_periodicPts positive back
  have length : visited.length = minimalPeriod next start := by
    refine Nat.le_antisymm (Nat.not_lt.mp fun less => ?_) (IsPeriodicPt.minimalPeriod_le positive back)
    exact before _ less (minimalPeriod_pos_of_mem_periodicPts periodic) iterate_minimalPeriod
  exact ⟨periodic, length ▸ same⟩

theorem ringWalked {fuel : Nat} (periodic : start ∈ periodicPts next)
    (enough : minimalPeriod next start ≤ fuel) :
    walk next start fuel start = some (members next start (minimalPeriod next start)) := by
  have pos := minimalPeriod_pos_of_mem_periodicPts periodic
  have back := @iterate_minimalPeriod _ next start
  obtain ⟨n, period⟩ := Nat.exists_eq_succ_of_ne_zero (Nat.ne_of_gt pos)
  rw [period, iterate_succ_apply] at back
  obtain ⟨visited, ended⟩ := Option.isSome_iff_exists.mp (walkReturns back (by omega : n < fuel))
  rw [ended, (walkPeriod ended).2]

end Walk

end OsLabs.RingWalk
