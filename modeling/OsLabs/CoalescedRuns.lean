import Mathlib.Data.List.Perm.Subperm

/-! Requests that are remembered by one flag, and the runs that serve them. A run takes the flag
down when it begins, and then reads the newest request once. A run is known by the number of
requests that had come when it began and when it looked. -/
namespace OsLabs.CoalescedRuns

structure Slot where
  pending : Bool
  starts : List Nat
  deriving DecidableEq, Repr

def Slot.empty : Slot := ⟨false, []⟩

def Slot.request (s : Slot) : Slot := {s with pending := true}

def Slot.start (s : Slot) (requests : Nat) : Slot := ⟨false, s.starts ++ [requests]⟩

structure Keeps (s : Slot) (requests : Nat) : Prop where
  increasing : s.starts.Pairwise (· < ·)
  asked : ∀ k ∈ s.starts, 0 < k
  bound : ∀ k ∈ s.starts, k ≤ requests
  behind : s.pending = true → 0 < requests ∧ ∀ k ∈ s.starts, k < requests
  served : s.pending = false → 0 < requests → s.starts.getLast? = some requests

theorem emptyKeeps : Keeps Slot.empty 0 where
  increasing := .nil
  asked := by intro k mem; cases mem
  bound := by intro k mem; cases mem
  behind := fun pending => Bool.noConfusion pending
  served := fun _ asked => absurd asked (Nat.lt_irrefl 0)

theorem requestKeeps {s : Slot} {requests : Nat} (keeps : Keeps s requests) :
    Keeps s.request (requests + 1) where
  increasing := keeps.increasing
  asked := keeps.asked
  bound := fun k mem => Nat.le_succ_of_le (keeps.bound k mem)
  behind := fun _ => ⟨Nat.succ_pos _, fun k mem => Nat.lt_succ_of_le (keeps.bound k mem)⟩
  served := fun clear => Bool.noConfusion clear

theorem startKeeps {s : Slot} {requests : Nat} (keeps : Keeps s requests) (pending : s.pending = true) :
    Keeps (s.start requests) requests := by
  obtain ⟨asked, below⟩ := keeps.behind pending
  have mems : ∀ k ∈ s.starts ++ [requests], k ∈ s.starts ∨ k = requests := by
    intro k mem
    rcases List.mem_append.mp mem with old | new
    · exact .inl old
    · exact .inr (List.mem_singleton.mp new)
  constructor
  · refine List.pairwise_append.mpr ⟨keeps.increasing, List.pairwise_singleton _ _, ?_⟩
    intro k old l new
    rw [List.mem_singleton.mp new]
    exact below k old
  · intro k mem
    rcases mems k mem with old | rfl
    · exact keeps.asked k old
    · exact asked
  · intro k mem
    rcases mems k mem with old | rfl
    · exact keeps.bound k old
    · exact Nat.le_refl _
  · exact fun up => Bool.noConfusion up
  · exact fun _ _ => List.getLast?_concat

theorem increasingShort {bound : Nat} : ∀ {l : List Nat}, l.Pairwise (· < ·) → (∀ k ∈ l, 0 < k) →
    (∀ k ∈ l, k ≤ bound) → l.length ≤ bound := by
  intro l increasing asked below
  have once : l.Nodup := increasing.imp fun less => Nat.ne_of_lt less
  have inside : l ⊆ List.range' 1 bound := by
    intro k mem
    have low := asked k mem
    have high := below k mem
    exact List.mem_range'_1.mpr ⟨low, by omega⟩
  have short := (List.subperm_of_subset once inside).length_le
  rwa [List.length_range'] at short

theorem startsShort {s : Slot} {requests : Nat} (keeps : Keeps s requests) :
    s.starts.length ≤ requests :=
  increasingShort keeps.increasing keeps.asked keeps.bound

def Follows (r later : Nat × Nat) : Prop := r.1 < later.1 ∧ r.2 ≤ later.1

structure Looks (looks : List (Nat × Nat)) : Prop where
  after : ∀ r ∈ looks, r.1 ≤ r.2
  follow : looks.Pairwise Follows

theorem looksAgain {looks : List (Nat × Nat)} (old : Looks looks) {r : Nat × Nat} (after : r.1 ≤ r.2)
    (later : ∀ l ∈ looks, Follows l r) : Looks (looks ++ [r]) := by
  constructor
  · intro l mem
    rcases List.mem_append.mp mem with before | new
    · exact old.after l before
    · rw [List.mem_singleton.mp new]
      exact after
  · refine List.pairwise_append.mpr ⟨old.follow, List.pairwise_singleton _ _, ?_⟩
    intro l before k new
    rw [List.mem_singleton.mp new]
    exact later l before

theorem looksSorted {looks : List (Nat × Nat)} (ok : Looks looks) :
    (looks.map Prod.snd).Pairwise (· ≤ ·) := by
  rw [List.pairwise_map]
  refine List.Pairwise.imp_of_mem (fun {a b} _ there follows => ?_) ok.follow
  exact Nat.le_trans follows.2 (ok.after b there)

theorem threeFirst {α : Type*} : ∀ {l : List α}, 3 ≤ l.length → ∃ a b c rest, l = a :: b :: c :: rest
  | a :: b :: c :: rest, _ => ⟨a, b, c, rest, rfl⟩

theorem looksTwice {looks : List (Nat × Nat)} (ok : Looks looks) (k : Nat) :
    (looks.map Prod.snd).count k ≤ 2 := by
  by_contra many
  have three : 3 ≤ (looks.filter fun r => r.2 == k).length := by
    rw [List.count_eq_countP, List.countP_map, List.countP_eq_length_filter] at many
    exact Nat.lt_of_not_le many
  have order := ok.follow.sublist (List.filter_sublist (p := fun r => r.2 == k))
  have same : ∀ r ∈ looks.filter (fun r => r.2 == k), r ∈ looks ∧ r.2 = k := by
    intro r mem
    obtain ⟨here, equal⟩ := List.mem_filter.mp mem
    exact ⟨here, eq_of_beq equal⟩
  obtain ⟨a, b, c, rest, shape⟩ := threeFirst three
  rw [shape] at order same
  have first : a.2 ≤ b.1 := ((List.pairwise_cons.mp order).1 b List.mem_cons_self).2
  have second : b.1 < c.1 :=
    ((List.pairwise_cons.mp (List.pairwise_cons.mp order).2).1 c List.mem_cons_self).1
  obtain ⟨-, front⟩ := same a List.mem_cons_self
  obtain ⟨there, back⟩ := same c (List.mem_cons_of_mem _ (List.mem_cons_of_mem _ List.mem_cons_self))
  have last := ok.after c there
  omega

inductive Stage where
  | idle
  | started (requests : Nat)
  | looked
  deriving DecidableEq, Repr

def Reads (starts : List Nat) (looks : List (Nat × Nat)) : Stage → Prop
  | .started requests => starts = looks.map Prod.fst ++ [requests] ∧ ∀ r ∈ looks, r.2 ≤ requests
  | .idle | .looked => starts = looks.map Prod.fst

section Worker
variable {α : Type*}

structure Serves (slot : Slot) (stage : Stage) (looks : List (Nat × Nat)) (requests read : List α) :
    Prop where
  slots : Keeps slot requests.length
  order : Looks looks
  bound : ∀ r ∈ looks, r.2 ≤ requests.length
  reads : Reads slot.starts looks stage
  codes : read.map some = looks.map fun r => requests[r.2 - 1]?

variable {slot : Slot} {stage : Stage} {looks : List (Nat × Nat)} {requests read : List α}

theorem emptyServes : Serves Slot.empty .idle [] ([] : List α) [] where
  slots := emptyKeeps
  order := ⟨fun _ mem => absurd mem List.not_mem_nil, .nil⟩
  bound := fun _ mem => absurd mem List.not_mem_nil
  reads := rfl
  codes := rfl

theorem looksPositive (serves : Serves slot stage looks requests read) : ∀ r ∈ looks, 0 < r.2 := by
  intro r mem
  have begun : r.1 ∈ slot.starts := by
    have among : r.1 ∈ looks.map Prod.fst := List.mem_map_of_mem mem
    have reads := serves.reads
    cases stage with
    | started count =>
      rw [reads.1]
      exact List.mem_append_left _ among
    | idle | looked =>
      rw [show slot.starts = looks.map Prod.fst from reads]
      exact among
  exact Nat.lt_of_lt_of_le (serves.slots.asked _ begun) (serves.order.after r mem)

theorem requestServes (serves : Serves slot stage looks requests read) (a : α) :
    Serves slot.request stage looks (requests ++ [a]) read where
  slots := by
    rw [List.length_append]
    exact requestKeeps serves.slots
  order := serves.order
  bound := fun r mem => by
    rw [List.length_append]
    exact Nat.le_add_right_of_le (serves.bound r mem)
  reads := serves.reads
  codes := by
    refine serves.codes.trans (List.map_congr_left fun r mem => ?_)
    have low := looksPositive serves r mem
    have high := serves.bound r mem
    exact (List.getElem?_append_left (by omega)).symm

theorem beginServes (serves : Serves slot .idle looks requests read) (pending : slot.pending = true) :
    Serves (slot.start requests.length) (.started requests.length) looks requests read where
  slots := startKeeps serves.slots pending
  order := serves.order
  bound := serves.bound
  reads := ⟨congrArg (· ++ [requests.length]) serves.reads, serves.bound⟩
  codes := serves.codes

theorem lookServes {count : Nat} (serves : Serves slot (.started count) looks requests read) :
    ∃ a, requests.getLast? = some a ∧
      Serves slot .looked (looks ++ [(count, requests.length)]) requests (read ++ [a]) := by
  obtain ⟨starts, behind⟩ := serves.reads
  have keeps := serves.slots
  have last : count ∈ slot.starts := by
    rw [starts]
    exact List.mem_append_right _ List.mem_cons_self
  have filled : 0 < requests.length := Nat.lt_of_lt_of_le (keeps.asked _ last) (keeps.bound _ last)
  have order : ∀ r ∈ looks, r.1 < count := by
    have increasing := keeps.increasing
    rw [starts] at increasing
    intro r mem
    exact (List.pairwise_append.mp increasing).2.2 r.1 (List.mem_map_of_mem mem) count List.mem_cons_self
  have newest : requests[requests.length - 1]? = some (requests.getLast (List.length_pos_iff.mp filled)) := by
    rw [← List.getLast?_eq_getElem?]
    exact List.getLast?_eq_some_getLast _
  refine ⟨_, List.getLast?_eq_some_getLast (List.length_pos_iff.mp filled), keeps, ?_, ?_, ?_, ?_⟩
  · exact looksAgain serves.order (keeps.bound _ last) fun r mem => ⟨order r mem, behind r mem⟩
  · intro r mem
    rcases List.mem_append.mp mem with old | new
    · exact serves.bound r old
    · exact Nat.le_of_eq (congrArg Prod.snd (List.mem_singleton.mp new))
  · simp only [Reads, List.map_append, List.map_cons, List.map_nil, starts]
  · simp only [List.map_append, List.map_cons, List.map_nil, serves.codes, newest]

theorem endServes (serves : Serves slot .looked looks requests read) :
    Serves slot .idle looks requests read :=
  ⟨serves.slots, serves.order, serves.bound, serves.reads, serves.codes⟩

def ReadInOrder (requests read : List α) : Prop :=
  ∃ places : List Nat, places.Pairwise (· ≤ ·) ∧ (∀ k, places.count k ≤ 2) ∧
    (∀ k ∈ places, 0 < k ∧ k ≤ requests.length) ∧ read.map some = places.map fun k => requests[k - 1]?

theorem readsOrdered (serves : Serves slot stage looks requests read) : ReadInOrder requests read := by
  refine ⟨looks.map Prod.snd, looksSorted serves.order, looksTwice serves.order, ?_, ?_⟩
  · intro k mem
    obtain ⟨r, here, rfl⟩ := List.mem_map.mp mem
    exact ⟨looksPositive serves r here, serves.bound r here⟩
  · rw [serves.codes, List.map_map]
    rfl

theorem servesLast (serves : Serves slot .idle looks requests read) (clear : slot.pending = false) :
    read.getLast? = requests.getLast? := by
  have starts : slot.starts = looks.map Prod.fst := serves.reads
  have codes := congrArg List.getLast? serves.codes
  rw [List.getLast?_map, List.getLast?_map] at codes
  cases final : looks.getLast? with
  | none =>
    have nothing := List.getLast?_eq_none_iff.mp final
    rw [nothing] at starts
    have empty : requests = [] := by
      by_contra filled
      have last := serves.slots.served clear (List.length_pos_iff.mpr filled)
      rw [starts] at last
      cases last
    rw [final] at codes
    rw [empty]
    exact Option.map_eq_none_iff.mp codes
  | some r =>
    have mem : r ∈ looks := List.mem_of_getLast? final
    have bound := serves.bound r mem
    have low := looksPositive serves r mem
    have last := serves.slots.served clear (by omega)
    rw [starts, List.getLast?_map, final] at last
    have begun : r.1 = requests.length := Option.some.inj last
    have after := serves.order.after r mem
    rw [final, Option.map_some, show r.2 = requests.length by omega, ← List.getLast?_eq_getElem?] at codes
    cases newest : requests.getLast? with
    | none =>
      rw [List.getLast?_eq_none_iff.mp newest] at bound
      exact absurd (Nat.lt_of_lt_of_le low bound) (Nat.lt_irrefl 0)
    | some a =>
      rw [newest] at codes
      obtain ⟨code, found, same⟩ := Option.map_eq_some_iff.mp codes
      rw [found, Option.some.inj same]

end Worker

end OsLabs.CoalescedRuns
