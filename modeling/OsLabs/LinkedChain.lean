import Mathlib.Logic.Function.Basic

/-! Singly linked lists in a heap of cells. A pointer is an address or NULL, a freed or never
allocated address has no cell, and the two walks to the far end are the loops that a program
without a tail pointer makes; without a result they have met such an address or run out of
fuel. -/
namespace OsLabs.LinkedChain

abbrev Addr := Nat

structure Cell (β : Type*) where
  value : β
  next : Option Addr

abbrev Heap (β : Type*) := Addr → Option (Cell β)

section Walks
variable {β : Type*}

def Heap.put (h : Heap β) (a : Addr) (c : Cell β) : Heap β := Function.update h a (some c)

def Heap.free (h : Heap β) (a : Addr) : Heap β := Function.update h a none

def Heap.link (h : Heap β) (a : Addr) (next : Option Addr) : Heap β :=
  Function.update h a ((h a).map fun c => ⟨c.value, next⟩)

/- while (p->next) p = p->next; -/
def lastAddr (h : Heap β) : Nat → Addr → Option Addr
  | 0, _ => none
  | fuel + 1, a => (h a).bind fun c =>
      match c.next with
      | none => some a
      | some b => lastAddr h fuel b

/- while (p->next->next) p = p->next; both p and p->next at the end. -/
def beforeLast (h : Heap β) : Nat → Addr → Option (Addr × Addr)
  | 0, _ => none
  | fuel + 1, a => ((h a).bind Cell.next).bind fun b => (h b).bind fun c =>
      match c.next with
      | none => some (a, b)
      | some _ => beforeLast h fuel b

def contents (h : Heap β) : Nat → Option Addr → Option (List β)
  | _, none => some []
  | 0, some _ => none
  | fuel + 1, some a => (h a).bind fun c => (contents h fuel c.next).map (c.value :: ·)

inductive Chain (h : Heap β) : Option Addr → List Addr → List β → Prop where
  | nil : Chain h none [] []
  | cons {a cell addrs values} (here : h a = some cell) (fresh : a ∉ addrs)
      (tail : Chain h cell.next addrs values) :
      Chain h (some a) (a :: addrs) (cell.value :: values)

variable {h g : Heap β}

theorem putSame (a : Addr) (c : Cell β) : h.put a c a = some c := Function.update_self _ _ _

theorem putOther {a b : Addr} (other : b ≠ a) (c : Cell β) : h.put a c b = h b :=
  Function.update_of_ne other _ _

theorem freeOther {a b : Addr} (other : b ≠ a) : h.free a b = h b := Function.update_of_ne other _ _

theorem linkSame (a : Addr) (next : Option Addr) :
    h.link a next a = (h a).map fun c => ⟨c.value, next⟩ := Function.update_self a _ h

theorem linkOther {a b : Addr} (other : b ≠ a) (next : Option Addr) : h.link a next b = h b :=
  Function.update_of_ne other _ _

theorem chainFrame {p : Option Addr} {addrs : List Addr} {values : List β}
    (chain : Chain h p addrs values) (same : ∀ a ∈ addrs, g a = h a) : Chain g p addrs values := by
  induction chain with
  | nil => exact .nil
  | cons here fresh tail ih =>
    refine .cons ((same _ List.mem_cons_self).trans here) fresh (ih fun a mem => ?_)
    exact same a (List.mem_cons_of_mem _ mem)

theorem chainUsed {p : Option Addr} {addrs : List Addr} {values : List β}
    (chain : Chain h p addrs values) : ∀ a ∈ addrs, h a ≠ none := by
  induction chain with
  | nil => intro a mem; cases mem
  | cons here fresh tail ih =>
    intro a mem
    rcases List.mem_cons.mp mem with rfl | later
    · rw [here]
      exact Option.some_ne_none _
    · exact ih a later

theorem chainApart {p : Option Addr} {addrs : List Addr} {values : List β}
    (chain : Chain h p addrs values) {a : Addr} (unused : h a = none) : a ∉ addrs :=
  fun mem => chainUsed chain a mem unused

theorem chainPut {p : Option Addr} {addrs : List Addr} {values : List β}
    (chain : Chain h p addrs values) {b : Addr} (apart : b ∉ addrs) (c : Cell β) :
    Chain (h.put b c) p addrs values := by
  refine chainFrame chain fun a mem => putOther (fun same => ?_) c
  rw [same] at mem
  exact apart mem

theorem chainNull {addrs : List Addr} {values : List β} (chain : Chain h none addrs values) :
    addrs = [] ∧ values = [] := by
  cases chain
  exact ⟨rfl, rfl⟩

theorem chainHead {a : Addr} {addrs : List Addr} {values : List β}
    (chain : Chain h (some a) addrs values) : ∃ cell rest tail, addrs = a :: rest ∧
      values = cell.value :: tail ∧ h a = some cell ∧ a ∉ rest ∧ Chain h cell.next rest tail := by
  cases chain with
  | cons here fresh tail => exact ⟨_, _, _, rfl, rfl, here, fresh, tail⟩

theorem chainCons {a : Addr} {v : β} {next : Option Addr} {addrs : List Addr} {values : List β}
    (here : h a = some ⟨v, next⟩) (fresh : a ∉ addrs) (tail : Chain h next addrs values) :
    Chain h (some a) (a :: addrs) (v :: values) := .cons here fresh tail

theorem chainPointer {p : Option Addr} {addrs : List Addr} {values : List β}
    (chain : Chain h p addrs values) (more : addrs ≠ []) : ∃ a, p = some a := by
  cases chain with
  | nil => exact absurd rfl more
  | cons here fresh tail => exact ⟨_, rfl⟩

theorem chainLengths {p : Option Addr} {addrs : List Addr} {values : List β}
    (chain : Chain h p addrs values) : addrs.length = values.length := by
  induction chain with
  | nil => rfl
  | cons here fresh tail ih => rw [List.length_cons, List.length_cons, ih]

theorem chainContents {p : Option Addr} {addrs : List Addr} {values : List β}
    (chain : Chain h p addrs values) {fuel : Nat} (enough : values.length ≤ fuel) :
    contents h fuel p = some values := by
  induction chain generalizing fuel with
  | nil => cases fuel <;> rfl
  | cons here fresh tail ih =>
    obtain ⟨fuel, rfl⟩ := Nat.exists_eq_add_of_lt (Nat.lt_of_lt_of_le (Nat.succ_pos _) enough)
    rw [Nat.zero_add] at enough ⊢
    rw [contents, here, Option.bind_some, ih (Nat.le_of_succ_le_succ enough)]
    rfl

theorem chainLink {a b : Addr} {v : β} (new : h b = some ⟨v, none⟩) {addrs : List Addr}
    {values : List β} (chain : Chain h (some a) addrs values) (apart : b ∉ addrs) {fuel : Nat}
    (enough : addrs.length ≤ fuel) : ∃ last ∈ addrs, lastAddr h fuel a = some last ∧
      Chain (h.link last (some b)) (some a) (addrs ++ [b]) (values ++ [v]) := by
  induction addrs generalizing a values fuel with
  | nil => cases chain
  | cons first rest ih =>
    obtain ⟨⟨w, next⟩, others, tail, same, rfl, here, fresh, chain⟩ := chainHead chain
    obtain ⟨rfl, rfl⟩ := List.cons.inj same
    obtain ⟨fuel, rfl⟩ := Nat.exists_eq_add_of_lt (Nat.lt_of_lt_of_le (Nat.succ_pos _) enough)
    rw [Nat.zero_add] at enough ⊢
    have other : b ≠ first := fun same => apart (same ▸ List.mem_cons_self)
    rw [lastAddr, here, Option.bind_some]
    cases next with
    | none =>
      obtain ⟨rfl, rfl⟩ := chainNull chain
      have linked : h.link first (some b) first = some ⟨w, some b⟩ := by
        rw [linkSame, here]
        rfl
      refine ⟨first, List.mem_cons_self, rfl, chainCons linked (by simpa using other.symm) ?_⟩
      exact chainCons ((linkOther other _).trans new) List.not_mem_nil .nil
    | some c =>
      obtain ⟨last, mem, walked, longer⟩ := ih chain (fun mem => apart (List.mem_cons_of_mem _ mem))
        (Nat.le_of_succ_le_succ enough)
      have before : first ≠ last := fun same => fresh (same ▸ mem)
      have kept : h.link last (some b) first = some ⟨w, some c⟩ := (linkOther before _).trans here
      refine ⟨last, List.mem_cons_of_mem _ mem, walked, chainCons kept (fun mem => ?_) longer⟩
      rcases List.mem_append.mp mem with inside | new
      · exact fresh inside
      · exact other (List.mem_singleton.mp new).symm

theorem beforeLastStops {a b : Addr} {v w : β} (here : h a = some ⟨v, some b⟩)
    (there : h b = some ⟨w, none⟩) (fuel : Nat) : beforeLast h (fuel + 1) a = some (a, b) := by
  simp only [beforeLast, here, there, Option.bind_some]

theorem beforeLastGoes {a b c : Addr} {v w : β} (here : h a = some ⟨v, some b⟩)
    (there : h b = some ⟨w, some c⟩) (fuel : Nat) :
    beforeLast h (fuel + 1) a = beforeLast h fuel b := by
  simp only [beforeLast, here, there, Option.bind_some]

theorem chainUnlink {a l : Addr} {v : β} {addrs : List Addr} {values : List β}
    (chain : Chain h (some a) (addrs ++ [l]) (values ++ [v])) (more : addrs ≠ []) {fuel : Nat}
    (enough : addrs.length ≤ fuel) : ∃ before ∈ addrs, beforeLast h fuel a = some (before, l) ∧
      h l = some ⟨v, none⟩ ∧ ∀ g : Heap β, (∀ x ∈ addrs ++ [l], g x = h x) →
        Chain ((g.free l).link before none) (some a) addrs values := by
  induction addrs generalizing a values fuel with
  | nil => exact absurd rfl more
  | cons first rest ih =>
    obtain ⟨⟨w, next⟩, others, tail, same, split, here, fresh, chain⟩ := chainHead chain
    obtain ⟨rfl, rfl⟩ := List.cons.inj same
    obtain ⟨fuel, rfl⟩ := Nat.exists_eq_add_of_lt (Nat.lt_of_lt_of_le (Nat.succ_pos _) enough)
    rw [Nat.zero_add] at enough ⊢
    have apart : first ≠ l := fun same => fresh (same ▸ List.mem_append_right _ List.mem_cons_self)
    obtain ⟨b, rfl⟩ := chainPointer chain (List.append_ne_nil_of_right_ne_nil _ (List.cons_ne_nil _ _))
    obtain ⟨⟨u, next⟩, later, left, same, below, there, -, further⟩ := chainHead chain
    cases values with
    | nil =>
      obtain ⟨rfl, rfl⟩ := List.cons.inj split
      cases below
    | cons first' values =>
      obtain ⟨rfl, rfl⟩ := List.cons.inj split
      cases rest with
      | nil =>
        obtain ⟨rfl, rfl⟩ := List.cons.inj same
        have single := chainLengths chain
        obtain rfl : values = [] := List.eq_nil_of_length_eq_zero (by simpa using single.symm)
        obtain ⟨rfl, rfl⟩ := List.cons.inj below
        obtain rfl : next = none := by
          cases next with
          | none => rfl
          | some c => cases further
        refine ⟨first, List.mem_cons_self, beforeLastStops here there fuel, there, fun g same => ?_⟩
        have linked : (g.free l).link first none first = some ⟨first', none⟩ := by
          rw [linkSame, freeOther apart, same first List.mem_cons_self, here]
          rfl
        exact chainCons linked List.not_mem_nil .nil
      | cons second rest =>
        obtain ⟨rfl, rfl⟩ := List.cons.inj same
        obtain ⟨before, mem, walked, last, shorter⟩ :=
          ih chain (List.cons_ne_nil _ _) (Nat.le_of_succ_le_succ enough)
        obtain ⟨c, rfl⟩ := chainPointer further
          (List.append_ne_nil_of_right_ne_nil _ (List.cons_ne_nil _ _))
        have other : first ≠ before := fun same => fresh (same ▸ List.mem_append_left _ mem)
        refine ⟨before, List.mem_cons_of_mem _ mem, ?_, last, fun g same => ?_⟩
        · rw [beforeLastGoes here there, walked]
        · have kept : (g.free l).link before none first = some ⟨first', some second⟩ := by
            rw [linkOther other, freeOther apart, same first List.mem_cons_self, here]
          refine chainCons kept (fun mem => fresh (List.mem_append_left _ mem)) ?_
          exact shorter g fun x mem => same x (List.mem_cons_of_mem _ mem)

end Walks

end OsLabs.LinkedChain
