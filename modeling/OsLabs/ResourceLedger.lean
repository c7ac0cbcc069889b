import Mathlib.Data.List.Basic

/-! A ledger of acquired things: each acquisition gets a number of its own, and a release of
what is not held is kept as a fault. -/
namespace OsLabs.ResourceLedger

structure Ledger (κ : Type*) where
  held : List (κ × Nat)
  next : Nat
  faults : List (κ × Option Nat)

section Operations
variable {κ : Type*}

def Ledger.empty : Ledger κ := ⟨[], 0, []⟩

def Ledger.acquire (l : Ledger κ) (kind : κ) : Ledger κ :=
  {l with held := (kind, l.next) :: l.held, next := l.next + 1}

/- A call that acquires or gives NULL. -/
def Ledger.allocate (l : Ledger κ) (kind : κ) (ok : Bool) : Option Nat × Ledger κ :=
  if ok then (some l.next, l.acquire kind) else (none, l)

def Ledger.Numbered (l : Ledger κ) : Prop := ∀ token ∈ l.held, token.2 < l.next

variable {l : Ledger κ} {kind : κ}

theorem acquireNumbered (numbered : l.Numbered) (kind : κ) : (l.acquire kind).Numbered := by
  intro token mem
  rcases List.mem_cons.mp mem with rfl | old
  · exact Nat.lt_succ_self _
  · exact Nat.lt_succ_of_lt (numbered token old)

theorem freshMissing (numbered : l.Numbered) : (kind, l.next) ∉ l.held :=
  fun mem => Nat.lt_irrefl _ (numbered _ mem)

variable [DecidableEq κ]

def Ledger.release (l : Ledger κ) (kind : κ) (id : Option Nat) : Ledger κ :=
  match id with
  | none => {l with faults := l.faults ++ [(kind, none)]}
  | some id =>
      if (kind, id) ∈ l.held then {l with held := l.held.erase (kind, id)}
      else {l with faults := l.faults ++ [(kind, some id)]}

theorem releaseHeld {id : Nat} (held : (kind, id) ∈ l.held) :
    l.release kind (some id) = {l with held := l.held.erase (kind, id)} := if_pos held

theorem releaseMissing {id : Nat} (missing : (kind, id) ∉ l.held) :
    l.release kind (some id) = {l with faults := l.faults ++ [(kind, some id)]} := if_neg missing

theorem releaseAcquired (l : Ledger κ) (kind : κ) :
    (l.acquire kind).release kind (some l.next) = {l with next := l.next + 1} := by
  rw [releaseHeld (List.mem_cons_self : (kind, l.next) ∈ (l.acquire kind).held)]
  simp [Ledger.acquire]

theorem releaseTwice (numbered : l.Numbered) :
    (((l.acquire kind).release kind (some l.next)).release kind (some l.next)).faults =
      l.faults ++ [(kind, some l.next)] := by
  have missing : (kind, l.next) ∉ ({l with next := l.next + 1} : Ledger κ).held :=
    @freshMissing _ l _ numbered
  rw [releaseAcquired, releaseMissing missing]

end Operations

end OsLabs.ResourceLedger
