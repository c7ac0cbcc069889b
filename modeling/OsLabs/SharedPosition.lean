import OsLabs.CInteger
import OsLabs.CMemory
import OsLabs.Runs

/-! app2_threads.c of lab_05: two descriptors of one file, kept in step by filePos. A call
of outputFile runs under the mutex and is one step; sleep and the colours are left out.
thr_fn is created, since main returns when pthread_create fails. -/
namespace OsLabs.SharedPosition
open CInteger CMemory Runs

inductive Thread where
  | main
  | thrFn
  deriving DecidableEq, Repr

inductive Place where
  | opening
  | looping
  | stopped
  deriving DecidableEq, Repr

/- `fd` is the offset of the thread's own descriptor, `none` when its open has failed. -/
structure Sys where
  filePos : Int
  fd : Thread → Option Nat
  place : Thread → Place
  output : List Byte

def Sys.start : Sys := ⟨0, fun _ => none, fun _ => .opening, []⟩

/- lseek to filePos; it fails, and its result is ignored, for a bad descriptor or a
negative position. -/
def lseek (fd : Option Nat) (filePos : Int) : Option Nat :=
  fd.map (fun offset => if filePos < 0 then offset else filePos.toNat)

/- read of one byte: -1 when it fails or there is no descriptor, 0 at the end of the file. -/
def readByte (content : List Byte) (fd : Option Nat) (fails : Bool) : Int × Option Byte :=
  match fd with
  | none => (-1, none)
  | some offset =>
      if fails then (-1, none)
      else match content[offset]? with
        | some c => (1, some c)
        | none => (0, none)

def outputFile (content : List Byte) (s : Sys) (who : Thread) (fails : Bool) : Int × Sys :=
  let fd := lseek (s.fd who) s.filePos
  let rc := readByte content fd fails
  (rc.1, {s with
    fd := fun t => if t = who then fd.map (fun offset => if rc.1 = 1 then offset + 1 else offset)
      else s.fd t,
    output := s.output ++ rc.2.toList,
    filePos := toInt (s.filePos + 1)})

inductive Act where
  | opens (who : Thread) (succeeds : Bool)
  | calls (who : Thread) (fails : Bool)
  deriving DecidableEq, Repr

def Sys.enter (s : Sys) (who : Thread) (place : Place) : Sys :=
  {s with place := fun t => if t = who then place else s.place t}

/- main opens its file before it creates the thread. -/
def step (content : List Byte) (s : Sys) : Act → Option Sys
  | .opens who succeeds =>
      if s.place who = .opening ∧ (who = .main ∨ s.place .main ≠ .opening) then
        some ({s with fd := fun t => if t = who then (if succeeds then some 0 else none) else s.fd t}.enter
          who .looping)
      else none
  | .calls who fails =>
      if s.place who = .looping then
        let out := outputFile content s who fails
        some (if out.1 = 1 then out.2 else out.2.enter who .stopped)
      else none

/- The call is made at a position of the file, and it fails, for want of a descriptor or
in read, only where all bytes have been passed. -/
def Harmless (content : List Byte) (s : Sys) : Act → Prop
  | .opens _ _ => True
  | .calls who fails => 0 ≤ s.filePos ∧
      (fails = true ∨ s.fd who = none → (content.length : Int) ≤ s.filePos)

instance (content : List Byte) (s : Sys) : (a : Act) → Decidable (Harmless content s a)
  | .opens _ _ => inferInstanceAs (Decidable True)
  | .calls _ _ => inferInstanceAs (Decidable (_ ∧ (_ → _)))

def Act.isCall : Act → Bool
  | .opens _ _ => false
  | .calls _ _ => true

structure InStep (content : List Byte) (s : Sys) (passed : Nat) : Prop where
  output : s.output = content.take passed
  filePos : s.filePos = toInt passed
  range : (passed : Int) ≤ 2^31
  ended : ∀ t, s.place t = .stopped → content.length ≤ passed

theorem startInStep (content : List Byte) : InStep content Sys.start 0 :=
  ⟨rfl, (@toIntExact 0 (by omega) (by omega)).symm, by omega, fun t stopped => by cases stopped⟩

theorem positionIs {content : List Byte} {s : Sys} {passed : Nat} (inStep : InStep content s passed)
    (valid : 0 ≤ s.filePos) : s.filePos = passed ∧ (passed : Int) < 2^31 := by
  have range := inStep.range
  rw [inStep.filePos] at valid ⊢
  unfold toInt at valid ⊢
  omega

theorem readPassed {content : List Byte} {fd : Option Nat} {passed : Nat} {fails : Bool}
    (harmless : fails = true ∨ fd = none → content.length ≤ passed) :
    content.take passed ++ (readByte content (fd.map fun _ => passed) fails).2.toList =
      content.take (passed + 1) ∧
    ((readByte content (fd.map fun _ => passed) fails).1 = 1 ↔ passed < content.length) := by
  have whole : content.length ≤ passed → content.take passed = content.take (passed + 1) := by
    intro past
    rw [List.take_of_length_le past, List.take_of_length_le (Nat.le_succ_of_le past)]
  cases fd with
  | none =>
    have past := harmless (.inr rfl)
    exact ⟨by simpa [readByte] using whole past, by simpa [readByte] using past⟩
  | some offset =>
    cases fails with
    | true =>
      have past := harmless (.inl rfl)
      exact ⟨by simpa [readByte] using whole past, by simpa [readByte] using past⟩
    | false =>
      cases found : content[passed]? with
      | some c =>
        have inside := (List.getElem?_eq_some_iff.mp found).1
        exact ⟨by simp [readByte, found, List.take_add_one], by simpa [readByte, found] using inside⟩
      | none =>
        have past := List.getElem?_eq_none_iff.mp found
        exact ⟨by simpa [readByte, found] using whole past, by simpa [readByte, found] using past⟩

theorem callInStep {content : List Byte} {s u : Sys} {who : Thread} {fails : Bool} {passed : Nat}
    (inStep : InStep content s passed) (harmless : Harmless content s (.calls who fails))
    (taken : step content s (.calls who fails) = some u) :
    InStep content u (passed + 1) ∧
      u.place who = (if passed < content.length then .looping else .stopped) ∧
      (u.fd who).isSome = (s.fd who).isSome := by
  simp only [step] at taken
  split at taken
  · rename_i loops
    obtain ⟨valid, harmless⟩ := harmless
    obtain ⟨exact, small⟩ := positionIs inStep valid
    have positioned : lseek (s.fd who) s.filePos = (s.fd who).map (fun _ => passed) := by
      have valid : ¬ (passed : Int) < 0 := Int.not_lt.mpr (Int.natCast_nonneg passed)
      simp only [lseek, exact, if_neg valid, Int.toNat_natCast]
    obtain ⟨printed, inside⟩ := @readPassed content (s.fd who) passed fails
      (fun failed => by have := harmless failed; omega)
    have returned : (outputFile content s who fails).1 = 1 ↔ passed < content.length := by
      simp only [outputFile, positioned]
      exact inside
    have kept : ((outputFile content s who fails).2.fd who).isSome = (s.fd who).isSome := by
      simp only [outputFile, positioned, if_true, Option.isSome_map]
    have called : InStep content (outputFile content s who fails).2 (passed + 1) := by
      refine ⟨?_, ?_, by omega, fun t stopped => Nat.le_succ_of_le (inStep.ended t stopped)⟩
      · simp only [outputFile, positioned, inStep.output, printed]
      · simp only [outputFile, exact]
        rfl
    cases Option.some.inj taken
    split
    · rename_i one
      exact ⟨called, by rw [if_pos (returned.mp one)]; exact loops, kept⟩
    · rename_i ends
      have past : ¬ passed < content.length := fun inside => ends (returned.mpr inside)
      refine ⟨⟨called.output, called.filePos, called.range, fun t _ => by omega⟩, ?_, kept⟩
      rw [if_neg past]
      exact if_pos rfl
  · contradiction

theorem stepInStep {content : List Byte} {s u : Sys} {a : Act} {passed : Nat}
    (inStep : InStep content s passed) (harmless : Harmless content s a)
    (taken : step content s a = some u) : InStep content u (passed + [a].countP Act.isCall) := by
  cases a with
  | opens who succeeds =>
    simp only [step] at taken
    split at taken
    · cases Option.some.inj taken
      refine ⟨inStep.output, inStep.filePos, inStep.range, fun t stopped => inStep.ended t ?_⟩
      simp only [Sys.enter] at stopped
      split at stopped
      · contradiction
      · exact stopped
    · contradiction
  | calls who fails => exact (callInStep inStep harmless taken).1

theorem runInStep {content : List Byte} {s t : Sys} {labels : List Act} {passed : Nat}
    (run : Run (step content) (Harmless content) s labels t) (inStep : InStep content s passed) :
    InStep content t (passed + labels.countP Act.isCall) := by
  induction run generalizing passed with
  | nil s => exact inStep
  | @cons s a u rest t harmless taken tail ih =>
    have later := ih (stepInStep inStep harmless taken)
    rw [List.countP_cons, Nat.add_comm (rest.countP Act.isCall), ← Nat.add_assoc]
    rwa [List.countP_singleton] at later

theorem aloneCalls {content : List Byte} {s : Sys} {who : Thread} {passed : Nat}
    (inStep : InStep content s passed) (loops : s.place who = .looping) (opened : (s.fd who).isSome)
    (small : passed < 2^31) :
    ∃ u, Harmless content s (.calls who false) ∧ step content s (.calls who false) = some u := by
  have position : s.filePos = passed := inStep.filePos.trans (toIntExact (by omega) (by omega))
  refine ⟨_, ⟨by omega, fun failed => ?_⟩, if_pos loops⟩
  rcases failed with failed | closed
  · cases failed
  · rw [closed] at opened
    cases opened

theorem aloneFinishes {content : List Byte} {s : Sys} {who : Thread} {passed left : Nat}
    (inStep : InStep content s passed) (loops : s.place who = .looping) (opened : (s.fd who).isSome)
    (remains : left = content.length - passed) (small : passed + left < 2^31) :
    ∃ t, Run (step content) (Harmless content) s (List.replicate (left + 1) (.calls who false)) t ∧
      t.output = content ∧ t.place who = .stopped := by
  induction left generalizing s passed with
  | zero =>
    obtain ⟨u, harmless, taken⟩ := aloneCalls inStep loops opened small
    obtain ⟨next, goes, -⟩ := callInStep inStep harmless taken
    refine ⟨u, .cons harmless taken (.nil u), ?_, ?_⟩
    · rw [next.output]
      exact List.take_of_length_le (by omega)
    · rw [goes, if_neg (by omega)]
  | succ left ih =>
    obtain ⟨u, harmless, taken⟩ := aloneCalls inStep loops opened (by omega)
    obtain ⟨next, goes, kept⟩ := callInStep inStep harmless taken
    rw [if_pos (by omega)] at goes
    obtain ⟨t, later, ended⟩ := ih next goes (kept.trans opened) (by omega) (by omega)
    exact ⟨t, .cons harmless taken later, ended⟩

theorem outputPrefix (content : List Byte) (labels : List Act) (last : Sys)
    (run : Run (step content) (Harmless content) Sys.start labels last) :
    last.output = content.take (labels.countP Act.isCall) ∧
      (∀ who fails u, Harmless content last (.calls who fails) →
        step content last (.calls who fails) = some u →
        u.place who = if labels.countP Act.isCall < content.length then .looping else .stopped) ∧
      (∀ who, last.place who = .stopped → last.output = content) ∧
      ∀ who, last.place who = .looping → (last.fd who).isSome → 0 ≤ last.filePos →
        content.length < 2^31 → ∃ t, Run (step content) (Harmless content) last
            (List.replicate (content.length - labels.countP Act.isCall + 1) (.calls who false)) t ∧
          t.output = content ∧ t.place who = .stopped := by
  have inStep := runInStep run (startInStep content)
  rw [Nat.zero_add] at inStep
  refine ⟨inStep.output, fun who fails u harmless taken => (callInStep inStep harmless taken).2.1,
    fun who stopped => ?_, fun who loops opened valid small => ?_⟩
  · rw [inStep.output]
    exact List.take_of_length_le (inStep.ended who stopped)
  · have passed := (positionIs inStep valid).2
    exact aloneFinishes inStep loops opened rfl (by omega)

def abc : List Byte := [97, 98, 99]

def turns : List Act := [.opens .main true, .opens .thrFn true, .calls .thrFn false, .calls .main false,
  .calls .thrFn false, .calls .main false, .calls .thrFn true]

theorem turnsPrint : ∃ last, Run (step abc) (Harmless abc) Sys.start turns last ∧
    last.output = abc.take 5 ∧ last.output = [97, 98, 99] ∧
    last.place .main = .stopped ∧ last.place .thrFn = .stopped := by
  obtain ⟨last, run, seen⟩ := checkedEnd (step abc) (Harmless abc) Sys.start turns
    (fun s => (s.output, s.place .main, s.place .thrFn)) ([97, 98, 99], .stopped, .stopped)
    (by decide +kernel)
  obtain ⟨output, places⟩ := Prod.mk.inj seen
  exact ⟨last, run, (outputPrefix abc turns last run).1, output, Prod.mk.inj places⟩

theorem failedOpenSkips : ¬ ∀ content labels last,
    Run (step content) (fun _ _ => True) Sys.start labels last →
    last.output <+: content ∧ ((∀ t, last.place t = .stopped) → last.output = content) := by
  intro all
  obtain ⟨last, run, output⟩ := checkedEnd (step abc) (fun _ _ => True) Sys.start
    [.opens .main true, .opens .thrFn false, .calls .thrFn false, .calls .main false]
    Sys.output [98] (by decide +kernel)
  have start := (all abc _ last run).1
  rw [output] at start
  exact absurd start (by decide)

end OsLabs.SharedPosition
