import OsLabs.SharedPosition
import OsLabs.WhileLoop

/-! app2.c of lab_05: two descriptors of one file, each with an offset of its own, read in turn
until neither gives a byte. Any open and any read may fail; write does not. rc1 is not set before
the loop, its first value is a parameter. -/
namespace OsLabs.TwoDescriptors
open CMemory SharedPosition WhileLoop

inductive Which where
  | fd1
  | fd2
  deriving DecidableEq, Repr

/- The output says which descriptor a byte was read from; `turn` counts the turns of the loop. -/
structure State where
  fd : Which → Option Nat
  rc : Which → Int
  output : List (Which × Byte)
  turn : Nat

def start (opened : Which → Bool) (rc1 : Int) : State where
  fd := fun w => if opened w then some 0 else none
  rc
    | .fd1 => rc1
    | .fd2 => 1
  output := []
  turn := 0

section Loop
variable (content : List Byte) (fails : Nat → Which → Bool)

def readWrite (s : State) (w : Which) : State :=
  let rc := readByte content (s.fd w) (fails s.turn w)
  {s with
    fd := Function.update s.fd w ((s.fd w).map fun offset => if rc.1 = 1 then offset + 1 else offset)
    rc := Function.update s.rc w rc.1
    output := s.output ++ rc.2.toList.map fun c => (w, c)}

def done (s : State) : Bool := !(decide (s.rc .fd1 = 1) || decide (s.rc .fd2 = 1))

def body (s : State) : Except Empty State :=
  let s := readWrite content fails (readWrite content fails s .fd1) .fd2
  .ok {s with turn := s.turn + 1}

def State.written (s : State) : List Byte := s.output.map Prod.snd ++ [10]

end Loop

def State.by (s : State) (w : Which) : List Byte :=
  (s.output.filter fun out => decide (out.1 = w)).map Prod.snd

def offset (fd : Option Nat) : Nat := fd.getD 0

theorem readCases (content : List Byte) (fd : Option Nat) (fails : Bool) :
    (∃ k c, fd = some k ∧ content[k]? = some c ∧ readByte content fd fails = (1, some c)) ∨
    ((readByte content fd fails).1 ≠ 1 ∧ (readByte content fd fails).2 = none ∧
      (fd = none ∨ fails = true ∨ content.length ≤ offset fd)) := by
  cases fd with
  | none => exact .inr ⟨show (-1 : Int) ≠ 1 by decide, rfl, .inl rfl⟩
  | some k =>
    cases fails with
    | true => exact .inr ⟨show (-1 : Int) ≠ 1 by decide, rfl, .inr (.inl rfl)⟩
    | false =>
      cases found : content[k]? with
      | some c => exact .inl ⟨k, c, rfl, found, by simp [readByte, found]⟩
      | none =>
        have past := List.getElem?_eq_none_iff.mp found
        refine .inr ⟨?_, ?_, .inr (.inr past)⟩ <;> simp [readByte, found]

structure Reads (content : List Byte) (s : State) : Prop where
  taken : ∀ w, s.by w = content.take (offset (s.fd w))
  bound : ∀ w, offset (s.fd w) ≤ content.length

theorem startReads (content : List Byte) (opened : Which → Bool) (rc1 : Int) :
    Reads content (start opened rc1) := by
  have zero : ∀ w, offset ((start opened rc1).fd w) = 0 := by
    intro w
    cases opens : opened w <;> simp [start, opens, offset]
  refine ⟨fun w => ?_, fun w => ?_⟩
  · rw [zero]
    rfl
  · rw [zero]
    exact Nat.zero_le _

def Ended (content : List Byte) (fails : Nat → Which → Bool) (s : State) (turn : Nat) (w : Which) : Prop :=
  s.fd w = none ∨ fails turn w = true ∨ content.length ≤ offset (s.fd w)

structure Moves (content : List Byte) (fails : Nat → Which → Bool) (w : Which) (s t : State) : Prop where
  reads : Reads content t
  turn : t.turn = s.turn
  other : ∀ v, v ≠ w → t.fd v = s.fd v ∧ t.rc v = s.rc v
  own : t.rc w = 1 ∧ offset (t.fd w) = offset (s.fd w) + 1 ∨
    t.rc w ≠ 1 ∧ t.fd w = s.fd w ∧ Ended content fails s s.turn w
  opened : t.fd w = none ↔ s.fd w = none

theorem readMoves {content : List Byte} {s : State} (fails : Nat → Which → Bool) (reads : Reads content s)
    (w : Which) : Moves content fails w s (readWrite content fails s w) := by
  have other : ∀ v, v ≠ w → (readWrite content fails s w).fd v = s.fd v ∧
      (readWrite content fails s w).rc v = s.rc v :=
    fun v apart => ⟨Function.update_of_ne apart _ _, Function.update_of_ne apart _ _⟩
  have rc : (readWrite content fails s w).rc w = (readByte content (s.fd w) (fails s.turn w)).1 :=
    Function.update_self w _ s.rc
  have fd : (readWrite content fails s w).fd w = (s.fd w).map fun offset =>
      if (readByte content (s.fd w) (fails s.turn w)).1 = 1 then offset + 1 else offset :=
    Function.update_self w _ s.fd
  rcases readCases content (s.fd w) (fails s.turn w) with ⟨k, c, here, found, read⟩ | ⟨stays, empty, why⟩
  · rw [read] at rc fd
    rw [here, Option.map_some, if_pos rfl] at fd
    have output : (readWrite content fails s w).output = s.output ++ [(w, c)] := by
      simp only [readWrite, read, Option.toList_some, List.map_cons, List.map_nil]
    have inside := (List.getElem?_eq_some_iff.mp found).1
    refine ⟨⟨fun v => ?_, fun v => ?_⟩, rfl, other, .inl ⟨rc, ?_⟩, ?_⟩
    · by_cases mine : v = w
      · subst mine
        have before := reads.taken v
        rw [here] at before
        rw [fd, State.by, output, List.filter_append, List.map_append]
        simp only [offset, Option.getD_some] at before ⊢
        rw [List.take_add_one, found, ← before]
        simp [State.by]
      · have apart : (w, c).1 ≠ v := fun same => mine same.symm
        rw [(other v mine).1, State.by, output, List.filter_append, List.filter_cons_of_neg (by simpa using apart),
          List.filter_nil, List.append_nil]
        exact reads.taken v
    · by_cases mine : v = w
      · subst mine
        rw [fd]
        exact inside
      · rw [(other v mine).1]
        exact reads.bound v
    · rw [fd, here]
      rfl
    · rw [fd, here]
      exact ⟨fun same => (by cases same), fun same => (by cases same)⟩
  · have same : (readWrite content fails s w).fd w = s.fd w := by
      rw [fd]
      simp only [if_neg stays, Option.map_id']
    have output : (readWrite content fails s w).output = s.output := by
      simp only [readWrite, empty, Option.toList_none, List.map_nil, List.append_nil]
    have all : (readWrite content fails s w).fd = s.fd := by
      funext v
      by_cases mine : v = w
      · rw [mine, same]
      · exact (other v mine).1
    refine ⟨⟨fun v => ?_, fun v => ?_⟩, rfl, other, .inr ⟨?_, same, why⟩, by rw [same]⟩
    · rw [all, State.by, output]
      exact reads.taken v
    · rw [all]
      exact reads.bound v
    · rw [rc]
      exact stays

structure Turns (content : List Byte) (fails : Nat → Which → Bool) (s t : State) : Prop where
  reads : Reads content t
  turn : t.turn = s.turn + 1
  own : ∀ w, t.rc w = 1 ∧ offset (t.fd w) = offset (s.fd w) + 1 ∨
    t.rc w ≠ 1 ∧ t.fd w = s.fd w ∧ Ended content fails s s.turn w
  opened : ∀ w, t.fd w = none ↔ s.fd w = none

theorem bodyTurns {content : List Byte} {fails : Nat → Which → Bool} {s : State} (reads : Reads content s) :
    ∃ t, body content fails s = .ok t ∧ Turns content fails s t := by
  have first := readMoves fails reads .fd1
  have second := readMoves fails first.reads .fd2
  obtain ⟨fd1, rc1⟩ := second.other .fd1 (by decide)
  obtain ⟨fd2, -⟩ := first.other .fd2 (by decide)
  refine ⟨_, rfl, ⟨second.reads.taken, second.reads.bound⟩, ?_, fun w => ?_, fun w => ?_⟩
  · exact congrArg (· + 1) (second.turn.trans first.turn)
  · cases w with
    | fd1 =>
      simp only [fd1, rc1]
      exact first.own
    | fd2 =>
      have own := second.own
      simp only [Ended, first.turn, fd2] at own
      exact own
  · cases w with
    | fd1 =>
      simp only [fd1]
      exact first.opened
    | fd2 =>
      have opened := second.opened
      rw [fd2] at opened
      exact opened

structure Between (content : List Byte) (fails : Nat → Which → Bool) (opened : Which → Bool) (s : State) :
    Prop where
  reads : Reads content s
  ended : 0 < s.turn → ∀ w, s.rc w ≠ 1 → Ended content fails s (s.turn - 1) w
  begins : s.turn = 0 → done s = false
  opened : ∀ w, s.fd w = none ↔ opened w = false

theorem turnBetween {content : List Byte} {fails : Nat → Which → Bool} {opened : Which → Bool} {s t : State}
    (between : Between content fails opened s) (turns : Turns content fails s t) :
    Between content fails opened t where
  reads := turns.reads
  ended := fun _ w stays => by
    rcases turns.own w with ⟨moved, -⟩ | ⟨-, same, why⟩
    · exact absurd moved stays
    · simpa only [Ended, same, turns.turn, Nat.add_sub_cancel] using why
  begins := fun zero => by
    rw [turns.turn] at zero
    exact absurd zero (Nat.succ_ne_zero _)
  opened := fun w => (turns.opened w).trans (between.opened w)

def ahead (content : List Byte) (s : State) : Nat :=
  (content.length - offset (s.fd .fd1)) + (content.length - offset (s.fd .fd2)) + if done s then 0 else 1

theorem turnAhead {content : List Byte} {fails : Nat → Which → Bool} {s t : State}
    (turns : Turns content fails s t) (more : done s = false) : ahead content t < ahead content s := by
  have bound1 := turns.reads.bound .fd1
  have bound2 := turns.reads.bound .fd2
  unfold ahead
  rw [more, if_neg Bool.false_ne_true]
  rcases turns.own .fd1 with ⟨-, moved1⟩ | ⟨stays1, same1, -⟩
  · rcases turns.own .fd2 with ⟨-, moved2⟩ | ⟨-, same2, -⟩
    · split <;> omega
    · rw [same2]
      split <;> omega
  · rw [same1]
    rcases turns.own .fd2 with ⟨-, moved2⟩ | ⟨stays2, same2, -⟩
    · split <;> omega
    · have finished : done t = true := by simp only [done, stays1, stays2, decide_false, Bool.or_self, Bool.not_false]
      rw [same2, finished, if_pos rfl]
      omega

structure Doubled (content : List Byte) (s : State) (k : Nat) : Prop where
  fd : ∀ w, s.fd w = some k
  output : s.output = (content.take k).flatMap fun c => [(.fd1, c), (.fd2, c)]

theorem turnDoubled {content : List Byte} {s : State} {k : Nat} (doubled : Doubled content s k) :
    ∃ t, body content (fun _ _ => false) s = .ok t ∧ ∃ j, Doubled content t j := by
  cases found : content[k]? with
  | some c =>
    have read : readByte content (some k) false = (1, some c) := by simp [readByte, found]
    refine ⟨_, rfl, k + 1, fun w => ?_, ?_⟩
    · cases w <;> simp [readWrite, Function.update, doubled.fd, read]
    · simp [readWrite, Function.update, doubled.fd, read, doubled.output, List.take_add_one, found]
  | none =>
    have read : readByte content (some k) false = (0, none) := by simp [readByte, found]
    refine ⟨_, rfl, k, fun w => ?_, ?_⟩
    · cases w <;> simp [readWrite, Function.update, doubled.fd, read]
    · simp [readWrite, Function.update, doubled.fd, read, doubled.output]

structure Prints (content : List Byte) (opened : Which → Bool) (fails : Nat → Which → Bool) (last : State) :
    Prop where
  turns : 0 < last.turn
  each : ∀ w, last.by w <+: content
  short : ∀ w, last.by w ≠ content → opened w = false ∨ fails (last.turn - 1) w = true
  whole : (∀ w, opened w = true) → (∀ turn w, fails turn w = false) →
    last.written = (content.flatMap fun c => [c, c]) ++ [10]

theorem endedPrints {content : List Byte} {opened : Which → Bool} {fails : Nat → Which → Bool} {last : State}
    (between : Between content fails opened last) (stopped : done last = true)
    (doubled : (∀ w, opened w = true) → (∀ turn w, fails turn w = false) → ∃ k, Doubled content last k) :
    Prints content opened fails last := by
  have turns : 0 < last.turn := by
    refine Nat.pos_of_ne_zero fun zero => ?_
    rw [between.begins zero] at stopped
    cases stopped
  have stays : ∀ w, last.rc w ≠ 1 := by
    simp only [done, Bool.not_eq_true', Bool.or_eq_false_iff, decide_eq_false_iff_not] at stopped
    intro w
    cases w with
    | fd1 => exact stopped.1
    | fd2 => exact stopped.2
  have ended : ∀ w, opened w = false ∨ fails (last.turn - 1) w = true ∨ content.length ≤ offset (last.fd w) := by
    intro w
    rcases between.ended turns w (stays w) with bad | failed | past
    · exact .inl ((between.opened w).mp bad)
    · exact .inr (.inl failed)
    · exact .inr (.inr past)
  refine ⟨turns, fun w => ?_, fun w less => ?_, fun good quiet => ?_⟩
  · rw [between.reads.taken]
    exact List.take_prefix _ _
  · rcases ended w with bad | failed | past
    · exact .inl bad
    · exact .inr failed
    · rw [between.reads.taken, List.take_of_length_le past] at less
      exact absurd rfl less
  · obtain ⟨k, both⟩ := doubled good quiet
    have past : content.length ≤ k := by
      rcases ended .fd1 with bad | failed | past
      · rw [good] at bad
        cases bad
      · rw [quiet] at failed
        cases failed
      · rwa [both.fd, offset, Option.getD_some] at past
    rw [State.written, both.output, List.take_of_length_le past, List.map_flatMap]
    rfl

theorem descriptorsPrint (content : List Byte) (opened : Which → Bool) (fails : Nat → Which → Bool) (rc1 : Int) :
    ∃ last, (∀ fuel, 2 * content.length + 2 ≤ fuel →
      whileLoop done (body content fails) fuel (start opened rc1) = some (.ok last)) ∧
      Prints content opened fails last := by
  have begun : Between content fails opened (start opened rc1) := by
    refine ⟨startReads content opened rc1, fun late => absurd late (Nat.lt_irrefl 0), fun _ => ?_, fun w => ?_⟩
    · simp [done, start]
    · cases opens : opened w <;> simp [start, opens]
  have twice : (∀ w, opened w = true) → (∀ turn w, fails turn w = false) →
      ∃ k, Doubled content (start opened rc1) k :=
    fun good _ => ⟨0, fun w => if_pos (good w), rfl⟩
  obtain ⟨last, ⟨between, doubled⟩, stopped, runs⟩ := @whileTotal _ _ done (body content fails)
    (fun s => Between content fails opened s ∧
      ((∀ w, opened w = true) → (∀ turn w, fails turn w = false) → ∃ k, Doubled content s k))
    (ahead content) (fun s held more => by
      obtain ⟨between, doubled⟩ := held
      obtain ⟨t, taken, turns⟩ := @bodyTurns content fails s between.reads
      refine ⟨t, taken, ⟨turnBetween between turns, fun good quiet => ?_⟩, turnAhead turns more⟩
      obtain ⟨k, both⟩ := doubled good quiet
      obtain ⟨u, same, later⟩ := turnDoubled both
      have unfailing : fails = fun _ _ => false := by
        funext turn w
        exact quiet turn w
      rw [unfailing] at taken
      cases same.symm.trans taken
      exact later) _ ⟨begun, twice⟩
  refine ⟨last, fun fuel enough => runs fuel (Nat.lt_of_lt_of_le ?_ enough), endedPrints between stopped doubled⟩
  have more := begun.begins rfl
  unfold ahead
  rw [more, if_neg Bool.false_ne_true]
  omega

end OsLabs.TwoDescriptors
