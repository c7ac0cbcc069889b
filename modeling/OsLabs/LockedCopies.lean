import OsLabs.CMemory
import OsLabs.Runs
import OsLabs.SharedStream

/-! app2_threads_right.c of lab_05: main and thr_fn copy one file each, with descriptors of
their own, and hold the mutex over the whole copy. Every system call and lock operation is
a step; all of them succeed. An entry of the output keeps who wrote it. -/
namespace OsLabs.LockedCopies
open CMemory Runs SharedStream

inductive Thread where
  | main
  | thrFn
  deriving DecidableEq, Repr

inductive Place where
  | unborn
  | opening
  | creating
  | newline
  | locking
  | reading
  | writing (c : Byte)
  | unlocking
  | joining
  | lastNewline
  | finished
  deriving DecidableEq, Repr

structure Sys where
  place : Thread → Place
  offset : Thread → Nat
  mutex : Option Thread
  output : List (Thread × Byte)

def newline : Byte := 10

def Sys.start : Sys :=
  ⟨fun who => match who with | .main => .opening | .thrFn => .unborn, fun _ => 0, none, []⟩

def Sys.goto (s : Sys) (who : Thread) (place : Place) : Sys :=
  {s with place := Function.update s.place who place}

def Sys.write (s : Sys) (who : Thread) (c : Byte) : Sys := {s with output := s.output ++ [(who, c)]}

def step (content : List Byte) (s : Sys) (who : Thread) : Option Sys :=
  match s.place who with
  | .unborn => none
  | .opening => some (s.goto who (match who with | .main => .creating | .thrFn => .locking))
  | .creating => some ((s.goto .thrFn .opening).goto who .newline)
  | .newline => some ((s.write who newline).goto who .locking)
  | .locking => if s.mutex = none then some {s.goto who .reading with mutex := some who} else none
  | .reading => match content[s.offset who]? with
      | some c => some {s.goto who (.writing c) with
          offset := Function.update s.offset who (s.offset who + 1)}
      | none => some (s.goto who .unlocking)
  | .writing c => some ((s.write who c).goto who .reading)
  | .unlocking => some {s.goto who (match who with | .main => .joining | .thrFn => .finished) with
      mutex := none}
  | .joining => if s.place .thrFn = .finished then some (s.goto who .lastNewline) else none
  | .lastNewline => some ((s.write who newline).goto who .finished)
  | .finished => none

def copy (content : List Byte) (who : Thread) (n : Nat) : List (Thread × Byte) :=
  (content.take n).map (fun c => (who, c))

def Newlines (entries : List (Thread × Byte)) : Prop := ∀ e ∈ entries, e = (.main, newline)

def Unmixed (content : List Byte) (output : List (Thread × Byte)) : Prop :=
  ∃ first second pre mid post, first ≠ second ∧
    output = pre ++ copy content first content.length ++ mid ++
      copy content second content.length ++ post ∧
    Newlines pre ∧ Newlines mid ∧ Newlines post ∧ (pre ++ mid ++ post).length = 2

/- main writes its first newline when thr_fn has written nothing or its whole copy. -/
def Apart (content : List Byte) (s : Sys) (who : Thread) : Prop :=
  s.place who = .newline →
    (owned s.output .thrFn).length = 0 ∨ (owned s.output .thrFn).length = content.length

instance (content : List Byte) (s : Sys) (who : Thread) : Decidable (Apart content s who) :=
  inferInstanceAs (Decidable (_ → _))

def Own (content : List Byte) (who : Thread) (offset : Nat) : Place → Prop
  | .unborn => who = .thrFn ∧ offset = 0
  | .opening => offset = 0
  | .creating => who = .main ∧ offset = 0
  | .newline => who = .main ∧ offset = 0
  | .locking => offset = 0
  | .reading => offset ≤ content.length
  | .writing c => 0 < offset ∧ content[offset - 1]? = some c
  | .unlocking => offset = content.length
  | .joining => who = .main ∧ offset = content.length
  | .lastNewline => who = .main ∧ offset = content.length
  | .finished => offset = content.length

def Place.inside : Place → Bool
  | .reading | .writing _ | .unlocking => true
  | .unborn | .opening | .creating | .newline | .locking | .joining | .lastNewline
  | .finished => false

def Place.pending : Place → Nat
  | .writing _ => 1
  | _ => 0

def Place.broken : Place → Nat
  | .unborn | .opening | .creating | .newline => 0
  | .locking | .reading | .writing _ | .unlocking | .joining | .lastNewline => 1
  | .finished => 2

def written (s : Sys) (who : Thread) : Nat := s.offset who - (s.place who).pending

structure Ordered (content : List Byte) (s : Sys) : Prop where
  own : ∀ who, Own content who (s.offset who) (s.place who)
  mutex : ∀ who, (s.place who).inside = true ↔ s.mutex = some who
  born : s.place .main = .opening ∨ s.place .main = .creating → s.place .thrFn = .unborn
  joined : s.place .main = .lastNewline ∨ s.place .main = .finished → s.place .thrFn = .finished
  copied : owned s.output .thrFn = content.take (written s .thrFn)

theorem startOrdered (content : List Byte) : Ordered content Sys.start := by
  refine ⟨fun who => ?_, fun who => ?_, fun _ => rfl, fun h => ?_, rfl⟩
  · cases who <;> simp [Sys.start, Own]
  · cases who <;> simp [Sys.start, Place.inside]
  · simp [Sys.start] at h

theorem ownBound {content : List Byte} {who : Thread} {offset : Nat} {place : Place}
    (own : Own content who offset place) : offset ≤ content.length := by
  cases place with
  | writing c =>
    have inside := (List.getElem?_eq_some_iff.mp own.2).1
    omega
  | _ =>
    simp only [Own] at own
    omega

inductive Moves (content : List Byte) (s u : Sys) (who : Thread) : Prop where
  | prints (c : Byte) (here : (s.place who).inside = true)
      (next : content[written s who]? = some c) (output : u.output = s.output ++ [(who, c)])
      (grown : written u who = written s who + 1)
      (others : ∀ w, w ≠ who → written u w = written s w)
      (broken : (u.place .main).broken = (s.place .main).broken)
  | breaks (here : s.place .main = .newline ∨ s.place .main = .lastNewline) (main : who = .main)
      (output : u.output = s.output ++ [(.main, newline)])
      (same : ∀ w, written u w = written s w)
      (broken : (u.place .main).broken = (s.place .main).broken + 1)
  | quiet (calm : s.place who ≠ .newline) (output : u.output = s.output)
      (same : ∀ w, written u w = written s w)
      (broken : (u.place .main).broken = (s.place .main).broken)

theorem gotoWritten {s : Sys} {who w : Thread} {place : Place}
    (pending : place.pending = (s.place who).pending) : written (s.goto who place) w = written s w := by
  unfold written Sys.goto
  by_cases same : w = who
  · subst same
    simp only [Function.update_self, pending]
  · simp only [Function.update_of_ne same]

theorem gotoBroken {s : Sys} {who : Thread} {place : Place}
    (same : who = .main → place.broken = (s.place who).broken) :
    (Function.update s.place who place .main).broken = (s.place .main).broken := by
  cases who with
  | main => rw [Function.update_self, same rfl]
  | thrFn => rw [Function.update_of_ne (by decide)]

inductive Goes (content : List Byte) (s : Sys) (who : Thread) : Sys → Prop where
  | opening {place} (here : s.place who = .opening)
      (which : who = .main ∧ place = .creating ∨ who = .thrFn ∧ place = .locking) :
      Goes content s who (s.goto who place)
  | creating (here : s.place who = .creating) : Goes content s who
      ((s.goto .thrFn .opening).goto who .newline)
  | newline (here : s.place who = .newline) : Goes content s who
      ((s.write who newline).goto who .locking)
  | locking (here : s.place who = .locking) (free : s.mutex = none) : Goes content s who
      {s.goto who .reading with mutex := some who}
  | reads {c} (here : s.place who = .reading) (next : content[s.offset who]? = some c) :
      Goes content s who {s.goto who (.writing c) with
        offset := Function.update s.offset who (s.offset who + 1)}
  | ends (here : s.place who = .reading) (past : content[s.offset who]? = none) :
      Goes content s who (s.goto who .unlocking)
  | writing {c} (here : s.place who = .writing c) : Goes content s who
      ((s.write who c).goto who .reading)
  | unlocking {place} (here : s.place who = .unlocking)
      (which : who = .main ∧ place = .joining ∨ who = .thrFn ∧ place = .finished) :
      Goes content s who {s.goto who place with mutex := none}
  | joining (here : s.place who = .joining) (finished : s.place .thrFn = .finished) :
      Goes content s who (s.goto who .lastNewline)
  | lastNewline (here : s.place who = .lastNewline) : Goes content s who
      ((s.write who newline).goto who .finished)

theorem stepGoes {content : List Byte} {s u : Sys} {who : Thread}
    (taken : step content s who = some u) : Goes content s who u := by
  unfold step at taken
  split at taken
  · cases taken
  · rename_i here
    cases taken
    cases who with
    | main => exact .opening here (.inl ⟨rfl, rfl⟩)
    | thrFn => exact .opening here (.inr ⟨rfl, rfl⟩)
  · rename_i here
    cases taken
    exact .creating here
  · rename_i here
    cases taken
    exact .newline here
  · rename_i here
    split at taken
    · rename_i free
      cases taken
      exact .locking here free
    · cases taken
  · rename_i here
    split at taken
    · rename_i c next
      cases taken
      exact .reads here next
    · rename_i past
      cases taken
      exact .ends here past
  · rename_i c here
    cases taken
    exact .writing here
  · rename_i here
    cases taken
    cases who with
    | main => exact .unlocking here (.inl ⟨rfl, rfl⟩)
    | thrFn => exact .unlocking here (.inr ⟨rfl, rfl⟩)
  · rename_i here
    split at taken
    · rename_i finished
      cases taken
      exact .joining here finished
    · cases taken
  · rename_i here
    cases taken
    exact .lastNewline here
  · cases taken

theorem stepMoves {content : List Byte} {s u : Sys} {who : Thread} (ordered : Ordered content s)
    (taken : step content s who = some u) : Moves content s u who := by
  have own := ordered.own who
  cases stepGoes taken with
  | opening here which =>
    refine .quiet (by simp [here]) rfl (fun w => gotoWritten ?_) (gotoBroken fun main => ?_)
    · rcases which with ⟨rfl, rfl⟩ | ⟨rfl, rfl⟩ <;> simp [here, Place.pending]
    · rcases which with ⟨rfl, rfl⟩ | ⟨rfl, rfl⟩
      · rw [here]
        rfl
      · cases main
  | creating here =>
    rw [here] at own
    obtain ⟨rfl, _⟩ := own
    have unborn := ordered.born (.inr here)
    refine .quiet (by simp [here]) rfl (fun w => ?_) (by rw [here]; rfl)
    rw [gotoWritten (by simp [Sys.goto, here, Place.pending])]
    exact gotoWritten (by simp [unborn, Place.pending])
  | newline here =>
    rw [here] at own
    obtain ⟨rfl, _⟩ := own
    exact .breaks (.inl here) rfl rfl
      (fun w => gotoWritten (by simp [Sys.write, here, Place.pending])) (by rw [here]; rfl)
  | locking here free =>
    exact .quiet (by simp [here]) rfl
      (fun w => @gotoWritten s who w .reading (by simp [here, Place.pending]))
      (gotoBroken fun _ => by rw [here]; rfl)
  | reads here next =>
    refine .quiet (by simp [here]) rfl (fun w => ?_) (gotoBroken fun _ => by rw [here]; rfl)
    by_cases same : w = who
    · subst same
      simp [written, Sys.goto, here, Place.pending]
    · simp [written, Sys.goto, Function.update_of_ne same]
  | ends here past =>
    exact .quiet (by simp [here]) rfl (fun w => gotoWritten (by simp [here, Place.pending]))
      (gotoBroken fun _ => by rw [here]; rfl)
  | writing here =>
    rw [here] at own
    obtain ⟨positive, found⟩ := own
    have before : written s who = s.offset who - 1 := by simp [written, here, Place.pending]
    refine .prints _ (by simp [here, Place.inside]) (by rw [before]; exact found) rfl ?_
      (fun w other => ?_) (@gotoBroken s who .reading fun _ => by rw [here]; rfl)
    · rw [before]
      simp only [written, Sys.goto, Sys.write, Function.update_self, Place.pending]
      omega
    · simp [written, Sys.goto, Sys.write, Function.update_of_ne other]
  | @unlocking place here which =>
    refine .quiet (by simp [here]) rfl (fun w => @gotoWritten s who w place ?_) (gotoBroken fun main => ?_)
    · rcases which with ⟨rfl, rfl⟩ | ⟨rfl, rfl⟩ <;> simp [here, Place.pending]
    · rcases which with ⟨rfl, rfl⟩ | ⟨rfl, rfl⟩
      · rw [here]
        rfl
      · cases main
  | joining here finished =>
    exact .quiet (by simp [here]) rfl (fun w => gotoWritten (by simp [here, Place.pending]))
      (gotoBroken fun _ => by rw [here]; rfl)
  | lastNewline here =>
    rw [here] at own
    obtain ⟨rfl, _⟩ := own
    exact .breaks (.inr here) rfl rfl
      (fun w => gotoWritten (by simp [Sys.write, here, Place.pending])) (by rw [here]; rfl)

def Counted (s : Sys) : Prop :=
  s.output.length = written s .main + written s .thrFn + (s.place .main).broken

theorem movesCounted {content : List Byte} {s u : Sys} {who : Thread} (counted : Counted s)
    (moves : Moves content s u who) : Counted u := by
  unfold Counted at counted ⊢
  cases moves with
  | prints c here next output grown others broken =>
    rw [output, List.length_append, List.length_singleton, broken, counted]
    cases who with
    | main =>
      rw [grown, others .thrFn (by decide)]
      omega
    | thrFn =>
      rw [grown, others .main (by decide)]
      omega
  | breaks here main output same broken =>
    rw [output, List.length_append, List.length_singleton, broken, same, same, counted]
    rfl
  | quiet calm output same broken => rw [output, same, same, broken, counted]

theorem movesCopied {content : List Byte} {s u : Sys} {who : Thread}
    (copied : owned s.output .thrFn = content.take (written s .thrFn)) (moves : Moves content s u who) :
    owned u.output .thrFn = content.take (written u .thrFn) := by
  cases moves with
  | prints c here next output grown others _ =>
    rw [output]
    cases who with
    | main => rw [ownedOther _ (by decide), others .thrFn (by decide), copied]
    | thrFn => rw [ownedHere, grown, copied, List.take_add_one, next]; rfl
  | breaks here main output same _ => rw [output, ownedOther _ (by decide), same, copied]
  | quiet calm output same _ => rw [output, same, copied]

theorem orderedGoto {content : List Byte} {s u : Sys} {who : Thread} {place : Place}
    (ordered : Ordered content s) (moves : Moves content s u who)
    (goes : u.place = Function.update s.place who place)
    (offsets : ∀ w, w ≠ who → u.offset w = s.offset w)
    (own : Own content who (u.offset who) place)
    (holds : place.inside = true ↔ u.mutex = some who)
    (others : ∀ w, w ≠ who → (u.mutex = some w ↔ s.mutex = some w))
    (alive : s.place who ≠ .unborn ∧ s.place who ≠ .finished)
    (born : place = .opening ∨ place = .creating → who = .main → s.place .thrFn = .unborn)
    (joined : place = .lastNewline ∨ place = .finished → who = .main → s.place .thrFn = .finished) :
    Ordered content u := by
  refine ⟨fun w => ?_, fun w => ?_, ?_, ?_, movesCopied ordered.copied moves⟩
  · rw [goes]
    by_cases same : w = who
    · subst same
      simpa using own
    · simpa [Function.update_of_ne same, offsets w same] using ordered.own w
  · rw [goes]
    by_cases same : w = who
    · subst same
      simpa using holds
    · simpa [Function.update_of_ne same, others w same] using ordered.mutex w
  · rw [goes]
    cases who with
    | main => simpa using fun h => born h rfl
    | thrFn => simpa using fun h => absurd (ordered.born h) alive.1
  · rw [goes]
    cases who with
    | main => simpa using fun h => joined h rfl
    | thrFn => simpa using fun h => absurd (ordered.joined h) alive.2

theorem orderedKeeps {content : List Byte} {s u : Sys} {who : Thread} {place : Place}
    (ordered : Ordered content s) (moves : Moves content s u who)
    (goes : u.place = Function.update s.place who place)
    (offsets : ∀ w, w ≠ who → u.offset w = s.offset w)
    (own : Own content who (u.offset who) place)
    (inside : place.inside = (s.place who).inside) (mutex : u.mutex = s.mutex)
    (alive : s.place who ≠ .unborn ∧ s.place who ≠ .finished)
    (born : place = .opening ∨ place = .creating → who = .main → s.place .thrFn = .unborn)
    (joined : place = .lastNewline ∨ place = .finished → who = .main → s.place .thrFn = .finished) :
    Ordered content u := by
  have holds : place.inside = true ↔ u.mutex = some who := by
    rw [inside, mutex]
    exact ordered.mutex who
  exact orderedGoto ordered moves goes offsets own holds (fun w _ => by rw [mutex]) alive born joined

theorem stepOrdered {content : List Byte} {s u : Sys} {who : Thread} (ordered : Ordered content s)
    (taken : step content s who = some u) : Ordered content u := by
  have moves := stepMoves ordered taken
  have own := ordered.own who
  have mutex := ordered.mutex who
  cases stepGoes taken with
  | opening here which =>
    rw [here] at own
    rcases which with ⟨rfl, rfl⟩ | ⟨rfl, rfl⟩
    · exact orderedKeeps ordered moves rfl (fun _ _ => rfl) ⟨rfl, own⟩
        (by simp [here, Place.inside]) rfl (by simp [here])
        (fun _ _ => ordered.born (.inl here)) (by simp)
    · exact orderedKeeps ordered moves rfl (fun _ _ => rfl) own
        (by simp [here, Place.inside]) rfl (by simp [here]) (by simp) (by simp)
  | creating here =>
    rw [here] at own
    obtain ⟨rfl, zero⟩ := own
    have unborn := ordered.born (.inr here)
    have other := ordered.own .thrFn
    rw [unborn] at other
    refine ⟨fun w => ?_, fun w => ?_, by simp [Sys.goto], by simp [Sys.goto],
      movesCopied ordered.copied moves⟩
    · cases w with
      | main => exact ⟨rfl, zero⟩
      | thrFn => exact other.2
    · cases w with
      | main => simpa [Sys.goto, Place.inside, here] using mutex
      | thrFn => simpa [Sys.goto, Place.inside, unborn] using ordered.mutex .thrFn
  | newline here =>
    rw [here] at own
    exact orderedKeeps ordered moves rfl (fun _ _ => rfl) own.2
      (by simp [here, Place.inside]) rfl (by simp [here]) (by simp) (by simp)
  | locking here free =>
    rw [here] at own
    have begun : Own content who (s.offset who) .reading := by
      simp only [Own] at own ⊢
      omega
    refine orderedGoto ordered moves rfl (fun _ _ => rfl) begun ?_ (fun w other => ?_)
      (by simp [here]) (by simp) (by simp)
    · simp [Place.inside]
    · simpa [free] using Ne.symm other
  | reads here next =>
    refine orderedKeeps ordered moves rfl (fun w other => Function.update_of_ne other _ _) ?_
      (by simp [here, Place.inside]) rfl (by simp [here]) (by simp) (by simp)
    simpa [Own, Sys.goto] using next
  | ends here past =>
    rw [here] at own
    have bound := List.getElem?_eq_none_iff.mp past
    exact orderedKeeps ordered moves rfl (fun _ _ => rfl) (Nat.le_antisymm own bound)
      (by simp [here, Place.inside]) rfl (by simp [here]) (by simp) (by simp)
  | writing here =>
    exact orderedKeeps ordered moves rfl (fun _ _ => rfl) (ownBound own)
      (by simp [here, Place.inside]) rfl (by simp [here]) (by simp) (by simp)
  | unlocking here which =>
    rw [here] at own
    have held : s.mutex = some who := mutex.mp (by simp [here, Place.inside])
    have others : ∀ w, w ≠ who → ((none : Option Thread) = some w ↔ s.mutex = some w) := by
      intro w other
      simpa [held] using Ne.symm other
    rcases which with ⟨rfl, rfl⟩ | ⟨rfl, rfl⟩
    · exact orderedGoto ordered moves rfl (fun _ _ => rfl) ⟨rfl, own⟩ (by simp [Place.inside]) others
        (by simp [here]) (by simp) (by simp)
    · exact orderedGoto ordered moves rfl (fun _ _ => rfl) own (by simp [Place.inside]) others
        (by simp [here]) (by simp) (by simp)
  | joining here finished =>
    rw [here] at own
    exact orderedKeeps ordered moves rfl (fun _ _ => rfl) own
      (by simp [here, Place.inside]) rfl (by simp [here]) (by simp) (fun _ _ => finished)
  | lastNewline here =>
    rw [here] at own
    obtain ⟨rfl, whole⟩ := own
    exact orderedKeeps ordered moves rfl (fun _ _ => rfl) whole
      (by simp [here, Place.inside]) rfl (by simp [here]) (by simp)
      (fun _ _ => ordered.joined (.inl here))

def Shaped (content : List Byte) (output : List (Thread × Byte)) (n : Thread → Nat) : Prop :=
  ∃ first second pre mid post, first ≠ second ∧
    output = pre ++ copy content first (n first) ++ mid ++ copy content second (n second) ++ post ∧
    Newlines pre ∧ Newlines mid ∧ Newlines post ∧
    (n first < content.length → mid = [] ∧ n second = 0 ∧ post = []) ∧
    (n second < content.length → post = [])

theorem copyZero (content : List Byte) (who : Thread) : copy content who 0 = [] := rfl

theorem copySucc {content : List Byte} {n : Nat} {c : Byte} (next : content[n]? = some c)
    (who : Thread) : copy content who (n + 1) = copy content who n ++ [(who, c)] := by
  simp [copy, List.take_add_one, next]

theorem newlinesSnoc {entries : List (Thread × Byte)} (newlines : Newlines entries) :
    Newlines (entries ++ [(.main, newline)]) := by
  intro e mem
  rcases List.mem_append.mp mem with old | new
  · exact newlines e old
  · exact List.mem_singleton.mp new

theorem twoThreads {a b c : Thread} (left : a ≠ b) (right : a ≠ c) : b = c := by
  cases a <;> cases b <;> cases c <;> first | rfl | contradiction

theorem shapedPrints {content : List Byte} {output : List (Thread × Byte)} {n m : Thread → Nat}
    {who : Thread} {c : Byte} (shaped : Shaped content output n) (next : content[n who]? = some c)
    (idle : ∀ w, w ≠ who → n w = 0 ∨ n w = content.length)
    (grown : m who = n who + 1) (others : ∀ w, w ≠ who → m w = n w) :
    Shaped content (output ++ [(who, c)]) m := by
  have short : n who < content.length := (List.getElem?_eq_some_iff.mp next).1
  obtain ⟨first, second, pre, mid, post, apart, split, left, between, right, open1, open2⟩ := shaped
  by_cases one : first = who
  · subst one
    obtain ⟨rfl, zero, rfl⟩ := open1 short
    have same := others second (Ne.symm apart)
    refine ⟨first, second, pre, [], [], apart, ?_, left, between, right,
      fun _ => ⟨rfl, same.trans zero, rfl⟩, fun _ => rfl⟩
    rw [split, grown, copySucc next, same, zero, copyZero]
    simp
  · have two : second = who := twoThreads apart one
    subst two
    have closed := open2 short
    subst closed
    have same := others first apart
    rcases idle first apart with zero | whole
    · have later := open1 (by omega)
      obtain ⟨rfl, empty, _⟩ := later
      refine ⟨second, first, pre, [], [], Ne.symm apart, ?_, left, between, right,
        fun _ => ⟨rfl, same.trans zero, rfl⟩, fun _ => rfl⟩
      rw [split, grown, copySucc next, same, zero, empty, copyZero, copyZero]
      simp
    · refine ⟨first, second, pre, mid, [], apart, ?_, left, between, right,
        fun less => by omega, fun _ => rfl⟩
      rw [split, grown, copySucc next, same]
      simp

theorem shapedBreaks {content : List Byte} {output : List (Thread × Byte)} {n : Thread → Nat}
    (shaped : Shaped content output n) (idle : ∀ w, n w = 0 ∨ n w = content.length) :
    Shaped content (output ++ [(.main, newline)]) n := by
  obtain ⟨first, second, pre, mid, post, apart, split, left, between, right, open1, open2⟩ := shaped
  by_cases one : n first < content.length
  · obtain ⟨rfl, empty, rfl⟩ := open1 one
    have zero : n first = 0 := (idle first).resolve_right (Nat.ne_of_lt one)
    refine ⟨first, second, pre ++ [(.main, newline)], [], [], apart, ?_, newlinesSnoc left, between,
      right, fun _ => ⟨rfl, empty, rfl⟩, fun _ => rfl⟩
    rw [split, zero, empty, copyZero, copyZero]
    simp
  by_cases two : n second < content.length
  · have closed := open2 two
    subst closed
    have zero : n second = 0 := (idle second).resolve_right (Nat.ne_of_lt two)
    refine ⟨first, second, pre, mid ++ [(.main, newline)], [], apart, ?_, left, newlinesSnoc between,
      right, fun less => absurd less one, fun _ => rfl⟩
    rw [split, zero, copyZero]
    simp
  · refine ⟨first, second, pre, mid, post ++ [(.main, newline)], apart, ?_, left, between,
      newlinesSnoc right, fun less => absurd less one, fun less => absurd less two⟩
    rw [split]
    simp

def Mixed (content : List Byte) (output : List (Thread × Byte)) : Prop :=
  ∃ left right, output = left ++ (.main, newline) :: right ∧
    0 < (owned left .thrFn).length ∧ (owned left .thrFn).length < content.length

theorem mixedStays {content : List Byte} {output : List (Thread × Byte)} (mixed : Mixed content output)
    (more : List (Thread × Byte)) : Mixed content (output ++ more) := by
  obtain ⟨left, right, split, begun, less⟩ := mixed
  exact ⟨left, right ++ more, by rw [split]; simp, begun, less⟩

theorem mixedNot {content : List Byte} {output : List (Thread × Byte)} (mixed : Mixed content output) :
    ¬ Unmixed content output := by
  rintro ⟨first, second, pre, mid, post, apart, split, left, between, right, _⟩
  obtain ⟨before, after, same, begun, less⟩ := mixed
  have main : ∀ {entries : List (Thread × Byte)}, Newlines entries → ∀ e ∈ entries, e.1 ≠ .thrFn := by
    intro entries newlines e mem
    rw [newlines e mem]
    decide
  have foreign : ∀ e ∈ copy content .main content.length, e.1 ≠ .thrFn := by
    intro e mem
    obtain ⟨c, _, same⟩ := List.mem_map.mp mem
    rw [← same]
    exact fun owner => by cases owner
  have own : ∀ e ∈ copy content .thrFn content.length, e.1 = .thrFn := by
    intro e mem
    obtain ⟨c, _, same⟩ := List.mem_map.mp mem
    rw [← same]
  have length : (copy content .thrFn content.length).length = content.length := by simp [copy]
  rw [← length] at less
  have clear : ∀ x y : List (Thread × Byte), (∀ e ∈ x, e.1 ≠ .thrFn) →
      output = x ++ (copy content .thrFn content.length ++ y) → False := by
    intro x y clear whole
    have owner := insideBlock (whole.symm.trans same) clear own begun less
    cases owner
  cases first with
  | main =>
    have thr : second = .thrFn := twoThreads apart (by decide)
    subst thr
    refine clear (pre ++ copy content .main content.length ++ mid) post ?_ (by rw [split]; simp)
    intro e mem
    rcases List.mem_append.mp mem with early | late
    · exact (List.mem_append.mp early).elim (main left e) (foreign e)
    · exact main between e late
  | thrFn =>
    exact clear pre (mid ++ copy content second content.length ++ post) (main left)
      (by rw [split]; simp)

theorem outsideWritten {content : List Byte} {s : Sys} (ordered : Ordered content s) {who : Thread}
    (outside : (s.place who).inside = false) :
    written s who = 0 ∨ written s who = content.length := by
  have own := ordered.own who
  unfold written
  cases place : s.place who with
  | reading => simp [place, Place.inside] at outside
  | writing c => simp [place, Place.inside] at outside
  | unlocking => simp [place, Place.inside] at outside
  | _ =>
    rw [place] at own
    simp only [Own] at own
    simp only [Place.pending]
    omega

theorem othersOutside {content : List Byte} {s : Sys} (ordered : Ordered content s) {who w : Thread}
    (inside : (s.place who).inside = true) (other : w ≠ who) : (s.place w).inside = false := by
  have holder := (ordered.mutex who).mp inside
  refine Bool.eq_false_iff.mpr (fun both => other ?_)
  have again := (ordered.mutex w).mp both
  exact (Option.some.inj (holder.symm.trans again)).symm

structure Tidy (content : List Byte) (s : Sys) : Prop where
  ordered : Ordered content s
  counted : Counted s
  shaped : Shaped content s.output (written s)

theorem startTidy (content : List Byte) : Tidy content Sys.start := by
  refine ⟨startOrdered content, rfl, .main, .thrFn, [], [], [], by decide, rfl, ?_, ?_, ?_,
    fun _ => ⟨rfl, rfl, rfl⟩, fun _ => rfl⟩ <;> simp [Newlines]

theorem stepTidy {content : List Byte} {s u : Sys} {who : Thread} (tidy : Tidy content s)
    (taken : step content s who = some u) :
    Apart content s who ∧ Tidy content u ∨
      ¬ Apart content s who ∧ Ordered content u ∧ Mixed content u.output := by
  obtain ⟨ordered, counted, shaped⟩ := tidy
  have after := stepOrdered ordered taken
  have recounted := movesCounted counted (stepMoves ordered taken)
  have length : (owned s.output .thrFn).length = written s .thrFn := by
    rw [ordered.copied, List.length_take]
    have bound := ownBound (ordered.own .thrFn)
    have less : written s .thrFn ≤ s.offset .thrFn := Nat.sub_le _ _
    omega
  cases stepMoves ordered taken with
  | prints c here next output grown others _ =>
    refine .inl ⟨fun place => ?_, after, recounted, ?_⟩
    · rw [place] at here
      cases here
    · rw [output]
      exact shapedPrints shaped next
        (fun w other => outsideWritten ordered (othersOutside ordered here other)) grown others
  | breaks here main output same _ =>
    subst main
    have equal : written u = written s := funext same
    have calm : (s.place .main).inside = false := by
      rcases here with first | last
      · rw [first]; rfl
      · rw [last]; rfl
    have quietly : written s .thrFn = 0 ∨ written s .thrFn = content.length → Tidy content u := by
      intro idle
      refine ⟨after, recounted, ?_⟩
      rw [output, equal]
      refine shapedBreaks shaped (fun w => ?_)
      cases w with
      | main => exact outsideWritten ordered calm
      | thrFn => exact idle
    rcases here with first | last
    · by_cases apart : Apart content s .main
      · exact .inl ⟨apart, quietly (length ▸ apart first)⟩
      · refine .inr ⟨apart, after, s.output, [], output, ?_, ?_⟩
        · exact Nat.pos_of_ne_zero (fun zero => apart (fun _ => .inl zero))
        · refine Nat.lt_of_le_of_ne ?_ (fun whole => apart (fun _ => .inr whole))
          rw [ordered.copied]
          exact List.length_take_le' _ _
    · have gone : (s.place .thrFn).inside = false := by
        rw [ordered.joined (.inl last)]
        rfl
      refine .inl ⟨fun place => ?_, quietly (outsideWritten ordered gone)⟩
      rw [place] at last
      cases last
  | quiet calm output same _ =>
    have equal : written u = written s := funext same
    exact .inl ⟨fun place => absurd place calm, after, recounted, by rw [output, equal]; exact shaped⟩

theorem finishedWhole {content : List Byte} {s : Sys} (ordered : Ordered content s)
    (finished : s.place .main = .finished) (who : Thread) : written s who = content.length := by
  have place : s.place who = .finished := by
    cases who with
    | main => exact finished
    | thrFn => exact ordered.joined (.inr finished)
  have own := ordered.own who
  rw [place] at own
  simp only [written, place, Place.pending]
  exact own

theorem copiesApartExactly (content : List Byte) (labels : List Thread) (last : Sys)
    (run : Run (step content) (fun _ _ => True) Sys.start labels last)
    (finished : last.place .main = .finished) :
    Unmixed content last.output ↔ Run (step content) (Apart content) Sys.start labels last := by
  have outcome : Run (step content) (Apart content) Sys.start labels last ∧ Tidy content last ∨
      ¬ Run (step content) (Apart content) Sys.start labels last ∧
        (Ordered content last ∧ Mixed content last.output) := by
    refine runOrDamage (Tidy content) (fun s => Ordered content s ∧ Mixed content s.output)
      (fun s who u tidy _ taken => stepTidy tidy taken) ?_ run (startTidy content)
    rintro s who u ⟨ordered, mixed⟩ _ taken
    refine ⟨stepOrdered ordered taken, ?_⟩
    cases stepMoves ordered taken with
    | prints c here next output grown others _ => exact output ▸ mixedStays mixed _
    | breaks here main output same _ => exact output ▸ mixedStays mixed _
    | quiet calm output same _ => exact output ▸ mixed
  rcases outcome with ⟨whole, tidy⟩ | ⟨broken, _, mixed⟩
  · obtain ⟨first, second, pre, mid, post, apart, split, left, between, right, _⟩ := tidy.shaped
    have full := finishedWhole tidy.ordered finished
    have counted := tidy.counted
    rw [full, full] at split
    rw [Counted, full, full, finished, split] at counted
    have two : (pre ++ mid ++ post).length = 2 := by
      simp only [copy, Place.broken, List.length_append, List.length_map, List.take_length] at counted ⊢
      omega
    exact ⟨fun _ => whole,
      fun _ => ⟨first, second, pre, mid, post, apart, split, left, between, right, two⟩⟩
  · exact ⟨fun unmixed => absurd unmixed (mixedNot mixed), fun whole => absurd whole broken⟩

def ab : List Byte := [97, 98]

def copying (who : Thread) : List Thread := List.replicate 7 who

def newlineFirst : List Thread :=
  [.main, .main, .thrFn, .main] ++ copying .thrFn ++ copying .main ++ [.main, .main]

def newlineBetween : List Thread :=
  [.main, .main, .thrFn, .thrFn, .thrFn, .thrFn, .main] ++ List.replicate 4 .thrFn ++
    copying .main ++ [.main, .main]

theorem newlineFirstApart : ∃ last, Run (step ab) (fun _ _ => True) Sys.start newlineFirst last ∧
    last.place .main = .finished ∧ Unmixed ab last.output := by
  obtain ⟨last, run, place⟩ := checkedEnd (step ab) (Apart ab) Sys.start newlineFirst
    (fun s => s.place .main) .finished (by decide +kernel)
  exact ⟨last, runFree run, place, (copiesApartExactly ab _ last (runFree run) place).mpr run⟩

theorem newlineBetweenMixes : ¬ ∀ content labels last,
    Run (step content) (fun _ _ => True) Sys.start labels last → last.place .main = .finished →
    Unmixed content last.output := by
  intro all
  obtain ⟨last, run, both⟩ := checkedEnd (step ab) (fun _ _ => True) Sys.start newlineBetween
    (fun s => (s.place .main, s.output))
    (.finished, [(.thrFn, 97), (.main, 10), (.thrFn, 98), (.main, 97), (.main, 98), (.main, 10)])
    (by decide +kernel)
  rw [Prod.mk.injEq] at both
  have mixed : Mixed ab last.output :=
    ⟨[(.thrFn, 97)], [(.thrFn, 98), (.main, 97), (.main, 98), (.main, 10)], both.2, by decide, by decide⟩
  exact mixedNot mixed (all ab _ last run both.1)

end OsLabs.LockedCopies
