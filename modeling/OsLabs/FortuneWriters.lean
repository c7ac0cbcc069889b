import Mathlib.Algebra.BigOperators.Fin
import Mathlib.Algebra.Order.BigOperators.Group.Finset
import OsLabs.FortuneLoading

/-! Any number of callers that write to a loaded fortune module at once. Nothing keeps two calls of
writeFortune apart: their statements come in any order, each of them as a whole. fortune.c and
seqfile.c contain the same statements. -/
namespace OsLabs.FortuneStore.Writers
open CInteger CMemory Runs
open Loading (Call Point Loader)

/- `stored` lists every store to the buffer, and `granted` adds up what the calls past their space
check need, each with a terminator. -/
structure Sys (n : Nat) where
  statics : Statics
  call : Fin n → Option Call
  acknowledged : List (List Byte)
  stored : List Store
  granted : Nat

def loaded (n : Nat) (outside : Mem) : Sys n := ⟨initStatics outside, fun _ => none, [], [], 0⟩

def stores (s : Statics) (k : Call) : List Store :=
  match k.point with
  | .copyFromUser => match k.request.copy with
      | .fault copied => copyTo s.writeInd (partialCopy k.request copied)
      | .done => copyTo s.writeInd k.request.user
  | .putNewline => [⟨toInt (s.writeInd - 1), newline⟩]
  | .putNul => [⟨s.writeInd, 0⟩]
  | .advance | .finish => []

theorem storesAll (w : Loader) (k : Call) :
    (Loading.writeFortune w k).statics.buffer = putAll w.statics.buffer (stores w.statics k) := by
  obtain ⟨c, point⟩ := k
  cases point with
  | copyFromUser =>
    cases copy : c.copy <;> simp only [Loading.writeFortune, stores, copy]
  | advance | putNewline | putNul | finish => rfl

/- What a call may still need of the page. Its copy may store len bytes even when it faults. -/
def reserved : Option Call → Nat
  | none => 0
  | some ⟨c, .copyFromUser⟩ | some ⟨c, .advance⟩ => c.len + 1
  | some ⟨_, .putNewline⟩ | some ⟨_, .putNul⟩ | some ⟨_, .finish⟩ => 1

theorem pendingReserved (w : Loader) : w.pending ≤ reserved w.call := by
  obtain ⟨statics, stage, call, acknowledged⟩ := w
  rcases call with _ | ⟨c, point⟩
  · exact Nat.le_refl 0
  cases point with
  | copyFromUser =>
    simp only [Loader.pending, reserved]
    split <;> omega
  | advance | putNewline | putNul | finish => exact Nat.le_refl _

section Callers
variable {n : Nat}

def Sys.view (s : Sys n) (who : Fin n) : Loader := ⟨s.statics, .loaded, s.call who, s.acknowledged⟩

inductive Act (n : Nat) where
  | write (who : Fin n) (request : WriteCall)
  | resume (who : Fin n)

def step (s : Sys n) : Act n → Option (Sys n)
  | .write who request =>
      if (s.call who).isNone then
        if spaceLeft s.statics.writeInd < request.len then some s
        else some {s with
          call := Function.update s.call who (some ⟨request, .copyFromUser⟩)
          granted := s.granted + request.len + 1}
      else none
  | .resume who => (s.call who).map fun k =>
      let w := Loading.writeFortune (s.view who) k
      ⟨w.statics, Function.update s.call who w.call, w.acknowledged, s.stored ++ stores s.statics k,
        s.granted⟩

def Fits (s : Sys n) : Act n → Prop
  | .write _ request => request.len ≤ spaceLeft s.statics.writeInd →
      request.user ≠ [] ∧ s.granted + request.len + 1 ≤ cookieMaxBufSize
  | .resume _ => True

instance (s : Sys n) : (a : Act n) → Decidable (Fits s a)
  | .write _ _ => inferInstanceAs (Decidable (_ → _))
  | .resume _ => isTrue trivial

def Sys.pending (s : Sys n) : Nat := Finset.univ.sum fun who => reserved (s.call who)
def Sys.moved (s : Sys n) : Nat := Finset.univ.sum fun who => (s.view who).moved

theorem sumSwap {f g : Fin n → Nat} {who : Fin n} (others : ∀ other, other ≠ who → g other = f other) :
    Finset.univ.sum g + f who = Finset.univ.sum f + g who := by
  have rest : (Finset.univ.erase who).sum g = (Finset.univ.erase who).sum f :=
    Finset.sum_congr rfl fun other mem => others other (Finset.ne_of_mem_erase mem)
  have whole : f who + (Finset.univ.erase who).sum f = Finset.univ.sum f :=
    Finset.add_sum_erase _ _ (Finset.mem_univ who)
  have changed : g who + (Finset.univ.erase who).sum g = Finset.univ.sum g :=
    Finset.add_sum_erase _ _ (Finset.mem_univ who)
  omega

theorem partSum (f : Fin n → Nat) (who : Fin n) : f who ≤ Finset.univ.sum f :=
  Finset.single_le_sum (fun _ _ => Nat.zero_le _) (Finset.mem_univ who)

theorem oneMoves {s u : Sys n} {who : Fin n} (others : ∀ other, other ≠ who → u.call other = s.call other) :
    u.pending + reserved (s.call who) = s.pending + reserved (u.call who) ∧
      u.moved + (s.view who).moved = s.moved + (u.view who).moved := by
  refine ⟨@sumSwap n (fun d => reserved (s.call d)) (fun d => reserved (u.call d)) who fun other apart => ?_,
    @sumSwap n (fun d => (s.view d).moved) (fun d => (u.view d).moved) who fun other apart => ?_⟩
  · rw [others other apart]
  · simp only [Loader.moved, Sys.view, others other apart]

structure Sized (s : Sys n) : Prop where
  low : 0 ≤ s.statics.writeInd
  room : s.statics.writeInd + s.pending ≤ s.granted
  page : s.granted ≤ cookieMaxBufSize
  filled : ∀ who, ∀ k ∈ s.call who, k.request.user ≠ []
  used : s.statics.writeInd = (image s.acknowledged).length + s.moved

theorem viewSized {s : Sys n} (sized : Sized s) (who : Fin n) : Loading.Sized (s.view who) where
  low := sized.low
  room := by
    have own : reserved (s.call who) ≤ s.pending := partSum (fun who => reserved (s.call who)) who
    have less : (s.view who).pending ≤ reserved (s.call who) := pendingReserved (s.view who)
    have room := sized.room
    have page := sized.page
    change s.statics.writeInd + (s.view who).pending ≤ cookieMaxBufSize
    omega
  filled := sized.filled who
  early := fun absent => Bool.noConfusion absent
  blank := fun early => by simp [Sys.view] at early

theorem callDue {w : Loader} {k : Call} (sized : Loading.Sized w) (under : w.call = some k) :
    (Loading.writeFortune w k).statics.writeInd + reserved (Loading.writeFortune w k).call ≤
      w.statics.writeInd + reserved (some k) := by
  obtain ⟨c, point⟩ := k
  have low := sized.low
  have room := sized.room
  cases point <;> simp only [Loader.pending, under] at room <;> simp only [reserved]
  case copyFromUser =>
    cases copy : c.copy <;> simp only [Loading.writeFortune, copy] <;> omega
  case advance =>
    simp only [Loading.writeFortune, pageInt (show 0 ≤ w.statics.writeInd + c.len by omega) (by omega)]
    omega
  case putNewline | putNul =>
    simp only [Loading.writeFortune, Loading.putAt]
    omega
  case finish =>
    simp only [Loading.writeFortune, pageInt (show 0 ≤ w.statics.writeInd + 1 by omega) (by omega)]
    omega

theorem resumeSized {s : Sys n} {who : Fin n} {k : Call} {w : Loader} (sized : Sized s)
    (under : s.call who = some k) (resumed : Loading.writeFortune (s.view who) k = w) (stored : List Store) :
    Sized ⟨w.statics, Function.update s.call who w.call, w.acknowledged, stored, s.granted⟩ := by
  have step := Loading.callSteps (viewSized sized who) under
  have due := callDue (viewSized sized who) under
  rw [resumed] at step due
  let u : Sys n := ⟨w.statics, Function.update s.call who w.call, w.acknowledged, stored, s.granted⟩
  have others : ∀ other, other ≠ who → u.call other = s.call other := fun other apart =>
    Function.update_of_ne apart _ _
  have own : u.call who = w.call := Function.update_self ..
  obtain ⟨pending, moved⟩ := oneMoves others
  have ownMoved : (u.view who).moved = w.moved := by simp only [Loader.moved, Sys.view, own]
  rw [own, under] at pending
  have distance := step.distance
  simp only [Loader.expected] at distance
  have room := sized.room
  have used := sized.used
  have before : (s.view who).statics.writeInd = s.statics.writeInd := rfl
  have texts : (s.view who).acknowledged = s.acknowledged := rfl
  rw [texts] at distance
  refine ⟨step.low, ?_, sized.page, fun other k' mem => ?_, ?_⟩
  · change w.statics.writeInd + u.pending ≤ s.granted
    omega
  · change k' ∈ u.call other at mem
    by_cases same : other = who
    · subst same
      rw [own] at mem
      rw [step.request k' mem]
      exact sized.filled other k under
    · rw [others other same] at mem
      exact sized.filled other k' mem
  · change w.statics.writeInd = (image w.acknowledged).length + u.moved
    omega

theorem writeSized {s : Sys n} {who : Fin n} {request : WriteCall} (sized : Sized s)
    (idle : s.call who = none) (filled : request.user ≠ [])
    (room : s.granted + request.len + 1 ≤ cookieMaxBufSize) :
    Sized {s with
      call := Function.update s.call who (some ⟨request, .copyFromUser⟩)
      granted := s.granted + request.len + 1} := by
  let u : Sys n := {s with
    call := Function.update s.call who (some ⟨request, .copyFromUser⟩)
    granted := s.granted + request.len + 1}
  have others : ∀ other, other ≠ who → u.call other = s.call other := fun other apart =>
    Function.update_of_ne apart _ _
  have own : u.call who = some ⟨request, .copyFromUser⟩ := Function.update_self ..
  obtain ⟨pending, moved⟩ := oneMoves others
  simp only [reserved, own, idle] at pending
  simp only [Loader.moved, Sys.view, own, idle] at moved
  have before := sized.room
  have used := sized.used
  refine ⟨sized.low, ?_, room, fun other k mem => ?_, ?_⟩
  · change s.statics.writeInd + u.pending ≤ (s.granted + request.len + 1 : Nat)
    omega
  · change k ∈ u.call other at mem
    by_cases same : other = who
    · subst same
      rw [own] at mem
      cases Option.mem_some_iff.mp mem
      exact filled
    · rw [others other same] at mem
      exact sized.filled other k mem
  · change s.statics.writeInd = (image s.acknowledged).length + u.moved
    omega

theorem storesInside {s : Sys n} {who : Fin n} {k : Call} (sized : Sized s) (under : s.call who = some k) :
    ∀ store ∈ stores s.statics k,
      0 ≤ store.index ∧ store.index < s.granted ∧ (s.granted ≤ store.index + 1 → store.value = 0) := by
  have low := sized.low
  have page := sized.page
  have filled : 0 < k.request.user.length := List.length_pos_iff.mpr (sized.filled who k under)
  have own : reserved (s.call who) ≤ s.pending := partSum (fun who => reserved (s.call who)) who
  have moved : (s.view who).moved ≤ s.moved := partSum (fun who => (s.view who).moved) who
  have used := sized.used
  have room := sized.room
  obtain ⟨c, point⟩ := k
  change 0 < c.len at filled
  rw [under] at own
  simp only [Loader.moved, Sys.view, under] at moved
  intro store mem
  cases point <;> simp only [stores, reserved] at mem own moved
  case copyFromUser =>
    have range : s.statics.writeInd ≤ store.index ∧ store.index < s.statics.writeInd + c.len := by
      cases copy : c.copy with
      | done =>
        simp only [copy] at mem
        exact copyToIndex mem
      | fault copied =>
        simp only [copy] at mem
        have length : (partialCopy c copied).length = c.len := @partialCopyLength c copied
        exact length ▸ copyToIndex mem
    exact ⟨by omega, by omega, fun behind => by omega⟩
  case advance | finish => exact absurd mem List.not_mem_nil
  case putNewline =>
    rw [List.mem_singleton.mp mem, pageInt (by omega) (by omega)]
    exact ⟨by simp only; omega, by simp only; omega, fun behind => by simp only at behind; omega⟩
  case putNul =>
    rw [List.mem_singleton.mp mem]
    exact ⟨low, by simp only; omega, fun _ => rfl⟩

theorem putAllZero {m : Mem} {stores : List Store} {j : Int} (zero : m j = 0)
    (only : ∀ store ∈ stores, store.index = j → store.value = 0) : putAll m stores j = 0 := by
  induction stores generalizing m with
  | nil => exact zero
  | cons store rest ih =>
    refine ih ?_ fun other mem => only other (List.mem_cons_of_mem _ mem)
    by_cases here : j = store.index
    · exact (if_pos here).trans (only store List.mem_cons_self here.symm)
    · exact (if_neg here).trans zero

structure Fenced (s : Sys n) : Prop extends Sized s where
  inside : ∀ store ∈ s.stored, 0 ≤ store.index ∧ store.index < cookieMaxBufSize
  clear : ∀ j : Int, 0 ≤ j → s.granted ≤ j + 1 → j < cookieMaxBufSize → s.statics.buffer j = 0

theorem loadedFenced (n : Nat) (outside : Mem) : Fenced (loaded n outside) where
  low := Int.le_refl 0
  room := by simp [loaded, initStatics, Sys.pending, reserved]
  page := Nat.zero_le _
  filled := fun _ _ mem => absurd mem (Option.not_mem_none _)
  used := by simp [loaded, initStatics, Sys.moved, Sys.view, Loader.moved, image]
  inside := fun _ mem => absurd mem List.not_mem_nil
  clear := fun j low _ high => if_pos ⟨low, by simpa using high⟩

theorem stepFenced {s u : Sys n} {a : Act n} (fenced : Fenced s) (fits : Fits s a)
    (taken : step s a = some u) : Fenced u := by
  cases a with
  | write who request =>
    simp only [step] at taken
    split at taken
    · rename_i idle
      split at taken
      · cases taken
        exact fenced
      · rename_i room
        cases taken
        obtain ⟨filled, page⟩ := fits (Nat.le_of_not_lt room)
        refine ⟨writeSized fenced.toSized (Option.isNone_iff_eq_none.mp idle) filled page, fenced.inside,
          fun j low behind high => fenced.clear j low ?_ high⟩
        simp only at behind
        omega
    · contradiction
  | resume who =>
    obtain ⟨k, under, same⟩ := Option.map_eq_some_iff.mp taken
    subst same
    have stores := storesInside fenced.toSized under
    refine ⟨resumeSized fenced.toSized under rfl _, fun store mem => ?_, fun j low behind high => ?_⟩
    · rcases List.mem_append.mp mem with before | now
      · exact fenced.inside store before
      · have range := stores store now
        have page := fenced.page
        omega
    · change (Loading.writeFortune (s.view who) k).statics.buffer j = 0
      rw [storesAll]
      refine putAllZero (fenced.clear j low behind high) fun store mem here => ?_
      exact (stores store mem).2.2 (here ▸ behind)

theorem writersFenced {outside : Mem} {labels : List (Act n)} {last : Sys n}
    (run : Run step Fits (loaded n outside) labels last) :
    (∀ store ∈ last.stored, 0 ≤ store.index ∧ store.index < cookieMaxBufSize) ∧
    (∀ i < last.granted, ∃ text, cstring last.statics.buffer i (cookieMaxBufSize - i) = some text ∧
      i + text.length < last.granted) ∧
    0 ≤ last.statics.writeInd ∧ last.statics.writeInd ≤ last.granted ∧
    ((∀ who, last.call who = none) → last.statics.writeInd = (image last.acknowledged).length) := by
  have fenced := runInvariant Fenced (fun _ _ _ before fits taken => stepFenced before fits taken) run
    (loadedFenced n outside)
  have room := fenced.room
  have page := fenced.page
  refine ⟨fenced.inside, fun i below => ?_, fenced.low, by omega, fun idle => ?_⟩
  · have last' : last.statics.buffer ((last.granted : Int) - 1) = 0 :=
      fenced.clear _ (by omega) (by omega) (by omega)
    obtain ⟨text, found, ends⟩ := @cstringEnds _ (i : Int) _ (cookieMaxBufSize - i) (by omega) (by omega) last'
    exact ⟨text, found, by omega⟩
  · have settled : last.moved = 0 := Finset.sum_eq_zero fun who _ => by
      simp only [Loader.moved, Sys.view, idle who]
    have used := fenced.used
    omega

def Single (s : Sys n) (who : Fin n) : Prop :=
  ∀ other, other ≠ who → ∀ k ∈ s.call other, k.point = .copyFromUser

/- A copy waits until the calls that have copied have returned. The space checks come at any time. -/
def Apart (s : Sys n) : Act n → Prop
  | .write _ _ => True
  | .resume who => ∀ k ∈ s.call who, k.point = .copyFromUser → Single s who

instance (s : Sys n) (who : Fin n) : Decidable (Single s who) :=
  inferInstanceAs (Decidable (∀ other, other ≠ who → ∀ k ∈ s.call other, k.point = .copyFromUser))

instance (s : Sys n) : (a : Act n) → Decidable (Apart s a)
  | .write _ _ => isTrue trivial
  | .resume who => inferInstanceAs (Decidable (∀ k ∈ s.call who, k.point = .copyFromUser → Single s who))

structure Kept (s : Sys n) : Prop where
  bytes : Holds s.statics.buffer 0 (image s.acknowledged)
  partway : ∀ who, ∀ k ∈ s.call who, k.point ≠ .copyFromUser →
    Single s who ∧ Loading.Partway s.statics.buffer (image s.acknowledged).length k

theorem viewSound {s : Sys n} {who : Fin n} (sized : Sized s) (kept : Kept s)
    (single : Single s who) : Loading.Sound (s.view who) := by
  have own : s.moved = (s.view who).moved := by
    refine Finset.sum_eq_single who (fun other _ apart => ?_) fun out => absurd (Finset.mem_univ who) out
    cases there : s.call other with
    | none => simp only [Loader.moved, Sys.view, there]
    | some k' =>
      obtain ⟨c, point⟩ := k'
      cases single other apart _ there
      simp only [Loader.moved, Sys.view, there]
  refine ⟨viewSized sized who, kept.bytes, ?_, fun k' mem => ?_⟩
  · have used := sized.used
    change s.statics.writeInd = ((image s.acknowledged).length + (s.view who).moved : Nat)
    omega
  · by_cases copies : k'.point = .copyFromUser
    · obtain ⟨c, point⟩ := k'
      cases copies
      trivial
    · exact (kept.partway who k' mem copies).2

theorem resumeKept {s : Sys n} {who : Fin n} {k : Call} {w : Loader} (sized : Sized s) (kept : Kept s)
    (single : Single s who) (under : s.call who = some k)
    (resumed : Loading.writeFortune (s.view who) k = w) (stored : List Store) :
    Kept ⟨w.statics, Function.update s.call who w.call, w.acknowledged, stored, s.granted⟩ := by
  have sound := Loading.callSound (viewSound sized kept single) under
  rw [resumed] at sound
  have others : ∀ other, other ≠ who → Function.update s.call who w.call other = s.call other :=
    fun other apart => Function.update_of_ne apart _ _
  refine ⟨sound.bytes, fun other k' mem copied => ?_⟩
  change k' ∈ Function.update s.call who w.call other at mem
  by_cases same : other = who
  · subst same
    rw [Function.update_self] at mem
    exact ⟨fun third apart k'' there => single third apart k'' (others third apart ▸ there),
      sound.partway k' mem⟩
  · exact absurd (single other same k' (others other same ▸ mem)) copied

theorem writeKept {s : Sys n} (kept : Kept s) (who : Fin n) (request : WriteCall) (granted : Nat) : Kept {s with
      call := Function.update s.call who (some ⟨request, .copyFromUser⟩), granted := granted} := by
  let call := Function.update s.call who (some ⟨request, .copyFromUser⟩)
  -- the new call has not copied, so it is in nobody's way
  have waits : ∀ other, ∀ k ∈ call other, k ∈ s.call other ∨ k.point = .copyFromUser := by
    intro other k mem
    by_cases same : other = who
    · subst same
      have here : call other = some ⟨request, .copyFromUser⟩ := Function.update_self ..
      rw [here] at mem
      cases Option.mem_some_iff.mp mem
      exact .inr rfl
    · have there : call other = s.call other := Function.update_of_ne same _ _
      exact .inl (there ▸ mem)
  refine ⟨kept.bytes, fun other k mem copied => ?_⟩
  have before := (waits other k mem).resolve_right copied
  obtain ⟨single, partway⟩ := kept.partway other k before copied
  exact ⟨fun third apart k' there => (waits third k' there).elim (single third apart k') id, partway⟩

theorem stepKept {s u : Sys n} {a : Act n} (fenced : Fenced s) (kept : Kept s) (apart : Apart s a)
    (taken : step s a = some u) : Kept u := by
  cases a with
  | write who request =>
    simp only [step] at taken
    split at taken
    · split at taken
      · cases taken
        exact kept
      · cases taken
        exact writeKept kept who request _
    · contradiction
  | resume who =>
    obtain ⟨k, under, same⟩ := Option.map_eq_some_iff.mp taken
    subst same
    have single : Single s who := by
      by_cases copies : k.point = .copyFromUser
      · exact apart k under copies
      · exact (kept.partway who k under copies).1
    exact resumeKept fenced.toSized kept single under rfl _

theorem apartKept {outside : Mem} {labels : List (Act n)} {last : Sys n}
    (run : Run step (fun s a => Fits s a ∧ Apart s a) (loaded n outside) labels last) :
    Holds last.statics.buffer 0 (image last.acknowledged) ∧
      ((∀ who, last.call who = none) → last.statics.writeInd = (image last.acknowledged).length) := by
  have both := runInvariant (fun s => Fenced s ∧ Kept s)
    (fun _ _ _ before meets taken =>
      ⟨stepFenced before.1 meets.1 taken, stepKept before.1 before.2 meets.2 taken⟩) run
    ⟨loadedFenced n outside, trivial, fun _ _ mem => absurd mem (Option.not_mem_none _)⟩
  exact ⟨both.2.bytes, (writersFenced (runWeaken (fun _ _ meets => meets.1) run)).2.2.2.2⟩

end Callers

def lineWrite (first : Byte) : WriteCall := ⟨[first, newline], by simp, .done⟩

def overlapping : List (Act 2) :=
  [.write 0 (lineWrite 65), .write 1 (lineWrite 66), .resume 0, .resume 1] ++
    List.replicate 4 (.resume 0) ++ List.replicate 4 (.resume 1)

def inTurn : List (Act 2) :=
  [.write 0 (lineWrite 65), .resume 0, .write 1 (lineWrite 66)] ++
    List.replicate 4 (.resume 0) ++ List.replicate 5 (.resume 1)

theorem overlappingFenced : ∃ last, Run step Fits (loaded 2 fun _ => 255) overlapping last ∧
    (∀ store ∈ last.stored, 0 ≤ store.index ∧ store.index < cookieMaxBufSize) ∧
    last.statics.writeInd = 6 := by
  obtain ⟨last, run, writeInd⟩ := checkedEnd step Fits (loaded 2 fun _ => 255) overlapping
    (fun s => s.statics.writeInd) 6 (by decide +kernel)
  exact ⟨last, run, (writersFenced run).1, writeInd⟩

theorem inTurnKept : ∃ last, Run step (fun s a => Fits s a ∧ Apart s a) (loaded 2 fun _ => 255) inTurn last ∧
    last.acknowledged = [[65, newline], [66, newline]] ∧
    Holds last.statics.buffer 0 (image last.acknowledged) := by
  obtain ⟨last, run, texts⟩ := checkedEnd step (fun s a => Fits s a ∧ Apart s a) (loaded 2 fun _ => 255) inTurn
    (fun s => s.acknowledged) [[65, newline], [66, newline]] (by decide +kernel)
  exact ⟨last, run, texts, (apartKept run).1⟩

theorem overlapLoses : ∃ last, Run step Fits (loaded 2 fun _ => 255) overlapping last ∧
    last.acknowledged = [[65, newline], [66, newline]] ∧
    ¬ Holds last.statics.buffer 0 (image last.acknowledged) := by
  obtain ⟨last, run, seen⟩ := checkedEnd step Fits (loaded 2 fun _ => 255) overlapping
    (fun s => (s.acknowledged, s.statics.buffer 0)) ([[65, newline], [66, newline]], 66) (by decide +kernel)
  obtain ⟨texts, first⟩ := Prod.mk.inj seen
  refine ⟨last, run, texts, fun holds => ?_⟩
  rw [texts] at holds
  exact absurd (first.symm.trans holds.1) (by decide)

end OsLabs.FortuneStore.Writers
