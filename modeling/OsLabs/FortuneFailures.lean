import OsLabs.FortuneFence

/-! Failed calls of fortune.c. Two states that differ only in tmpBuffer and above writeInd
answer every continuation alike; a failed call leaves such a state behind, unless it is
a read that has reset the cursor. -/
namespace OsLabs.FortuneStore.Fortune
open CInteger CMemory Runs

def Answer.Failed : Answer → Prop
  | .wrote ret => ret = -enospc ∨ ret = -efault
  | .read ret _ _ => ret = -efault

def Permitted (s : State) : Op → Prop
  | .write c => Fitting s.toStatics c
  | .read _ => True

def Resets (s : State) : Op → Prop
  | .write _ => False
  | .read _ => s.writeInd ≤ s.readInd

instance (s : State) : (op : Op) → Decidable (Permitted s op)
  | .write c => inferInstanceAs (Decidable (Fitting s.toStatics c))
  | .read _ => inferInstanceAs (Decidable True)

theorem permittedFenced {s u : State} {op : Op} (fenced : Fenced s.toStatics)
    (permitted : Permitted s op) (taken : opStep s op = some u) : Fenced u.toStatics := by
  obtain ⟨⟨answer, t⟩, answered, same⟩ := Option.map_eq_some_iff.mp taken
  cases same
  cases op with
  | write c =>
    cases Option.some.inj answered
    exact fencedWrite fenced permitted.2
  | read c =>
    obtain ⟨r, result, same⟩ := Option.map_eq_some_iff.mp answered
    cases same
    exact fencedRead fenced result

theorem reachedFenced {outside beside : Mem} {ops : List Op} {s : State}
    (run : Run opStep Permitted (initFortune outside beside) ops s) : Fenced s.toStatics :=
  runInvariant (fun s => Fenced s.toStatics)
    (fun _ _ _ fenced permitted taken => permittedFenced fenced permitted taken) run
    (initFenced outside)

structure Alike (s t : State) : Prop where
  used : t.writeInd = s.writeInd
  cursor : t.readInd = s.readInd
  low : 0 ≤ s.readInd
  seen : (Fenced s.toStatics ∧ ∀ j < s.writeInd, t.buffer j = s.buffer j) ∨
    ∀ j < (cookieMaxBufSize : Int), t.buffer j = s.buffer j

theorem alikeWrite {s t : State} (alike : Alike s t) (c : WriteCall) :
    ∃ answer u v, react s (.write c) = some (answer, u) ∧ react t (.write c) = some (answer, v) ∧
      Alike u v := by
  obtain ⟨ret, stores, used⟩ := writeLocal alike.used c
  refine ⟨_, _, _, rfl, by simp only [react, writeFortune, ret]; rfl, used, ?_, ?_, ?_⟩
  · exact (writeKeepsCursor t.toStatics c).trans
      (alike.cursor.trans (writeKeepsCursor s.toStatics c).symm)
  · exact (writeKeepsCursor s.toStatics c).symm ▸ alike.low
  have left := writeState s.toStatics c
  have right := writeState t.toStatics c
  rw [stores] at right
  -- the two buffers after the call agree wherever they did or the call stores
  have kept : ∀ j, (t.buffer j = s.buffer j ∨
      ∃ x ∈ (FortuneStore.writeFortune s.toStatics c).stores, x.index = j) →
      (FortuneStore.writeFortune t.toStatics c).state.buffer j =
        (FortuneStore.writeFortune s.toStatics c).state.buffer j := by
    intro j same
    rw [left, right]
    exact putAllAgree _ _ _ _ same
  rcases alike.seen with ⟨fenced, below⟩ | page
  · have within := fencedWithin fenced
    have covered : ∀ j < (FortuneStore.writeFortune s.toStatics c).state.writeInd,
        (FortuneStore.writeFortune t.toStatics c).state.buffer j =
          (FortuneStore.writeFortune s.toStatics c).state.buffer j := by
      intro j high
      apply kept
      by_cases old : j < s.writeInd
      · exact .inl (below j old)
      · cases writeCases within.1 (withinUnwrapped within c) with
        | refused tooLong same => rw [same] at high; exact absurd high old
        | faulted copied same => rw [same] at high; exact absurd high old
        | accepted room done same =>
          rw [same] at high ⊢
          simp only [WriteCall.len] at high
          exact .inr (acceptedCovers (by omega) (by omega))
    by_cases inside : (FortuneStore.writeFortune s.toStatics c).state.writeInd ≤ cookieMaxBufSize
    · exact .inl ⟨fencedWrite fenced inside, covered⟩
    · exact .inr (fun j high => covered j (Int.lt_trans high (Int.not_le.mp inside)))
  · exact .inr (fun j high => kept j (.inl (page j high)))

theorem alikePlace {s t : State} (alike : Alike s t) : t.place = s.place := by
  unfold Statics.place
  rw [alike.used, alike.cursor]

theorem alikeText {s t : State} (alike : Alike s t) (written : s.writeInd ≠ 0) :
    cstring t.buffer t.place (cookieMaxBufSize - t.place).toNat =
      cstring s.buffer s.place (cookieMaxBufSize - s.place).toNat := by
  rw [alikePlace alike]
  rcases alike.seen with ⟨fenced, below⟩ | page
  · obtain ⟨text, found, bound⟩ := fencedText fenced written
    rw [found]
    exact fencedSame found bound below
  · apply cstringFrame
    intro j low high
    exact page j (by omega)

theorem alikeRead {s t : State} (alike : Alike s t) (c : ReadCall) :
    react s (.read c) = none ∧ react t (.read c) = none ∨
    ∃ answer u v, react s (.read c) = some (answer, u) ∧ react t (.read c) = some (answer, v) ∧
      Alike u v := by
  by_cases opens : 0 < c.fPos ∨ s.writeInd = 0
  · have other : 0 < c.fPos ∨ t.writeInd = 0 := by rwa [alike.used]
    exact .inr ⟨.read 0 [] c.fPos, s, t, by simp only [react, readSkipped opens, Option.map_some],
      by simp only [react, readSkipped other, Option.map_some], alike⟩
  have other : ¬ (0 < c.fPos ∨ t.writeInd = 0) := by rwa [alike.used]
  have same := alikeText alike (fun zero => opens (.inr zero))
  have place := alikePlace alike
  have low := placeLow alike.low
  cases found : cstring s.buffer s.place (cookieMaxBufSize - s.place).toNat with
  | none =>
    rw [found] at same
    exact .inl ⟨by simp only [react, readUnplaced opens found, Option.map_none],
      by simp only [react, readUnplaced other same, Option.map_none]⟩
  | some text =>
    rw [found] at same
    have room := (cstringHolds found).2.2
    have prints := @printedSame s t text (by omega)
    have bound : Fenced s.toStatics → s.place + text.length < s.writeInd := by
      intro fenced
      obtain ⟨other, again, below⟩ := fencedText fenced (fun zero => opens (.inr zero))
      cases Option.some.inj (found.symm.trans again)
      exact below
    -- moving the cursor to the same place leaves the states alike
    have moved : ∀ {r : Int} {x y : Mem}, 0 ≤ r → (Fenced s.toStatics → r ≤ s.writeInd) →
        Alike {s with readInd := r, tmpBuffer := x} {t with readInd := r, tmpBuffer := y} := by
      intro r x y nonneg order
      refine ⟨alike.used, rfl, nonneg, alike.seen.imp_left ?_⟩
      rintro ⟨fenced, below⟩
      exact ⟨⟨⟨nonneg, order fenced, fenced.nul⟩, fenced.page⟩, below⟩
    right
    cases copy : c.copy with
    | done =>
      obtain ⟨x, left⟩ := readDelivered opens copy found low
      obtain ⟨y, right⟩ := readDelivered other copy same (by rwa [place])
      rw [place, prints] at right
      exact ⟨_, _, _, by simp only [react, left, Option.map_some]; rfl,
        by simp only [react, right, Option.map_some]; rfl,
        moved (by omega) (fun fenced => by have := bound fenced; omega)⟩
    | fault copied =>
      obtain ⟨x, left⟩ := readFaulted opens copy found low
      obtain ⟨y, right⟩ := readFaulted other copy same (by rwa [place])
      rw [place, prints] at right
      exact ⟨_, _, _, by simp only [react, left, Option.map_some]; rfl,
        by simp only [react, right, Option.map_some]; rfl,
        moved low (fun fenced => by have := bound fenced; omega)⟩

theorem alikeReact (s t : State) (op : Op) (alike : Alike s t) :
    react s op = none ∧ react t op = none ∨
    ∃ answer u v, react s op = some (answer, u) ∧ react t op = some (answer, v) ∧ Alike u v := by
  cases op with
  | write c => exact .inr (alikeWrite alike c)
  | read c => exact alikeRead alike c

theorem alikeTrace {s t : State} (alike : Alike s t) (later : List Op) :
    trace react t later = trace react s later := (traceSame alikeReact alike later).symm

theorem failedAlike {s u : State} {op : Op} {answer : Answer} (fenced : Fenced s.toStatics)
    (answered : react s op = some (answer, u)) (failed : answer.Failed) (stays : ¬ Resets s op) :
    Alike s u := by
  cases op with
  | write c =>
    cases Option.some.inj answered
    have within := fencedWithin fenced
    have kept : (FortuneStore.writeFortune s.toStatics c).state.writeInd = s.writeInd ∧
        ∀ j < s.writeInd, (FortuneStore.writeFortune s.toStatics c).state.buffer j = s.buffer j := by
      cases writeCases within.1 (withinUnwrapped within c) with
      | refused tooLong same => simp only [same, implies_true, and_self]
      | faulted copied same =>
        exact ⟨by rw [same], fun j below => by rw [same]; exact faultedFrame copied below⟩
      | accepted room done same =>
        have ret : (writeFortune s c).ret = c.len := by rw [writeFortune, same]
        simp only [Answer.Failed, ret, enospc, efault] at failed
        omega
    exact ⟨kept.1, writeKeepsCursor s.toStatics c, fenced.low, .inl ⟨fenced, kept.2⟩⟩
  | read c =>
    obtain ⟨r, result, same⟩ := Option.map_eq_some_iff.mp answered
    cases same
    have place : s.place = s.readInd := if_neg stays
    cases readCases fenced.low result with
    | skipped => simp [Answer.Failed, efault] at failed
    | faulted text copied tmp written found =>
      exact ⟨rfl, place, fenced.low, .inl ⟨fenced, fun j _ => rfl⟩⟩
    | delivered text tmp written found =>
      simp only [Answer.Failed, efault] at failed
      omega

def openRead : ReadCall := ⟨4096, 0, .done⟩

theorem writeReadTrace (s : State) (c : WriteCall) :
    trace react s [.write c, .read openRead] =
      (readFortune {s with toStatics := (writeFortune s c).state} openRead).map
        (fun r => [.wrote (writeFortune s c).ret, .read r.ret r.delivered r.fPos]) := by
  simp only [trace, react, Option.bind_some, Option.bind_map, Function.comp_def, Option.map_some,
    Option.map_bind]
  cases readFortune {s with toStatics := (writeFortune s c).state} openRead <;> rfl

theorem probeSeen {s u : State} {c : WriteCall} (fenced : Fenced s.toStatics)
    (ended : s.readInd = s.writeInd)
    (rewound : u.toStatics = {s.toStatics with readInd := 0}) {text : List Byte}
    (found : cstring u.buffer 0 cookieMaxBufSize = some text) (below : text.length < s.writeInd)
    (done : c.copy = .done) (filled : c.user ≠ []) (clean : 0 ∉ c.user)
    (room : s.writeInd + c.len ≤ cookieMaxBufSize + 1)
    (apart : c.len ≠ text.length ∨ s.writeInd = cookieMaxBufSize) :
    trace react u [.write c, .read openRead] ≠ trace react s [.write c, .read openRead] := by
  have within := fencedWithin fenced
  have left := spaceLeftExact within.1 within.2
  have positive : s.writeInd + c.len + 1 ≠ 0 := by have := within.1; omega
  have ahead : ¬ s.writeInd + c.len + 1 ≤ s.writeInd := by omega
  have wroteS := writeAccepted within (by omega) done
  have wroteU : FortuneStore.writeFortune u.toStatics c = ⟨c.len, acceptedStores s.writeInd c.user,
      {s.toStatics with
        buffer := putAll s.buffer (acceptedStores s.writeInd c.user),
        readInd := 0,
        writeInd := s.writeInd + c.len + 1}⟩ := by
    rw [rewound]
    exact @writeAccepted {s.toStatics with readInd := 0} c within (by simp only; omega) done
  have stateS : (writeFortune s c).state = {s.toStatics with
      buffer := putAll s.buffer (acceptedStores s.writeInd c.user),
      writeInd := s.writeInd + c.len + 1} := congrArg WriteResult.state wroteS
  have stateU := congrArg WriteResult.state wroteU
  have same : u.buffer = s.buffer := by rw [rewound]
  have place : (writeFortune s c).state.place = s.writeInd := by
    rw [stateS, Statics.place, ended]
    exact if_neg ahead
  have start : (writeFortune u c).state.place = 0 := by
    rw [writeFortune, stateU, Statics.place]
    exact ite_self 0
  have textU : cstring (writeFortune u c).state.buffer (writeFortune u c).state.place
      (cookieMaxBufSize - (writeFortune u c).state.place).toNat = some text := by
    rw [start, writeFortune, stateU]
    refine fencedSame found (by rwa [Int.zero_add]) (fun j low => ?_)
    rw [same]
    exact acceptedFrame s.buffer filled (.inl low)
  rw [writeReadTrace, writeReadTrace]
  obtain ⟨tmp, readU⟩ := @readDelivered {u with toStatics := (writeFortune u c).state} openRead text
    (by simp [openRead, writeFortune, stateU, positive]) rfl textU (Int.le_of_eq start.symm)
  have opens : ¬ (0 < openRead.fPos ∨ (writeFortune s c).state.writeInd = 0) := by
    simp [openRead, stateS, positive]
  rw [readU]
  cases textS : cstring (writeFortune s c).state.buffer (writeFortune s c).state.place
      (cookieMaxBufSize - (writeFortune s c).state.place).toNat with
  | none =>
    rw [@readUnplaced {s with toStatics := (writeFortune s c).state} openRead opens textS]
    simp
  | some other =>
    obtain ⟨tmp, readS⟩ := @readDelivered {s with toStatics := (writeFortune s c).state} openRead other
      opens rfl textS (by rw [place]; exact within.1)
    rw [readS]
    obtain ⟨held, free, short⟩ := cstringHolds textS
    rw [place] at held short
    have sealed : other = sealText c.user := by
      rw [stateS] at held
      exact holdsUnique held (sealedHolds s.buffer s.writeInd filled) free (sealClean clean).2
    have length : other.length = c.len := by rw [sealed, sealLength filled, WriteCall.len]
    simp only [Option.map_some, ne_eq, Option.some.injEq, List.cons.injEq, Answer.read.injEq]
    omega

def probeShort : WriteCall := ⟨[newline], by decide, .done⟩

theorem cursorSeen {s u : State} (fenced : Fenced s.toStatics) (written : s.writeInd ≠ 0)
    (ended : s.readInd = s.writeInd) (rewound : u.toStatics = {s.toStatics with readInd := 0}) :
    ∃ later, trace react u later ≠ trace react s later := by
  have within := fencedWithin fenced
  have page := fenced.page
  have fencedAfter : Fenced u.toStatics := by
    rw [rewound]
    exact ⟨⟨Int.le_refl 0, within.1, fenced.nul⟩, fenced.page⟩
  obtain ⟨text, found, below⟩ := fencedText fencedAfter (by rw [rewound]; exact written)
  have start : u.place = 0 := by
    rw [rewound, Statics.place]
    exact ite_self 0
  rw [start] at found below
  have inside : (text.length : Int) < s.writeInd := by simpa [rewound] using below
  by_cases single : text.length = 1 ∧ s.writeInd < cookieMaxBufSize
  · have length : (line 97).len = 2 := rfl
    exact ⟨_, probeSeen fenced ended rewound found inside (c := line 97) rfl (by simp [line])
      (by simp [line, newline]) (by omega) (.inl (by omega))⟩
  · have length : probeShort.len = 1 := rfl
    exact ⟨_, probeSeen fenced ended rewound found inside (c := probeShort) rfl (by simp [probeShort])
      (by simp [probeShort, newline]) (by omega) (by omega)⟩

theorem resetRewinds {s u : State} {op : Op} {answer : Answer} (fenced : Fenced s.toStatics)
    (answered : react s op = some (answer, u)) (failed : answer.Failed) (resets : Resets s op) :
    s.writeInd ≠ 0 ∧ s.readInd = s.writeInd ∧ u.toStatics = {s.toStatics with readInd := 0} := by
  cases op with
  | write c => exact resets.elim
  | read c =>
    obtain ⟨r, result, same⟩ := Option.map_eq_some_iff.mp answered
    cases same
    have place : s.place = 0 := if_pos resets
    have ended : s.readInd = s.writeInd := Int.le_antisymm fenced.order resets
    cases readCases fenced.low result with
    | skipped => simp [Answer.Failed, efault] at failed
    | faulted text copied tmp written found => exact ⟨written, ended, by simp only [place]⟩
    | delivered text tmp written found =>
      simp only [Answer.Failed, efault] at failed
      omega

theorem failureUnseenExactly (outside beside : Mem) (ops : List Op) (s : State)
    (reached : Run opStep Permitted (initFortune outside beside) ops s)
    (op : Op) (answer : Answer) (after : State) (answered : react s op = some (answer, after))
    (failed : answer.Failed) :
    (∀ later, trace react after later = trace react s later) ↔ ¬ Resets s op := by
  have fenced := reachedFenced reached
  constructor
  · intro unseen resets
    obtain ⟨written, ended, rewound⟩ := resetRewinds fenced answered failed resets
    obtain ⟨later, seen⟩ := cursorSeen fenced written ended rewound
    exact seen (unseen later)
  · intro stays later
    exact alikeTrace (failedAlike fenced answered failed stays) later

def failedRead : ReadCall := ⟨4096, 0, .fault 0⟩

theorem freshFailureUnseen : ∃ s answer after, react s (.read failedRead) = some (answer, after) ∧
    answer.Failed ∧ ∀ later, trace react after later = trace react s later := by
  obtain ⟨s, run, place⟩ := checkedEnd opStep Permitted (initFortune (fun _ => 0) (fun _ => 0))
    [.write (line 97)] (fun s => (s.readInd, s.writeInd, (react s (.read failedRead)).map Prod.fst))
    (0, 3, some (.read (-efault) [] 0)) (by decide +kernel)
  rw [Prod.mk.injEq, Prod.mk.injEq] at place
  obtain ⟨cursor, used, answers⟩ := place
  obtain ⟨⟨answer, after⟩, answered, same⟩ := Option.map_eq_some_iff.mp answers
  have failed : answer.Failed := by
    cases same
    rfl
  exact ⟨s, answer, after, answered, failed, (failureUnseenExactly _ _ _ s run _ answer after answered
    failed).mpr (by simp only [Resets]; omega)⟩

theorem failedReadSeen : ¬ ∀ outside beside ops s,
    Run opStep Permitted (initFortune outside beside) ops s →
    ∀ op answer after, react s op = some (answer, after) → answer.Failed →
      ∀ later, trace react after later = trace react s later := by
  intro all
  obtain ⟨s, run, seen⟩ := checkedEnd opStep Permitted (initFortune (fun _ => 0) (fun _ => 0))
    [.write (line 97), .read openRead] (fun s => (react s (.read failedRead)).map
      (fun out => (out.1, trace react out.2 [.write (line 98), .read openRead],
        trace react s [.write (line 98), .read openRead])))
    (some (.read (-efault) [] 0, some [.wrote 2, .read 3 [97, newline, newline] 3],
      some [.wrote 2, .read 3 [98, newline, newline] 3])) (by decide +kernel)
  obtain ⟨⟨answer, after⟩, answered, same⟩ := Option.map_eq_some_iff.mp seen
  simp only [Prod.mk.injEq] at same
  obtain ⟨failed, delivered, expected⟩ := same
  have unseen := all _ _ _ s run _ answer after answered (by rw [failed]; rfl)
    [.write (line 98), .read openRead]
  rw [delivered, expected] at unseen
  exact absurd unseen (by decide)

end OsLabs.FortuneStore.Fortune
