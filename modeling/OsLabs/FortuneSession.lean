import OsLabs.FortuneFence

/-! Reading a file of fortune.c to its end: calls on one open file, each with a size of
its own, up to the one that returns 0. -/
namespace OsLabs.FortuneStore.Fortune
open CInteger CMemory Runs

structure Shelf where
  store : State
  stored : List (List Byte)

def Shelf.start (outside beside : Mem) : Shelf := ⟨initFortune outside beside, []⟩

def shelve (w : Shelf) : Op → Option Shelf
  | .write c => some ⟨{w.store with toStatics := (writeFortune w.store c).state},
      storedAfter w.store.toStatics c w.stored⟩
  | .read c => (readFortune w.store c).map fun r => ⟨r.state, w.stored⟩

def Written (w : Shelf) : Op → Prop
  | .write c => Fitting w.store.toStatics c ∧ 0 ∉ c.user
  | .read _ => True

instance (w : Shelf) : (op : Op) → Decidable (Written w op)
  | .write c => inferInstanceAs (Decidable (Fitting w.store.toStatics c ∧ 0 ∉ c.user))
  | .read _ => inferInstanceAs (Decidable True)

structure Shelved (w : Shelf) : Prop where
  fenced : Fenced w.store.toStatics
  layout : Layout w.store.toStatics w.stored
  place : ∃ n ≤ w.stored.length, w.store.readInd = offset w.stored n

theorem startShelved (outside beside : Mem) : Shelved (Shelf.start outside beside) :=
  ⟨initFenced outside, initLayout outside, 0, Nat.le_refl 0, rfl⟩

theorem shelvedTurn {w : Shelf} (shelved : Shelved w) (filled : 0 < w.stored.length) :
    ∃ n, ∃ inside : n < w.stored.length, w.store.place = offset w.stored n ∧
      cstring w.store.buffer w.store.place (cookieMaxBufSize - w.store.place).toNat =
        some w.stored[n] := by
  obtain ⟨n, range, place⟩ := shelved.place
  have used := shelved.layout.used
  have found : ∀ m, ∀ inside : m < w.stored.length,
      w.store.place = offset w.stored m → ∃ n, ∃ inside : n < w.stored.length,
        w.store.place = offset w.stored n ∧
        cstring w.store.buffer w.store.place (cookieMaxBufSize - w.store.place).toNat =
          some w.stored[n] := by
    intro m inside start
    refine ⟨m, inside, start, ?_⟩
    rw [start, Int.toNat_sub]
    exact layoutText shelved.layout shelved.fenced.page inside
  rcases Nat.lt_or_eq_of_le range with inside | last
  · have bound := offsetLt inside
    have before : ¬ w.store.writeInd ≤ w.store.readInd := by omega
    exact found n inside ((if_neg before).trans place)
  · have ended := offsetEnd w.stored
    rw [← last] at ended
    have after : w.store.writeInd ≤ w.store.readInd := by omega
    exact found 0 filled ((if_pos after).trans (by rw [offsetZero]; rfl))

theorem shelvedFilled {w : Shelf} (shelved : Shelved w) (written : w.store.writeInd ≠ 0) :
    0 < w.stored.length := by
  apply List.length_pos_iff.mpr
  intro empty
  have used := shelved.layout.used
  rw [empty] at used
  exact written used

theorem shelveShelved {w u : Shelf} {op : Op} (shelved : Shelved w) (written : Written w op)
    (taken : shelve w op = some u) : Shelved u := by
  obtain ⟨n, range, place⟩ := shelved.place
  have used := shelved.layout.used
  cases op with
  | write c =>
    cases Option.some.inj taken
    obtain ⟨fitting, clean⟩ := written
    obtain ⟨more, same⟩ := @storedGrows w.store.toStatics c w.stored n range
    refine ⟨fencedWrite shelved.fenced fitting.2,
      storedLayout shelved.layout (fencedWithin shelved.fenced) fitting.1 clean, n, more, ?_⟩
    rw [same, ← place]
    exact writeKeepsCursor w.store.toStatics c
  | read c =>
    obtain ⟨r, result, same⟩ := Option.map_eq_some_iff.mp taken
    cases same
    have fenced := fencedRead shelved.fenced result
    cases readCases shelved.fenced.low result with
    | skipped => exact shelved
    | faulted text copied tmp written found =>
      obtain ⟨m, inside, start, found⟩ := shelvedTurn shelved (shelvedFilled shelved written)
      exact ⟨fenced, ⟨shelved.layout.bytes, used, shelved.layout.clean⟩, m, Nat.le_of_lt inside, start⟩
    | delivered text tmp written found =>
      obtain ⟨m, inside, start, again⟩ := shelvedTurn shelved (shelvedFilled shelved written)
      cases Option.some.inj (found.symm.trans again)
      have next := offsetSucc inside
      exact ⟨fenced, ⟨shelved.layout.bytes, used, shelved.layout.clean⟩, m + 1, inside,
        by simp only; omega⟩

theorem shelved {outside beside : Mem} {ops : List Op} {w : Shelf}
    (run : Run shelve Written (Shelf.start outside beside) ops w) : Shelved w :=
  runInvariant Shelved (fun _ _ _ before written taken => shelveShelved before written taken) run
    (startShelved outside beside)

structure Called where
  before : State
  len : Nat
  result : ReadResult

inductive Session : State → Int → List Called → Prop where
  | last {s fPos len r} (read : readFortune s ⟨len, fPos, .done⟩ = some r) (zero : r.ret = 0) :
      Session s fPos [⟨s, len, r⟩]
  | more {s fPos len r rest} (read : readFortune s ⟨len, fPos, .done⟩ = some r)
      (nonzero : r.ret ≠ 0) (tail : Session r.state r.fPos rest) :
      Session s fPos (⟨s, len, r⟩ :: rest)

def formatted (s : State) : List Byte :=
  ((cstring s.buffer s.place (cookieMaxBufSize - s.place).toNat).map
    (fun text => (text ++ [newline]).take (cookieMaxBufSize - 1))).getD []

structure Honours (fortunes : List (List Byte)) (calls : List Called) : Prop where
  sized : ∀ call ∈ calls, call.result.delivered.length ≤ call.len
  formed : ∀ call ∈ calls, call.result.delivered <+: formatted call.before
  whole : ∃ text ∈ fortunes, calls.flatMap (fun call => call.result.delivered) = text ++ [newline]

def NextFits (w : Shelf) (calls : List Called) : Prop :=
  ∃ n, ∃ inside : n < w.stored.length, w.store.place = offset w.stored n ∧
    (∀ call ∈ calls.head?, w.stored[n].length + 1 ≤ call.len) ∧
    w.stored[n].length + 1 < cookieMaxBufSize

theorem sessionCalls {s : State} {calls : List Called} (fenced : Fenced s.toStatics)
    (written : s.writeInd ≠ 0)
    {text : List Byte}
    (found : cstring s.buffer s.place (cookieMaxBufSize - s.place).toNat = some text)
    (session : Session s 0 calls) :
    ∃ first second, calls = [first, second] ∧ first.before = s ∧
      first.result.delivered = printed s text ∧ second.result.delivered = [] := by
  have low := placeLow fenced.low
  have opens : ∀ len, ¬ (0 < (⟨len, 0, .done⟩ : ReadCall).fPos ∨ s.writeInd = 0) :=
    fun len => by simp [written]
  cases session with
  | @last _ _ len r read zero =>
    obtain ⟨tmp, same⟩ := readDelivered (opens len) rfl found low
    cases Option.some.inj (same.symm.trans read)
    simp only at zero
    omega
  | @more _ _ len r rest read nonzero tail =>
    obtain ⟨tmp, same⟩ := readDelivered (opens len) rfl found low
    cases Option.some.inj (same.symm.trans read)
    have skip : ∀ {t : State} {len : Nat},
        readFortune t ⟨len, 0 + ((text.length : Int) + 1), .done⟩ = some ⟨0, [], 0 + (text.length + 1), t⟩ :=
      readSkipped (.inl (by simp only; omega))
    cases tail with
    | last again zero =>
      cases Option.some.inj (skip.symm.trans again)
      exact ⟨_, _, rfl, rfl, rfl, rfl⟩
    | more again nonzero tail =>
      cases Option.some.inj (skip.symm.trans again)
      exact absurd rfl nonzero

theorem sessionRuns {s : State} (fenced : Fenced s.toStatics) (written : s.writeInd ≠ 0)
    (size next : Nat) : ∃ first t second, Session s 0 [⟨s, size, first⟩, ⟨t, next, second⟩] := by
  obtain ⟨text, found, below⟩ := fencedText fenced written
  obtain ⟨tmp, read⟩ := @readDelivered s ⟨size, 0, .done⟩ text (by simp [written]) rfl found
    (placeLow fenced.low)
  have nonzero : (text.length : Int) + 1 ≠ 0 := by omega
  exact ⟨_, _, _, .more read nonzero (.last (readSkipped (.inl (by simp only; omega))) rfl)⟩

theorem sessionHonours {w : Shelf} {calls : List Called} (shelved : Shelved w)
    (session : Session w.store 0 calls) : Honours w.stored calls ↔ NextFits w calls := by
  by_cases filled : 0 < w.stored.length
  · obtain ⟨n, inside, start, found⟩ := shelvedTurn shelved filled
    have used := shelved.layout.used
    have bound := offsetLt inside
    obtain ⟨first, second, same, before, copied, nothing⟩ :=
      sessionCalls shelved.fenced (by omega) found session
    have length := printedLength w.store w.stored[n]
    have text : formatted w.store = (w.stored[n] ++ [newline]).take (cookieMaxBufSize - 1) := by
      rw [formatted, found]
      rfl
    constructor
    · intro honours
      have sized := honours.sized first (by simp [same])
      have formed := (honours.formed first (by simp [same])).length_le
      rw [copied, length] at sized formed
      rw [before, text, List.length_take] at formed
      exact ⟨n, inside, start, by simpa [same] using sized, by omega⟩
    · rintro ⟨m, other, again, sized, short⟩
      rw [again, Int.toNat_sub, layoutText shelved.layout shelved.fenced.page other] at found
      rw [← Option.some.inj found] at copied length text
      have whole := @printedWhole w.store _ short
      have uncut : (w.stored[m] ++ [newline]).take (cookieMaxBufSize - 1) = w.stored[m] ++ [newline] :=
        List.take_of_length_le (by simp only [List.length_append, List.length_singleton]; omega)
      refine ⟨?_, ?_, w.stored[m], List.getElem_mem other, ?_⟩
      · simpa [same, copied, length, nothing] using sized
      · simp [same, copied, before, whole, text, uncut, nothing]
      · simp [same, copied, whole, nothing]
  · have empty : w.stored = [] := List.length_eq_zero_iff.mp (by omega)
    constructor
    · intro honours
      obtain ⟨text, mem, _⟩ := honours.whole
      simp [empty] at mem
    · rintro ⟨n, inside, _⟩
      exact absurd (Nat.lt_of_le_of_lt (Nat.zero_le n) inside) filled

theorem sessionHonoursExactly (outside beside : Mem) (ops : List Op) (w : Shelf)
    (reached : Run shelve Written (Shelf.start outside beside) ops w) (calls : List Called)
    (session : Session w.store 0 calls) :
    Honours w.stored calls ↔ NextFits w calls :=
  sessionHonours (shelved reached) session

theorem oneWritten : ∃ w, Run shelve Written (Shelf.start (fun _ => 0) (fun _ => 0))
    [.write (line 97)] w ∧ w.stored = [[97, newline]] ∧ w.store.place = 0 ∧ w.store.writeInd ≠ 0 := by
  obtain ⟨w, run, state⟩ := checkedEnd shelve Written (Shelf.start (fun _ => 0) (fun _ => 0))
    [.write (line 97)] (fun w => (w.stored, w.store.place, decide (w.store.writeInd ≠ 0)))
    ([[97, newline]], 0, true) (by decide +kernel)
  rw [Prod.mk.injEq, Prod.mk.injEq] at state
  exact ⟨w, run, state.1, state.2.1, of_decide_eq_true state.2.2⟩

theorem pageSizesHonoured : ∃ w calls, Run shelve Written (Shelf.start (fun _ => 0) (fun _ => 0))
    [.write (line 97)] w ∧ Session w.store 0 calls ∧ Honours w.stored calls := by
  obtain ⟨w, run, stored, place, written⟩ := oneWritten
  obtain ⟨first, t, second, session⟩ := sessionRuns (shelved run).fenced written 4096 4096
  refine ⟨w, _, run, session, (sessionHonoursExactly _ _ _ w run _ session).mpr ?_⟩
  refine ⟨0, by simp [stored], ?_, ?_, ?_⟩
  · rw [place, offsetZero]
    rfl
  · simp [stored]
  · simp [stored, pageSize]

theorem smallSizesIgnored : ¬ ∀ outside beside ops w,
    Run shelve Written (Shelf.start outside beside) ops w →
    ∀ calls, (∀ call ∈ calls, 0 < call.len) → Session w.store 0 calls → Honours w.stored calls := by
  intro all
  obtain ⟨w, run, stored, place, written⟩ := oneWritten
  obtain ⟨first, t, second, session⟩ := sessionRuns (shelved run).fenced written 1 1
  have honours := all _ _ _ w run _ (by simp) session
  obtain ⟨n, inside, start, sized, short⟩ := (sessionHonours (shelved run) session).mp honours
  have size : w.stored[n].length + 1 ≤ 1 := sized ⟨w.store, 1, first⟩ rfl
  have positive := List.length_pos_iff.mpr
    ((shelved run).layout.clean _ (List.getElem_mem inside)).1
  omega

end OsLabs.FortuneStore.Fortune
