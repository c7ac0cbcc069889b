import OsLabs.FortuneFence

/-! From a write of fortune.c to the reads that deliver it. The last byte of an accepted
write becomes a newline by design; nothing else of it changes. -/
namespace OsLabs.FortuneStore
open CInteger CMemory Runs

structure Keeps (start : Int) (text : List Byte) (s : Statics) : Prop where
  ended : Ended s
  low : 0 ≤ start
  bytes : Holds s.buffer start text
  after : start + text.length < s.writeInd
  before : start = 0 ∨ s.buffer (start - 1) = 0
  cursor : s.readInd ≤ start ∨ start + text.length ≤ s.readInd

theorem keepsPlace {start : Int} {text : List Byte} {s : Statics} (keeps : Keeps start text s) :
    s.place ≤ start ∨ start + text.length ≤ s.place := by
  have low := keeps.low
  have cursor := keeps.cursor
  unfold Statics.place
  split
  · exact .inl low
  · exact cursor

theorem keepsEnds {start : Int} {text other : List Byte} {s : Statics} (keeps : Keeps start text s)
    (found : cstring s.buffer s.place (cookieMaxBufSize - s.place).toNat = some other)
    (earlier : s.place < start) : s.place + other.length < start := by
  have zero : s.buffer (start - 1) = 0 := by
    have low := placeLow keeps.ended.low
    exact keeps.before.resolve_left (by omega)
  obtain ⟨held, clean, short⟩ := cstringHolds found
  obtain ⟨ends, again, bound⟩ := @cstringEnds s.buffer s.place (start - 1)
    (start - s.place).toNat (by omega) (by omega) zero
  obtain ⟨same, free, _⟩ := cstringHolds again
  rw [holdsUnique held same clean free]
  omega

theorem keepsBegins {start : Int} {text other : List Byte} {s : Statics} (keeps : Keeps start text s)
    (clean : 0 ∉ text)
    (found : cstring s.buffer s.place (cookieMaxBufSize - s.place).toNat = some other)
    (here : s.place = start) : text <+: other := by
  have held := (cstringHolds found).1
  rw [here] at held
  exact holdsPrefix keeps.bytes clean held

theorem keepsWrite {start : Int} {text : List Byte} {s : Statics} {c : WriteCall}
    (keeps : Keeps start text s) (unwrapped : Unwrapped s c) : Keeps start text (writeFortune s c).state := by
  have low := endedLow keeps.ended
  have after := keeps.after
  have grows := writeGrows low unwrapped
  have frame : ∀ j < s.writeInd - 1, (writeFortune s c).state.buffer j = s.buffer j :=
    fun j below => writeFrame low unwrapped (.inl below)
  refine ⟨endedWrite keeps.ended unwrapped, keeps.low, ?_, by omega, ?_, ?_⟩
  · exact holdsFrame keeps.bytes (fun j _ high => frame j (by omega))
  · rw [frame (start - 1) (by omega)]
    exact keeps.before
  · rw [writeKeepsCursor]
    exact keeps.cursor

theorem acceptedKeeps {s : Statics} {c : WriteCall} (ended : Ended s) (unwrapped : Unwrapped s c)
    (filled : c.user ≠ []) (accepted : (writeFortune s c).ret = c.len) :
    Keeps s.writeInd (sealText c.user) (writeFortune s c).state ∧
      (writeFortune s c).state.writeInd = s.writeInd + c.len + 1 := by
  have low := endedLow ended
  have order := ended.order
  have length : (sealText c.user).length = c.len := sealLength filled
  have frame := writeFrame low unwrapped (j := s.writeInd - 1) (.inr ⟨filled, by omega⟩)
  have after := endedWrite ended unwrapped
  cases writeCases low unwrapped with
  | refused tooLong same =>
    rw [same] at accepted
    simp only [enospc] at accepted
    omega
  | faulted copied same =>
    rw [same] at accepted
    simp only [efault] at accepted
    omega
  | accepted room done same =>
    rw [same] at after frame ⊢
    refine ⟨⟨after, low, ?_, by simp only; omega, ?_, .inl order⟩, rfl⟩
    · exact ((holdsAppend _ _ _ _).mp (sealedHolds s.buffer s.writeInd filled)).1
    · simp only at frame ⊢
      rw [frame]
      exact ended.nul

theorem sealPrefix {user text : List Byte} (filled : user ≠ []) (start : sealText user <+: text) :
    user <+: text ↔ user.getLast? = some newline := by
  have last := List.dropLast_concat_getLast filled
  have sealed : sealText user = user ↔ user.getLast? = some newline := by
    rw [List.getLast?_eq_getLast_of_ne_nil filled, Option.some.injEq]
    constructor
    · intro same
      have ends := List.append_inj_right (same.trans last.symm) rfl
      simpa using ends.symm
    · intro ends
      rw [sealText, ← ends]
      exact last
  rw [← sealed]
  constructor
  · intro whole
    exact ((List.prefix_of_prefix_length_le start whole (Nat.le_of_eq (sealLength filled))).eq_of_length
      (sealLength filled))
  · intro same
    exact same ▸ start

namespace Fortune

def NoOverflow (s : State) : Op → Prop
  | .write c => Unwrapped s.toStatics c
  | .read _ => True

instance (s : State) : (op : Op) → Decidable (NoOverflow s op)
  | .write c => inferInstanceAs (Decidable (Unwrapped s.toStatics c))
  | .read _ => isTrue trivial

def Delivers (start : Int) (count : Nat) (s : State) (c : ReadCall) (r : ReadResult) : Prop :=
  readFortune s c = some r ∧ 0 < r.ret ∧
    ∃ text, cstring s.buffer s.place (cookieMaxBufSize - s.place).toNat = some text ∧
      s.place < start + count ∧ start < s.place + text.length

theorem keepsRead {start : Int} {text : List Byte} {s : State} {c : ReadCall} {r : ReadResult}
    (keeps : Keeps start text s.toStatics) (clean : 0 ∉ text) (result : readFortune s c = some r) :
    Keeps start text r.state.toStatics := by
  have ended := endedRead keeps.ended result
  have place := keepsPlace keeps
  cases readCases keeps.ended.low result with
  | skipped => exact keeps
  | faulted other copied tmp written found =>
    exact ⟨ended, keeps.low, keeps.bytes, keeps.after, keeps.before, place⟩
  | delivered other tmp written found =>
    refine ⟨ended, keeps.low, keeps.bytes, keeps.after, keeps.before, ?_⟩
    rcases Int.lt_trichotomy s.place start with earlier | here | later
    · have ends := keepsEnds keeps found earlier
      exact .inl (by simp only; omega)
    · have begins := (keepsBegins keeps clean found here).length_le
      exact .inr (by simp only; omega)
    · exact .inr (by simp only; omega)

theorem keepsStep {start : Int} {text : List Byte} {s u : State} {op : Op} (clean : 0 ∉ text)
    (keeps : Keeps start text s.toStatics) (free : NoOverflow s op) (taken : opStep s op = some u) :
    Keeps start text u.toStatics := by
  obtain ⟨⟨answer, t⟩, answered, same⟩ := Option.map_eq_some_iff.mp taken
  cases same
  cases op with
  | write c =>
    cases Option.some.inj answered
    exact keepsWrite keeps free
  | read c =>
    obtain ⟨r, result, same⟩ := Option.map_eq_some_iff.mp answered
    cases same
    exact keepsRead keeps clean result

theorem reachedEnded {outside beside : Mem} {ops : List Op} {s : State}
    (run : Run opStep NoOverflow (initFortune outside beside) ops s) : Ended s.toStatics := by
  refine runInvariant (fun s => Ended s.toStatics) ?_ run (initFenced outside).toEnded
  intro s op u ended free taken
  obtain ⟨⟨answer, t⟩, answered, same⟩ := Option.map_eq_some_iff.mp taken
  cases same
  cases op with
  | write c =>
    cases Option.some.inj answered
    exact endedWrite ended free
  | read c =>
    obtain ⟨r, result, same⟩ := Option.map_eq_some_iff.mp answered
    cases same
    exact endedRead ended result

theorem sealedDelivered (outside beside : Mem) (ops : List Op) (s : State)
    (reached : Run opStep NoOverflow (initFortune outside beside) ops s)
    (c : WriteCall) (unwrapped : Unwrapped s.toStatics c) (filled : 0 < c.len) (clean : 0 ∉ c.user)
    (accepted : (writeFortune s c).ret = c.len)
    (room : (writeFortune s c).state.writeInd < cookieMaxBufSize)
    (later : List Op) (u : State)
    (run : Run opStep NoOverflow {s with toStatics := (writeFortune s c).state} later u)
    (read : ReadCall) (r : ReadResult) (delivers : Delivers s.writeInd c.len u read r) :
    c.user.dropLast ++ [newline] <+: r.delivered ∧
      (c.user <+: r.delivered ↔ c.user.getLast? = some newline) := by
  have nonempty : c.user ≠ [] := List.length_pos_iff.mp filled
  have length : (sealText c.user).length = c.len := sealLength nonempty
  have free := (sealClean clean).2
  have ended := reachedEnded reached
  obtain ⟨stored, used⟩ := acceptedKeeps ended unwrapped nonempty accepted
  have keeps : Keeps s.writeInd (sealText c.user) u.toStatics :=
    runInvariant (fun t => Keeps s.writeInd (sealText c.user) t.toStatics)
      (fun _ _ _ kept unwrapped taken => keepsStep free kept unwrapped taken) run stored
  obtain ⟨result, positive, text, found, first, last⟩ := delivers
  have here : u.place = s.writeInd := by
    rcases keepsPlace keeps with before | beyond
    · by_contra other
      have ends := keepsEnds keeps found (by omega)
      omega
    · omega
  have short : (sealText c.user).length < cookieMaxBufSize := by
    have low := endedLow ended
    have moved : (writeFortune s c).state.writeInd = s.writeInd + c.len + 1 := used
    omega
  have start : sealText c.user <+: r.delivered := by
    have begins := keepsBegins keeps free found here
    cases readCases keeps.ended.low result with
    | skipped => exact absurd positive (Int.lt_irrefl 0)
    | faulted other copied tmp written again => simp [efault] at positive
    | delivered other tmp written again =>
      cases Option.some.inj (again.symm.trans found)
      exact printedPrefix u begins short
  exact ⟨start, sealPrefix nonempty start⟩

def firstState : State := initFortune (fun _ => 0) (fun _ => 0)
def wholeRead : ReadCall := ⟨4096, 0, .done⟩

theorem firstDelivers {c : WriteCall} {text : List Byte}
    (found : cstring (writeFortune firstState c).state.buffer (writeFortune firstState c).state.place
      (cookieMaxBufSize - (writeFortune firstState c).state.place).toNat = some text)
    (answers : (readFortune {firstState with toStatics := (writeFortune firstState c).state}
      wholeRead).map (fun r => (r.ret, r.delivered)) = some ((text.length : Int) + 1, text ++ [newline]))
    (place : (writeFortune firstState c).state.place = 0) (filled : 0 < c.len) (long : 0 < text.length) :
    ∃ r, Delivers firstState.writeInd c.len
      {firstState with toStatics := (writeFortune firstState c).state} wholeRead r ∧
      r.delivered = text ++ [newline] := by
  obtain ⟨r, result, same⟩ := Option.map_eq_some_iff.mp answers
  rw [Prod.mk.injEq] at same
  have zero : firstState.writeInd = 0 := rfl
  have start : Statics.place (writeFortune firstState c).state = 0 := place
  exact ⟨r, ⟨result, by omega, text, found, by simp only [start]; omega, by simp only [start]; omega⟩,
    same.2⟩

def writeBare : WriteCall := ⟨[97], by decide, .done⟩

def earlier : List Op :=
  [.write (line 98), .read wholeRead, .write ⟨[120, 121], by decide, .fault 1⟩]

def later : List Op := [.write (line 99), .read ⟨4096, 3, .done⟩]

theorem lineDelivered : ∃ s u r, Run opStep NoOverflow (initFortune (fun _ => 0) (fun _ => 0)) earlier s ∧
    Run opStep NoOverflow {s with toStatics := (writeFortune s (line 97)).state} later u ∧
    Delivers s.writeInd (line 97).len u wholeRead r ∧ r.delivered = [97, newline, newline] ∧
    (line 97).user <+: r.delivered := by
  obtain ⟨u, run, seen⟩ := checkedEnd opStep NoOverflow (initFortune (fun _ => 0) (fun _ => 0))
    (earlier ++ [.write (line 97)] ++ later)
    (fun u => (u.place, cstring u.buffer u.place (cookieMaxBufSize - u.place).toNat,
      (readFortune u wholeRead).map fun r => (r.ret, r.delivered)))
    (3, some [97, newline], some (3, [97, newline, newline])) (by decide +kernel)
  simp only [Prod.mk.injEq] at seen
  obtain ⟨place, text, answers⟩ := seen
  obtain ⟨r, result, same⟩ := Option.map_eq_some_iff.mp answers
  rw [Prod.mk.injEq] at same
  obtain ⟨w, front, behind⟩ := runSplit run
  obtain ⟨s, before, written⟩ := runSplit front
  have found : (exec opStep (initFortune (fun _ => 0) (fun _ => 0)) earlier).map (fun s =>
      (s.writeInd, (writeFortune s (line 97)).ret, (writeFortune s (line 97)).state.writeInd)) =
      some (3, 2, 6) := by decide +kernel
  rw [runExec before, Option.map_some, Option.some.injEq] at found
  simp only [Prod.mk.injEq] at found
  obtain ⟨start, accepted, used⟩ := found
  cases written with
  | cons unwrapped taken tail =>
    cases tail
    cases Option.some.inj taken
    have delivers : Delivers s.writeInd (line 97).len u wholeRead r :=
      ⟨result, by omega, _, text, by rw [place, start]; decide, by rw [place, start]; decide⟩
    have round := sealedDelivered (fun _ => 0) (fun _ => 0) earlier s before (line 97) unwrapped (by decide)
      (by decide) (accepted.trans (by decide)) (by rw [used]; decide +kernel) later u behind wholeRead r delivers
    exact ⟨s, u, r, before, behind, delivers, same.2, round.2.mpr rfl⟩

theorem bareLost : ¬ ∀ (outside beside : Mem) (ops : List Op) (s : State),
    Run opStep NoOverflow (initFortune outside beside) ops s → ∀ c : WriteCall,
    Unwrapped s.toStatics c → 0 < c.len → 0 ∉ c.user → (writeFortune s c).ret = c.len →
    (writeFortune s c).state.writeInd < cookieMaxBufSize → ∀ (later : List Op) (u : State),
    Run opStep NoOverflow {s with toStatics := (writeFortune s c).state} later u →
    ∀ (read : ReadCall) (r : ReadResult), Delivers s.writeInd c.len u read r →
      c.user <+: r.delivered := by
  intro all
  obtain ⟨r, delivers, same⟩ := @firstDelivers writeBare [newline] (by decide +kernel)
    (by decide +kernel) (by decide +kernel) (by decide) (by decide)
  have kept := all (fun _ => 0) (fun _ => 0) [] firstState (.nil _) writeBare
    (withinUnwrapped (initWithin _) _) (by decide) (by decide) (by decide +kernel) (by decide +kernel)
    [] _ (.nil _) wholeRead r delivers
  rw [same] at kept
  exact absurd kept (by decide)

end Fortune
end OsLabs.FortuneStore
