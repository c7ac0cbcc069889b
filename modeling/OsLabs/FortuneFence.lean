import OsLabs.FortuneRead

/-! Calls that fail or fit only in part. Whatever a write returns, its stores lie at or after
writeInd, and the byte before writeInd is a NUL; so a read stays below writeInd. -/
namespace OsLabs.FortuneStore
open CInteger CMemory Runs

def Fitting (s : Statics) (c : WriteCall) : Prop :=
  c.user ≠ [] ∧ (writeFortune s c).state.writeInd ≤ cookieMaxBufSize

instance (s : Statics) (c : WriteCall) : Decidable (Fitting s c) :=
  inferInstanceAs (Decidable (_ ∧ _))

def Unwrapped (s : Statics) (c : WriteCall) : Prop :=
  c.len ≤ spaceLeft s.writeInd → s.writeInd + c.len + 1 < 2^31

instance (s : Statics) (c : WriteCall) : Decidable (Unwrapped s c) := inferInstanceAs (Decidable (_ → _))

def acceptedStores (start : Int) (user : List Byte) : List Store :=
  copyTo start user ++ [⟨start + user.length - 1, newline⟩, ⟨start + user.length, 0⟩]

inductive Wrote (s : Statics) (c : WriteCall) : Prop where
  | refused (tooLong : spaceLeft s.writeInd < c.len) (same : writeFortune s c = ⟨-enospc, [], s⟩)
  | faulted (copied : Fin c.len) (same : writeFortune s c =
      ⟨-efault, copyTo s.writeInd (partialCopy c copied),
        {s with buffer := putAll s.buffer (copyTo s.writeInd (partialCopy c copied))}⟩)
  | accepted (room : c.len ≤ spaceLeft s.writeInd) (done : c.copy = .done)
      (same : writeFortune s c = ⟨c.len, acceptedStores s.writeInd c.user,
        {s with
          buffer := putAll s.buffer (acceptedStores s.writeInd c.user),
          writeInd := s.writeInd + c.len + 1}⟩)

theorem writeCases {s : Statics} {c : WriteCall} (low : 0 ≤ s.writeInd) (unwrapped : Unwrapped s c) :
    Wrote s c := by
  by_cases tooLong : spaceLeft s.writeInd < c.len
  · exact .refused tooLong (writeRefused tooLong)
  have room : c.len ≤ spaceLeft s.writeInd := Nat.le_of_not_lt tooLong
  cases copy : c.copy with
  | fault copied => exact .faulted copied (writeFaulted tooLong copy)
  | done =>
    have bound := unwrapped room
    have same : c.user.length = c.len := rfl
    have next : toInt (s.writeInd + c.len) = s.writeInd + c.len := toIntExact (by omega) (by omega)
    have last : toInt (s.writeInd + c.len - 1) = s.writeInd + c.len - 1 :=
      toIntExact (by omega) (by omega)
    have after : toInt (s.writeInd + c.len + 1) = s.writeInd + c.len + 1 :=
      toIntExact (by omega) (by omega)
    have ret : toLong c.len = c.len := toLongExact (by omega) (by omega)
    refine .accepted room copy ?_
    unfold writeFortune
    rw [if_neg tooLong, copy]
    simp only [next, last, after, ret, acceptedStores, same]

theorem withinUnwrapped {s : Statics} (within : Within s) (c : WriteCall) : Unwrapped s c := by
  intro room
  have page := pageSize
  have left := spaceLeftExact within.1 within.2
  have := within.1
  omega

theorem writeLocal {s t : Statics} (same : t.writeInd = s.writeInd) (c : WriteCall) :
    (writeFortune t c).ret = (writeFortune s c).ret ∧
    (writeFortune t c).stores = (writeFortune s c).stores ∧
    (writeFortune t c).state.writeInd = (writeFortune s c).state.writeInd := by
  unfold writeFortune
  rw [same]
  split
  · exact ⟨rfl, rfl, same⟩
  · split <;> exact ⟨rfl, rfl, rfl⟩

theorem writeState (s : Statics) (c : WriteCall) : (writeFortune s c).state =
    {s with
      buffer := putAll s.buffer (writeFortune s c).stores,
      writeInd := (writeFortune s c).state.writeInd} := by
  unfold writeFortune
  split
  · rfl
  · split <;> rfl

theorem writeKeepsCursor (s : Statics) (c : WriteCall) :
    (writeFortune s c).state.readInd = s.readInd := by rw [writeState]

theorem faultedFrame {s : Statics} {c : WriteCall} (copied : Nat) {j : Int} (below : j < s.writeInd) :
    putAll s.buffer (copyTo s.writeInd (partialCopy c copied)) j = s.buffer j := by
  refine putAllFrame _ _ _ ?_
  intro store mem
  have range := copyToIndex mem
  omega

theorem writeFrame {s : Statics} {c : WriteCall} (low : 0 ≤ s.writeInd) (unwrapped : Unwrapped s c)
    {j : Int} (below : j < s.writeInd - 1 ∨ c.user ≠ [] ∧ j < s.writeInd) :
    (writeFortune s c).state.buffer j = s.buffer j := by
  cases writeCases low unwrapped with
  | refused tooLong same => rw [same]
  | faulted copied same =>
    rw [same]
    exact faultedFrame copied (by omega)
  | accepted room done same =>
    rw [same]
    refine putAllFrame _ _ _ ?_
    intro store mem
    simp only [acceptedStores, List.mem_append, List.mem_cons, List.not_mem_nil, or_false] at mem
    have bound : j < s.writeInd - 1 ∨ 0 < c.user.length ∧ j < s.writeInd :=
      below.imp_right (And.imp_left List.length_pos_iff.mpr)
    rcases mem with copied | rfl | rfl
    · have range := copyToIndex copied
      omega
    · simp only
      omega
    · simp only
      omega

theorem writeGrows {s : Statics} {c : WriteCall} (low : 0 ≤ s.writeInd) (unwrapped : Unwrapped s c) :
    s.writeInd ≤ (writeFortune s c).state.writeInd := by
  cases writeCases low unwrapped with
  | refused tooLong same => simp [same]
  | faulted copied same => simp [same]
  | accepted room done same =>
    rw [same]
    simp only
    omega

theorem acceptedEnds (m : Mem) (start : Int) (user : List Byte) :
    putAll m (acceptedStores start user) (start + user.length) = 0 := by
  simp [acceptedStores, putAll, put]

theorem acceptedCovers {start j : Int} {user : List Byte} (low : start ≤ j)
    (high : j ≤ start + user.length) : ∃ s ∈ acceptedStores start user, s.index = j := by
  by_cases last : j = start + user.length
  · exact ⟨⟨start + user.length, 0⟩, by simp [acceptedStores], last.symm⟩
  · obtain ⟨s, mem, same⟩ := copyToCovers start user low (by omega)
    exact ⟨s, List.mem_append_left _ mem, same⟩

structure Ended (s : Statics) : Prop where
  low : 0 ≤ s.readInd
  order : s.readInd ≤ s.writeInd
  nul : s.writeInd = 0 ∨ s.buffer (s.writeInd - 1) = 0

structure Fenced (s : Statics) : Prop extends Ended s where
  page : s.writeInd ≤ cookieMaxBufSize

theorem initFenced (outside : Mem) : Fenced (initStatics outside) :=
  ⟨⟨Int.le_refl 0, Int.le_refl 0, .inl rfl⟩, (initWithin outside).2⟩

theorem endedLow {s : Statics} (ended : Ended s) : 0 ≤ s.writeInd :=
  Int.le_trans ended.low ended.order

theorem fencedWithin {s : Statics} (fenced : Fenced s) : Within s :=
  ⟨endedLow fenced.toEnded, fenced.page⟩

theorem endedWrite {s : Statics} {c : WriteCall} (ended : Ended s) (unwrapped : Unwrapped s c) :
    Ended (writeFortune s c).state := by
  have low := endedLow ended
  have order := ended.order
  cases writeCases low unwrapped with
  | refused tooLong same => simpa only [same] using ended
  | faulted copied same =>
    rw [same]
    refine ⟨ended.low, order, ?_⟩
    simp only [faultedFrame (s := s) (c := c) copied (Int.sub_one_lt_of_le (Int.le_refl _))]
    exact ended.nul
  | accepted room done same =>
    rw [same]
    refine ⟨ended.low, by simp only; omega, .inr ?_⟩
    have last : s.writeInd + c.len + 1 - 1 = s.writeInd + c.user.length := by
      rw [WriteCall.len]; omega
    simp only [last]
    exact acceptedEnds s.buffer s.writeInd c.user

theorem fencedWrite {s : Statics} {c : WriteCall} (fenced : Fenced s)
    (page : (writeFortune s c).state.writeInd ≤ cookieMaxBufSize) :
    Fenced (writeFortune s c).state :=
  ⟨endedWrite fenced.toEnded (withinUnwrapped (fencedWithin fenced) c), page⟩

def storedAfter (s : Statics) (c : WriteCall) (fortunes : List (List Byte)) : List (List Byte) :=
  if 0 ≤ (writeFortune s c).ret then fortunes ++ [sealText c.user] else fortunes

theorem storedLayout {s : Statics} {c : WriteCall} {fortunes : List (List Byte)}
    (layout : Layout s fortunes) (within : Within s) (filled : c.user ≠ []) (clean : 0 ∉ c.user) :
    Layout (writeFortune s c).state (storedAfter s c fortunes) := by
  unfold storedAfter
  have used := layout.used
  cases writeCases within.1 (withinUnwrapped within c) with
  | refused tooLong same => simpa [same, enospc] using layout
  | faulted copied same =>
    rw [same]
    simp only [efault, Int.reduceNeg, Int.reduceLE, if_false]
    exact ⟨holdsFrame layout.bytes (fun j _ high => faultedFrame copied (by omega)), layout.used,
      layout.clean⟩
  | accepted room done same =>
    have success : 0 ≤ (writeFortune s c).ret := by rw [same]; exact Int.natCast_nonneg _
    rw [if_pos success]
    exact writeLayout layout within (Nat.not_lt.mpr room) done filled clean

theorem storedGrows {s : Statics} {c : WriteCall} {stored : List (List Byte)} {n : Nat}
    (range : n ≤ stored.length) : n ≤ (storedAfter s c stored).length ∧
      offset (storedAfter s c stored) n = offset stored n := by
  unfold storedAfter
  split
  · exact ⟨by simpa using Nat.le_succ_of_le range, offsetAppend range _⟩
  · exact ⟨range, rfl⟩

def Statics.place (s : Statics) : Int := if s.writeInd ≤ s.readInd then 0 else s.readInd

theorem placeLow {s : Statics} (low : 0 ≤ s.readInd) : 0 ≤ s.place := by
  unfold Statics.place
  split
  · exact Int.le_refl 0
  · exact low

theorem placeBefore {s : Statics} (ended : Ended s) (written : s.writeInd ≠ 0) :
    s.place < s.writeInd := by
  have low := endedLow ended
  unfold Statics.place
  split <;> omega

theorem endedBelow {s : Statics} (ended : Ended s) (written : s.writeInd ≠ 0) {text : List Byte}
    (found : cstring s.buffer s.place (cookieMaxBufSize - s.place).toNat = some text) :
    s.place + text.length < s.writeInd := by
  have before := placeBefore ended written
  have zero : s.buffer (s.writeInd - 1) = 0 := ended.nul.resolve_left written
  obtain ⟨held, clean, short⟩ := cstringHolds found
  obtain ⟨other, again, bound⟩ := @cstringEnds s.buffer s.place (s.writeInd - 1)
    (s.writeInd - s.place).toNat (by omega) (by omega) zero
  obtain ⟨ends, free, _⟩ := cstringHolds again
  rw [holdsUnique held ends clean free]
  omega

theorem fencedText {s : Statics} (fenced : Fenced s) (written : s.writeInd ≠ 0) :
    ∃ text, cstring s.buffer s.place (cookieMaxBufSize - s.place).toNat = some text ∧
      s.place + text.length < s.writeInd := by
  have before := placeBefore fenced.toEnded written
  have page := fenced.page
  have zero : s.buffer (s.writeInd - 1) = 0 := fenced.nul.resolve_left written
  obtain ⟨text, found, bound⟩ := @cstringEnds s.buffer s.place (s.writeInd - 1)
    (cookieMaxBufSize - s.place).toNat (by omega) (by omega) zero
  exact ⟨text, found, by omega⟩

theorem fencedSame {m n : Mem} {i fence : Int} {room : Nat} {text : List Byte}
    (found : cstring m i room = some text) (below : i + text.length < fence)
    (same : ∀ j < fence, n j = m j) : cstring n i room = some text := by
  obtain ⟨held, clean, short⟩ := cstringHolds found
  refine cstringOfHolds (holdsFrame held ?_) clean short
  intro j low high
  simp only [List.length_append, List.length_singleton] at high
  exact same j (by omega)

def line (b : Byte) : WriteCall := ⟨[b, newline], (by decide : 2 < 2^64), .done⟩

namespace Fortune

def printed (s : State) (text : List Byte) : List Byte :=
  readMem (snprintf s.tmpBuffer cookieMaxBufSize (text ++ [newline])) 0 (text ++ [newline]).length

theorem printedSame (s t : State) {text : List Byte} (short : text.length < cookieMaxBufSize) :
    printed t text = printed s text := by
  apply snprintfPrints
  simpa using Nat.succ_le_of_lt short

theorem printedLength (s : State) (text : List Byte) : (printed s text).length = text.length + 1 := by
  rw [printed, readMemLength]
  exact List.length_append

theorem printedWhole {s : State} {text : List Byte} (short : text.length + 1 < cookieMaxBufSize) :
    printed s text = text ++ [newline] :=
  readHolds (snprintfHolds s.tmpBuffer (by simpa using short))

theorem printedPrefix (s : State) {text head : List Byte} (start : head <+: text)
    (short : head.length < cookieMaxBufSize) : head <+: printed s text := by
  have whole : head <+: text ++ [newline] := start.trans (List.prefix_append _ _)
  have cut : head <+: (text ++ [newline]).take (cookieMaxBufSize - 1) :=
    List.prefix_take_iff.mpr ⟨whole, Nat.le_sub_one_of_lt short⟩
  exact cut.trans (readPrefix (snprintfCut s.tmpBuffer cookieMaxBufSize (text ++ [newline]))
    (by rw [List.length_take]; exact Nat.min_le_right _ _))

theorem readFaulted {s : State} {c : ReadCall} {text : List Byte} {copied : Nat}
    (opens : ¬ (0 < c.fPos ∨ s.writeInd = 0)) (fault : c.copy = .fault copied)
    (found : cstring s.buffer s.place (cookieMaxBufSize - s.place).toNat = some text)
    (low : 0 ≤ s.place) :
    ∃ tmp, readFortune s c = some ⟨-efault, (printed s text).take copied, c.fPos,
      {s with readInd := s.place, tmpBuffer := tmp}⟩ := by
  have room := (cstringHolds found).2.2
  have exact : toInt (text ++ [newline]).length = (text ++ [newline]).length :=
    pageInt (Int.natCast_nonneg _) (by simp only [List.length_append, List.length_singleton]; omega)
  refine ⟨snprintf s.tmpBuffer cookieMaxBufSize (text ++ [newline]), ?_⟩
  unfold readFortune
  rw [if_neg opens]
  simp only [Statics.place] at found ⊢
  simp only [found, Option.map_some, fault, exact, Int.toNat_natCast, printed]

theorem readDelivered {s : State} {c : ReadCall} {text : List Byte}
    (opens : ¬ (0 < c.fPos ∨ s.writeInd = 0)) (done : c.copy = .done)
    (found : cstring s.buffer s.place (cookieMaxBufSize - s.place).toNat = some text)
    (low : 0 ≤ s.place) :
    ∃ tmp, readFortune s c = some ⟨text.length + 1, printed s text, c.fPos + (text.length + 1),
      {s with readInd := s.place + text.length + 1, tmpBuffer := tmp}⟩ := by
  have room := (cstringHolds found).2.2
  have length : ((text ++ [newline]).length : Int) = text.length + 1 := by simp
  have exact : toInt (text ++ [newline]).length = (text ++ [newline]).length :=
    pageInt (Int.natCast_nonneg _) (by omega)
  have moved : toInt (s.place + (text.length + 1)) = s.place + text.length + 1 := by
    rw [pageInt (by omega) (by omega)]
    omega
  refine ⟨snprintf s.tmpBuffer cookieMaxBufSize (text ++ [newline]), ?_⟩
  unfold readFortune
  rw [if_neg opens]
  rw [length] at exact
  simp only [Statics.place] at found moved ⊢
  simp only [found, Option.map_some, done, length, exact, moved, printed]
  simp

theorem readUnplaced {s : State} {c : ReadCall} (opens : ¬ (0 < c.fPos ∨ s.writeInd = 0))
    (missing : cstring s.buffer s.place (cookieMaxBufSize - s.place).toNat = none) :
    readFortune s c = none := by
  unfold readFortune
  rw [if_neg opens]
  simp only [Statics.place] at missing ⊢
  simp only [missing, Option.map_none]

inductive Served (s : State) (c : ReadCall) : ReadResult → Prop where
  | skipped : Served s c ⟨0, [], c.fPos, s⟩
  | faulted (text : List Byte) (copied : Nat) (tmp : Mem) (written : s.writeInd ≠ 0)
      (found : cstring s.buffer s.place (cookieMaxBufSize - s.place).toNat = some text) :
      Served s c ⟨-efault, (printed s text).take copied, c.fPos,
        {s with readInd := s.place, tmpBuffer := tmp}⟩
  | delivered (text : List Byte) (tmp : Mem) (written : s.writeInd ≠ 0)
      (found : cstring s.buffer s.place (cookieMaxBufSize - s.place).toNat = some text) :
      Served s c ⟨text.length + 1, printed s text, c.fPos + (text.length + 1),
        {s with readInd := s.place + text.length + 1, tmpBuffer := tmp}⟩

theorem readCases {s : State} {c : ReadCall} {r : ReadResult} (low : 0 ≤ s.readInd)
    (result : readFortune s c = some r) : Served s c r := by
  by_cases opens : 0 < c.fPos ∨ s.writeInd = 0
  · cases Option.some.inj ((readSkipped opens).symm.trans result)
    exact .skipped
  have written : s.writeInd ≠ 0 := fun zero => opens (.inr zero)
  have start := placeLow low
  cases found : cstring s.buffer s.place (cookieMaxBufSize - s.place).toNat with
  | none => cases (readUnplaced opens found).symm.trans result
  | some text =>
    cases copy : c.copy with
    | done =>
      obtain ⟨tmp, same⟩ := readDelivered opens copy found start
      cases Option.some.inj (same.symm.trans result)
      exact .delivered text tmp written found
    | fault copied =>
      obtain ⟨tmp, same⟩ := readFaulted opens copy found start
      cases Option.some.inj (same.symm.trans result)
      exact .faulted text copied tmp written found

def opStep (s : State) (op : Op) : Option State := (react s op).map Prod.snd

theorem endedRead {s : State} {c : ReadCall} {r : ReadResult} (ended : Ended s.toStatics)
    (result : readFortune s c = some r) : Ended r.state.toStatics := by
  have low := placeLow ended.low
  cases readCases ended.low result with
  | skipped => exact ended
  | faulted text copied tmp written found =>
    exact ⟨low, Int.le_of_lt (placeBefore ended written), ended.nul⟩
  | delivered text tmp written found =>
    have below := endedBelow ended written found
    exact ⟨by simp only; omega, by simp only; omega, ended.nul⟩

theorem readKeeps {s : State} {c : ReadCall} {r : ReadResult} (result : readFortune s c = some r) :
    r.state.buffer = s.buffer ∧ r.state.writeInd = s.writeInd := by
  unfold readFortune at result
  split at result
  · cases Option.some.inj result
    exact ⟨rfl, rfl⟩
  · obtain ⟨text, _, same⟩ := Option.map_eq_some_iff.mp result
    rw [← same]
    cases c.copy <;> exact ⟨rfl, rfl⟩

theorem fencedRead {s : State} {c : ReadCall} {r : ReadResult} (fenced : Fenced s.toStatics)
    (result : readFortune s c = some r) : Fenced r.state.toStatics :=
  ⟨endedRead fenced.toEnded result, (readKeeps result).2 ▸ fenced.page⟩

end Fortune
end OsLabs.FortuneStore
