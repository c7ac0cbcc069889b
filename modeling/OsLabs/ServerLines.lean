import OsLabs.ServerTable

/-! What the select server prints for one client, in two runs beside each other. There is
one buf for all clients and no recv clears it, so a line may show what another client
left there. -/
namespace OsLabs.SelectServer
open CInteger CMemory Runs

/- What each recv gave that led to a line, under the number of its client; without bytes
it was the error -1. -/
structure Recorded where
  sys : Sys
  pieces : List (Slot × Option (List Byte))

def Recorded.start (stack : Buf) : Recorded := ⟨boot stack, []⟩

def piece (a : Act) (t : Sys) : List (Slot × Option (List Byte)) :=
  match a, t.pc, t.calls.getLast? with
  | .recv _, .send _ i, some (.recv _ got) => [(i, got)]
  | _, _, _ => []

def recordStep (host : Host) (w : Recorded) (a : Act) : Option Recorded :=
  (step host w.sys a).map (fun t => ⟨t, w.pieces ++ piece a t⟩)

def piecesOf (i : Slot) (pieces : List (Slot × Option (List Byte))) : List (Option (List Byte)) :=
  (pieces.filter (fun p => decide (p.1 = i))).map Prod.snd

def Line.about (i : Slot) : Line → Bool
  | .result j _ | .notNumber j _ => decide (j = i)
  | .selectFailed | .newConnection | .acceptFailed | .clientNumber _ | .noRoom | .disconnected _
  | .sendFailed => false

def linesOf (i : Slot) (out : List Line) : List Line := out.filter (Line.about i)

def signed (text : List Byte) : Int × List Byte :=
  match text.dropWhile isSpace with
  | 45 :: rest => (-1, rest)
  | 43 :: rest => (1, rest)
  | rest => (1, rest)

def Fixed (bytes : List Byte) : Prop :=
  0 ∈ bytes ∨ atoi bytes ≠ 0 ∧ (signed bytes).2.dropWhile isDigit ≠ []

instance (bytes : List Byte) : Decidable (Fixed bytes) := inferInstanceAs (Decidable (_ ∨ _ ∧ _))

def Fixes (host : Host) (i : Slot) (w : Recorded) (a : Act) : Prop :=
  ∀ t ∈ step host w.sys a, ∀ got ∈ piecesOf i (piece a t), ∃ bytes ∈ got, Fixed bytes

theorem bufBytes (buf : Buf) {bytes : List Byte} (short : bytes.length ≤ maxLenBuf) :
    ∃ tail, List.ofFn (received buf bytes) = bytes ++ tail := by
  refine ⟨(List.ofFn buf).drop bytes.length, List.ext_getElem ?_ ?_⟩
  · simp only [List.length_ofFn, List.length_append, List.length_drop]
    omega
  · intro k here there
    by_cases inside : k < bytes.length
    · simp [received, List.getElem_append_left, inside]
    · simp [received, List.getElem_append_right, Nat.le_of_not_lt inside]

theorem signedAppend {bytes : List Byte} (more : (signed bytes).2 ≠ []) (tail : List Byte) :
    signed (bytes ++ tail) = ((signed bytes).1, (signed bytes).2 ++ tail) := by
  have skipped : bytes.dropWhile isSpace ≠ [] := by
    intro empty
    simp [signed, empty] at more
  have spaces : (bytes ++ tail).dropWhile isSpace = bytes.dropWhile isSpace ++ tail := by
    rw [List.dropWhile_append, if_neg (by simpa using skipped)]
  unfold signed
  rw [spaces]
  cases left : bytes.dropWhile isSpace with
  | nil => exact absurd left skipped
  | cons b rest =>
    simp only [List.cons_append]
    split
    · rename_i same
      cases same
      rfl
    · rename_i same
      cases same
      rfl
    · rename_i minus plus
      split
      · rename_i same
        cases same
        exact absurd rfl (minus _)
      · rename_i same
        cases same
        exact absurd rfl (plus _)
      · rfl

theorem atoiAppend {bytes : List Byte} (ended : (signed bytes).2.dropWhile isDigit ≠ [])
    (tail : List Byte) : atoi (bytes ++ tail) = atoi bytes := by
  have more : (signed bytes).2 ≠ [] := by
    intro empty
    simp [empty] at ended
  have digits : ((signed bytes).2 ++ tail).takeWhile isDigit = (signed bytes).2.takeWhile isDigit := by
    rw [List.takeWhile_append, if_neg]
    intro whole
    have split := congrArg List.length (@List.takeWhile_append_dropWhile _ isDigit (signed bytes).2)
    rw [List.length_append, whole] at split
    exact ended (List.length_eq_zero_iff.mp (by omega))
  have parts : ∀ text, atoi text = toInt (max (-2^63) (min (2^63 - 1)
      ((signed text).1 * decimal ((signed text).2.takeWhile isDigit)))) := fun _ => rfl
  rw [parts, parts, signedAppend more, digits]

theorem fixedReport (i : Slot) (left right : Buf) {bytes : List Byte}
    (short : bytes.length ≤ maxLenBuf) (fixed : Fixed bytes) :
    report i (received left bytes) = report i (received right bytes) := by
  obtain ⟨behind, one⟩ := bufBytes left short
  obtain ⟨after, two⟩ := bufBytes right short
  by_cases ends : 0 ∈ bytes
  · have text : ∀ tail, (bytes ++ tail).takeWhile (fun b => b ≠ 0) = bytes.takeWhile (fun b => b ≠ 0) := by
      intro tail
      rw [List.takeWhile_append, if_neg]
      intro whole
      have same := (List.takeWhile_prefix _).eq_of_length whole
      have all := @List.all_takeWhile _ (fun b : Byte => b ≠ 0) bytes
      rw [same] at all
      simpa using List.all_eq_true.mp all 0 ends
    simp only [report, bufText, one, two, text]
  · obtain ⟨number, ended⟩ := fixed.resolve_left ends
    have text : ∀ tail : List Byte, (bytes ++ tail).takeWhile (fun b => b ≠ 0) =
        bytes ++ tail.takeWhile (fun b => b ≠ 0) := by
      intro tail
      refine List.takeWhile_append_of_pos (fun b mem => ?_)
      have other : b ≠ 0 := fun zero => ends (zero ▸ mem)
      simpa using other
    simp only [report, bufText, one, two, text, atoiAppend ended, if_pos number]

inductive Prints (s t : Sys) (a : Act) : Prop where
  | silent (quiet : piece a t = []) (same : ∀ i, linesOf i t.out = linesOf i s.out)
  | failed (i : Slot) (one : piece a t = [(i, none)]) (prints : t.out = s.out ++ [report i s.buf])
  | heard (i : Slot) (bytes : List Byte) (one : piece a t = [(i, some bytes)])
      (short : bytes.length ≤ maxLenBuf) (prints : t.out = s.out ++ [report i (received s.buf bytes)])

theorem recvPrints {host : Host} {s t : Sys} {count : Nat}
    (taken : serverStep host s (.recv count) = some t) : Prints s t (.recv count) := by
  obtain ⟨set, slot, c, pc, due, live, moved⟩ := recvTaken taken
  simp only [recvStep] at moved
  split at moved
  · cases moved
    exact .failed slot (by simp [piece, message]) rfl
  · split at moved
    · split at moved
      · rename_i counted
        cases moved
        refine .heard slot _ (by simp [piece, message]) ?_ rfl
        rw [List.length_take]
        omega
      · cases moved
    · split at moved
      · cases moved
        exact .silent rfl (fun i => by simp [linesOf, disconnect, Line.about])
      · cases moved

theorem insertLines (s : Sys) (newsock : Fd) (i : Slot) :
    linesOf i (insert s newsock).out = linesOf i s.out := by
  unfold insert
  split <;> simp [linesOf, Line.about]

theorem stepPrints {host : Host} {s t : Sys} {a : Act} (taken : step host s a = some t) :
    Prints s t a := by
  unfold step at taken
  split at taken
  · cases clientMoved taken <;> exact .silent (by simp [piece]) (fun i => rfl)
  · cases serverMoved taken with
    | recvFails | recvs | disconnects => exact recvPrints taken
    | @accept set newsock c rest =>
      refine .silent (by simp [piece]) (fun i => ?_)
      rw [insertLines]
      simp [linesOf, Sys.opened, Line.about]
    | select | next | send | sigpipe => exact .silent (by simp [piece]) (fun i => rfl)
    | selectFails | acceptFails | sendFails =>
      exact .silent (by simp [piece]) (fun i => by simp [linesOf, Line.about])

theorem reportAbout (i j : Slot) (buf : Buf) : (report j buf).about i = decide (j = i) := by
  unfold report
  simp only
  split <;> rfl

def lineFor (i : Slot) (got : Option (List Byte)) : Line :=
  report i (received (fun _ => 0) (got.getD []))

def AsReceived (i : Slot) (w : Recorded) : Prop :=
  linesOf i w.sys.out = (piecesOf i w.pieces).map (lineFor i)

theorem recordAsReceived {host : Host} {i : Slot} {w u : Recorded} {a : Act}
    (before : AsReceived i w) (fixes : Fixes host i w a) (taken : recordStep host w a = some u) :
    AsReceived i u := by
  obtain ⟨t, moved, same⟩ := Option.map_eq_some_iff.mp taken
  have fixed := fixes t moved
  unfold AsReceived at before ⊢
  rw [← same]
  cases stepPrints moved with
  | silent quiet kept => rw [quiet, kept i, List.append_nil, before]
  | failed j one prints =>
    by_cases mine : j = i
    · obtain ⟨bytes, got, _⟩ := fixed none (by simp [piecesOf, one, mine])
      cases got
    · rw [one, prints]
      simpa [linesOf, piecesOf, reportAbout, mine] using before
  | heard j bytes one short prints =>
    by_cases mine : j = i
    · obtain ⟨_, got, whole⟩ := fixed (some bytes) (by simp [piecesOf, one, mine])
      cases got
      subst mine
      rw [one, prints]
      simp only [linesOf, piecesOf, List.filter_append, List.map_append, List.map_map] at before ⊢
      rw [before]
      simp [reportAbout, lineFor, fixedReport j w.sys.buf (fun _ => 0) short whole]
    · rw [one, prints]
      simpa [linesOf, piecesOf, reportAbout, mine] using before

def Alike (c : Conn) : Act → Act → Prop
  | .sends d left, .sends e right => d = e ∧ (d = c → left = right)
  | left, right => left = right

theorem linesFixed (one two : Host) (i : Slot) (left right : Buf) {before after : List Act}
    {first second : Recorded}
    (run : Run (recordStep one) (Fixes one i) (Recorded.start left) before first)
    (other : Run (recordStep two) (Fixes two i) (Recorded.start right) after second)
    (same : piecesOf i first.pieces = piecesOf i second.pieces) :
    linesOf i first.sys.out = linesOf i second.sys.out := by
  have said := runInvariant (AsReceived i) (fun w a u before fixes taken =>
    recordAsReceived before fixes taken) run rfl
  have heard := runInvariant (AsReceived i) (fun w a u before fixes taken =>
    recordAsReceived before fixes taken) other rfl
  rw [said, heard, same]

def firstSlot : Slot := ⟨0, by decide⟩

def overheard (bytes text : List Byte) : List Act :=
  arrival 4 ++ arrival 5 ++
  [.sends 1 bytes, .select, .next, .recv bytes.length, .send] ++ List.replicate (maxCountSock - 1) .next ++
  [.sends 0 text, .select, .recv text.length, .send]

instance (host : Host) (i : Slot) (w : Recorded) (a : Act) : Decidable (Fixes host i w a) :=
  decidable_of_iff (∀ t ∈ (step host w.sys a).toList, ∀ got ∈ piecesOf i (piece a t),
      ∃ bytes ∈ got.toList, Fixed bytes) (by simp [Fixes])

theorem endedFixed : ∃ first second,
    Run (recordStep someHost) (Fixes someHost firstSlot) (Recorded.start fun _ => 0)
      (overheard [120, 55, 0] [53, 0]) first ∧
    Run (recordStep someHost) (Fixes someHost firstSlot) (Recorded.start fun _ => 0)
      (overheard [121, 56, 0] [53, 0]) second ∧
    linesOf firstSlot first.sys.out = linesOf firstSlot second.sys.out := by
  obtain ⟨first, run, one⟩ := checkedEnd (recordStep someHost) (Fixes someHost firstSlot)
    (Recorded.start fun _ => 0) (overheard [120, 55, 0] [53, 0])
    (fun w => piecesOf firstSlot w.pieces) [some [53, 0]] (by decide +kernel)
  obtain ⟨second, other, two⟩ := checkedEnd (recordStep someHost) (Fixes someHost firstSlot)
    (Recorded.start fun _ => 0) (overheard [121, 56, 0] [53, 0])
    (fun w => piecesOf firstSlot w.pieces) [some [53, 0]] (by decide +kernel)
  exact ⟨first, second, run, other, linesFixed _ _ _ _ _ run other (one.trans two.symm)⟩

theorem otherOverheard : ¬ ∀ host stack (c : Conn) (i : Slot) before after first second,
    Run (recordStep host) (fun _ _ => True) (Recorded.start stack) before first →
    Run (recordStep host) (fun _ _ => True) (Recorded.start stack) after second →
    first.sys.fds (first.sys.arrSock i) = some c → List.Forall₂ (Alike c) before after →
    piecesOf i first.pieces = piecesOf i second.pieces →
    linesOf i first.sys.out = linesOf i second.sys.out := by
  intro always
  obtain ⟨first, run, one⟩ := checkedEnd (recordStep someHost) (fun _ _ => True)
    (Recorded.start fun _ => 0) (overheard [120, 55, 0] [53])
    (fun w => (w.sys.fds (w.sys.arrSock firstSlot), piecesOf firstSlot w.pieces, linesOf firstSlot w.sys.out))
    (some 0, [some [53]], [.result firstSlot 3249]) (by decide +kernel)
  obtain ⟨second, other, two⟩ := checkedEnd (recordStep someHost) (fun _ _ => True)
    (Recorded.start fun _ => 0) (overheard [120, 56, 0] [53])
    (fun w => (w.sys.fds (w.sys.arrSock firstSlot), piecesOf firstSlot w.pieces, linesOf firstSlot w.sys.out))
    (some 0, [some [53]], [.result firstSlot 3364]) (by decide +kernel)
  simp only [Prod.mk.injEq] at one two
  have alike : List.Forall₂ (Alike 0) (overheard [120, 55, 0] [53]) (overheard [120, 56, 0] [53]) := by
    simp [overheard, arrival, Alike, maxCountSock, List.replicate]
  have same := always _ _ 0 firstSlot _ _ _ _ run other one.1 alike (one.2.1.trans two.2.1.symm)
  rw [one.2.2, two.2.2] at same
  exact absurd same (by decide)

end OsLabs.SelectServer
