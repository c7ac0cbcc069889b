import OsLabs.ServerWords

/-! The select server and its clients one request at a time. Where recv takes whole words at the
server and whole answers at the clients, no client is ever ahead of its answers, and none waits when
the server has nothing left to do. -/
namespace OsLabs.ClientSession
open SelectServer CMemory Runs Delimited

def WholeBoth (s : Session) : Event → Prop
  | .hears c count => count = (s.client c).answer.length
  | e => Whole s e

instance (s : Session) : (e : Event) → Decidable (WholeBoth s e)
  | .hears c count => inferInstanceAs (Decidable (count = (s.client c).answer.length))
  | .connects => inferInstanceAs (Decidable (Whole s .connects))
  | .types c word => inferInstanceAs (Decidable (Whole s (.types c word)))
  | .serves a => inferInstanceAs (Decidable (Whole s (.serves a)))

theorem wholeWords {s : Session} {e : Event} (both : WholeBoth s e) : Whole s e := by
  cases e with
  | hears c count => trivial
  | connects | types _ _ | serves _ => exact both

def Answering (s : Sys) (c : Conn) : Prop := ∃ set i, s.pc = .send set i ∧ s.fds (s.arrSock i) = some c

inductive Phase (host : Host) (s : Session) (c : Conn) : Prop where
  | idle (free : (s.client c).waiting = false) (inbox : (s.sys.peer c).inbox = [])
      (answer : (s.client c).answer = []) (apart : ¬ Answering s.sys c)
  | asked {word} (waits : (s.client c).waiting = true) (inbox : (s.sys.peer c).inbox = word ++ [0])
      (clean : 0 ∉ word) (answer : (s.client c).answer = []) (apart : ¬ Answering s.sys c)
  | taken (waits : (s.client c).waiting = true) (inbox : (s.sys.peer c).inbox = [])
      (answer : (s.client c).answer = []) (here : Answering s.sys c ∨ Stopped s.sys)
  | answered (waits : (s.client c).waiting = true) (inbox : (s.sys.peer c).inbox = [])
      (answer : (s.client c).answer = answerBytes host) (apart : ¬ Answering s.sys c)

structure Lockstep (host : Host) (s : Session) : Prop where
  phase : ∀ c, Phase host s c
  fresh : ∀ c, s.sys.next ≤ c → (s.client c).waiting = false ∧ (s.client c).answer = []

theorem openingLockstep (host : Host) (stack : Buf) : Lockstep host (opening stack) := by
  refine ⟨fun c => .idle rfl rfl rfl ?_, fun _ _ => ⟨rfl, rfl⟩⟩
  rintro ⟨set, i, pc, -⟩
  cases pc

theorem answeringPc {s : Sys} {c : Conn} {pc : Pc} (here : s.pc = pc) (other : ∀ set i, pc ≠ .send set i) :
    ¬ Answering s c := by
  rintro ⟨set, i, sends, -⟩
  exact other set i (here.symm.trans sends)

theorem phaseSame {host : Host} {s t : Session} {c : Conn} (phase : Phase host s c)
    (client : t.client c = s.client c) (inbox : (t.sys.peer c).inbox = (s.sys.peer c).inbox)
    (apart : Answering t.sys c → Answering s.sys c)
    (here : Answering s.sys c ∨ Stopped s.sys → Answering t.sys c ∨ Stopped t.sys) : Phase host t c := by
  cases phase with
  | idle free empty answer not =>
    exact .idle (client ▸ free) (inbox.trans empty) (client ▸ answer) (not ∘ apart)
  | asked waits holds clean answer not =>
    exact .asked (client ▸ waits) (inbox.trans holds) clean (client ▸ answer) (not ∘ apart)
  | taken waits empty answer busy =>
    exact .taken (client ▸ waits) (inbox.trans empty) (client ▸ answer) (here busy)
  | answered waits empty answer not =>
    exact .answered (client ▸ waits) (inbox.trans empty) (client ▸ answer) (not ∘ apart)

theorem connectLockstep {host : Host} {s : Session} {t : Sys} (served : Served host s.sys)
    (lock : Lockstep host s) (connected : Connected s.sys t) : Lockstep host {s with sys := t} := by
  obtain ⟨pc, arrSock, fds, -, next, peer⟩ := connected
  have answering : ∀ c, Answering t c ↔ Answering s.sys c := by
    intro c
    rw [Answering, Answering, pc, arrSock, fds]
  have stopped : Stopped s.sys → Stopped t := by
    unfold Stopped
    rw [pc]
    exact id
  refine ⟨fun c => ?_, fun c above => ?_⟩
  · by_cases new : c = s.sys.next
    · obtain ⟨free, answer⟩ := lock.fresh c (Nat.le_of_eq new.symm)
      refine .idle free ?_ answer ?_
      · dsimp only
        rw [peer, new, Function.update_self]
      · rw [answering]
        rintro ⟨set, i, -, live⟩
        exact absurd (served.sane.conns.known _ c live) (Nat.not_lt.mpr (Nat.le_of_eq new.symm))
    · refine phaseSame (lock.phase c) rfl ?_ (answering c).mp (Or.imp (answering c).mpr stopped)
      dsimp only
      rw [peer, Function.update_of_ne new]
  · dsimp only at above
    rw [next] at above
    exact lock.fresh c (Nat.le_of_succ_le above)

theorem typesLockstep {host : Host} {s : Session} {t : Sys} {c : Conn} {word : List Byte}
    (lock : Lockstep host s) (typed : Typed word) (free : (s.client c).waiting = false)
    (sent : Sent s.sys t c (word ++ [0])) : Lockstep host ({s with sys := t}.setClient c
      {s.client c with sent := (s.client c).sent ++ [word], waiting := true}) := by
  obtain ⟨known, pc, arrSock, fds, -, next, peer⟩ := sent
  have answering : ∀ d, Answering t d ↔ Answering s.sys d := by
    intro d
    rw [Answering, Answering, pc, arrSock, fds]
  have stopped : Stopped s.sys → Stopped t := by
    unfold Stopped
    rw [pc]
    exact id
  refine ⟨fun d => ?_, fun d above => ?_⟩
  · by_cases same : d = c
    · subst same
      cases lock.phase d with
      | idle _ inbox answer apart =>
        refine .asked ?_ ?_ (typedClean typed) ?_ (mt (answering d).mp apart)
        · simp only [Session.setClient, Function.update_self]
        · simp only [Session.setClient, peer, Function.update_self, inbox, List.nil_append]
        · simp only [Session.setClient, Function.update_self, answer]
      | asked waits | taken waits | answered waits =>
        rw [free] at waits
        cases waits
    · refine phaseSame (lock.phase d) ?_ ?_ (answering d).mp (Or.imp (answering d).mpr stopped)
      · exact Function.update_of_ne same ..
      · simp only [Session.setClient, peer, Function.update_of_ne same]
  · simp only [Session.setClient, next] at above ⊢
    rw [Function.update_of_ne (Nat.ne_of_gt (Nat.lt_of_lt_of_le known above))]
    exact lock.fresh d above

theorem hearsLockstep {host : Host} {s : Session} {c : Conn} {count : Nat} (lock : Lockstep host s)
    (waits : (s.client c).waiting = true) (positive : 0 < count) (whole : count = (s.client c).answer.length) :
    Lockstep host (s.setClient c
      {s.client c with waiting := false, answer := (s.client c).answer.drop count}) := by
  have unread : (s.client c).answer ≠ [] := List.length_pos_iff.mp (whole ▸ positive)
  refine ⟨fun d => ?_, fun d above => ?_⟩
  · by_cases same : d = c
    · subst same
      cases lock.phase d with
      | idle free =>
        rw [free] at waits
        cases waits
      | asked _ _ _ answer | taken _ _ answer => exact absurd answer unread
      | answered _ inbox answer apart =>
        refine .idle ?_ inbox ?_ apart
        · simp only [Session.setClient, Function.update_self]
        · simp only [Session.setClient, Function.update_self, whole, List.drop_length]
    · exact phaseSame (lock.phase d) (Function.update_of_ne same ..) rfl id id
  · by_cases same : d = c
    · subst same
      rw [(lock.fresh d above).1] at waits
      cases waits
    · simp only [Session.setClient, Function.update_of_ne same]
      exact lock.fresh d above

theorem quietLockstep {host : Host} {s t : Session} (lock : Lockstep host s) (client : t.client = s.client)
    (peer : t.sys.peer = s.sys.peer) (next : t.sys.next = s.sys.next) (apart : ∀ c, ¬ Answering t.sys c)
    (here : ∀ c, Answering s.sys c ∨ Stopped s.sys → Stopped t.sys) : Lockstep host t := by
  refine ⟨fun c => ?_, fun c above => ?_⟩
  · exact phaseSame (lock.phase c) (by rw [client]) (by rw [peer]) (fun busy => absurd busy (apart c))
      (fun busy => .inr (here c busy))
  · rw [client]
    exact lock.fresh c (next ▸ above)

theorem runningPc {s : Sys} {pc : Pc} (here : s.pc = pc) (alive : pc ≠ .killed)
    (stays : ∀ code, pc ≠ .returned code) : ¬ Stopped s := by
  rintro (killed | ⟨code, returned⟩)
  · exact alive (here.symm.trans killed)
  · exact stays code (here.symm.trans returned)

theorem neitherPc {s : Sys} {pc : Pc} (here : s.pc = pc) (other : ∀ set i, pc ≠ .send set i)
    (alive : pc ≠ .killed) (stays : ∀ code, pc ≠ .returned code) (c : Conn) :
    ¬ (Answering s c ∨ Stopped s) :=
  fun busy => busy.elim (answeringPc here other) (runningPc here alive stays)

theorem recvLockstep {host : Host} {s : Session} {t : Sys} {count : Nat} {set : List Fd} {slot : Slot}
    {c : Conn} {heard : List (Slot × List Byte)} (lock : Lockstep host s) (received : Received s.sys t count set slot c)
    (whole : Whole s (.serves (.recv count))) : Lockstep host ⟨t, s.client, heard⟩ := by
  have counted : count = border 0 (s.sys.peer c).inbox := whole _ (arrivingIs received)
  obtain ⟨pc, -, live, filled, -, -, moved⟩ := received
  have before := neitherPc pc (by simp) (by simp) (by simp)
  have sends : t.pc = .send set slot ∧ t.fds (t.arrSock slot) = some c := by
    rw [moved]
    exact ⟨rfl, live⟩
  refine ⟨fun d => ?_, fun d above => ?_⟩
  · by_cases same : d = c
    · subst same
      cases lock.phase d with
      | idle _ inbox | taken _ inbox | answered _ inbox => exact absurd inbox filled
      | @asked word waits inbox clean answer =>
        refine .taken waits ?_ answer (.inl ⟨set, slot, sends⟩)
        have length : count = (word ++ [0]).length := by
          rw [counted, inbox, border, wordFirst clean, List.length_append, List.length_singleton]
        rw [moved]
        simp only [message, Sys.setPeer, Function.update_self, inbox, length, List.drop_length]
    · refine phaseSame (lock.phase d) rfl ?_ ?_ (fun busy => absurd busy (before d))
      · rw [moved]
        exact congrArg Peer.inbox (Function.update_of_ne same _ _)
      · rintro ⟨other, i, here, theirs⟩
        cases sends.1.symm.trans here
        exact absurd (Option.some.inj (theirs.symm.trans sends.2)) same
  · rw [moved] at above
    exact lock.fresh d above

theorem sendLockstep {host : Host} {s : Session} {t : Sys} {set : List Fd} {i : Slot} {c : Conn}
    {heard : List (Slot × List Byte)} (served : Served host s.sys) (lock : Lockstep host s)
    (pc : s.sys.pc = .send set i) (live : s.sys.fds (s.sys.arrSock i) = some c)
    (quiet : ∀ d, ¬ Answering t d) (peer : t.peer = s.sys.peer) (next : t.next = s.sys.next) :
    Lockstep host ⟨t, answered host s .send, heard⟩ := by
  have client : answered host s .send = Function.update s.client c
      {s.client c with answer := (s.client c).answer ++ answerBytes host} := by
    simp only [answered, pc, live]
  have busy : Answering s.sys c := ⟨set, i, pc, live⟩
  rw [client]
  refine ⟨fun d => ?_, fun d above => ?_⟩
  · by_cases same : d = c
    · subst same
      cases lock.phase d with
      | idle _ _ _ apart | asked _ _ _ _ apart | answered _ _ _ apart => exact absurd busy apart
      | taken waits inbox answer =>
        refine .answered ?_ ?_ ?_ (quiet d)
        · simp only [Function.update_self, waits]
        · dsimp only
          rw [peer, inbox]
        · simp only [Function.update_self, answer, List.nil_append]
    · refine phaseSame (lock.phase d) (Function.update_of_ne same ..) ?_ (fun theirs => absurd theirs (quiet d)) ?_
      · dsimp only
        rw [peer]
      · rintro (⟨_, _, here, theirs⟩ | stopped)
        · cases pc.symm.trans here
          exact absurd (Option.some.inj (theirs.symm.trans live)) same
        · exact absurd stopped (runningPc pc (by simp) (by simp))
  · dsimp only at above
    rw [next] at above
    have other : d ≠ c := Nat.ne_of_gt (Nat.lt_of_lt_of_le (served.sane.conns.known _ c live) above)
    simp only [Function.update_of_ne other]
    exact lock.fresh d above

theorem servesLockstep {host : Host} {s : Session} {t : Sys} {a : Act} (served : Served host s.sys)
    (lock : Lockstep host s) (whole : Whole s (.serves a)) (taken : serverStep host s.sys a = some t) :
    Lockstep host ⟨t, answered host s a, noted s a t⟩ := by
  cases serverMoved taken with
  | select pc =>
    refine quietLockstep lock rfl rfl rfl (fun c => ?_)
      (fun c busy => absurd busy (neitherPc pc (by simp) (by simp) (by simp) c))
    rintro ⟨set, i, sends, -⟩
    dsimp only at sends
    split at sends <;> cases sends
  | next pc =>
    refine quietLockstep lock rfl rfl rfl (fun c => ?_)
      (fun c busy => absurd busy (neitherPc pc (by simp) (by simp) (by simp) c))
    rintro ⟨set, i, sends, -⟩
    dsimp only at sends
    split at sends <;> cases sends
  | selectFails | acceptFails | sendFails =>
    exact quietLockstep lock rfl rfl rfl (fun c => answeringPc rfl (by simp)) (fun c _ => .inr ⟨_, rfl⟩)
  | sigpipe =>
    exact quietLockstep lock rfl rfl rfl (fun c => answeringPc rfl (by simp)) (fun c _ => .inl rfl)
  | @accept set newsock d rest pc backlog free =>
    obtain ⟨-, -, next, peer, -⟩ := insertFrame (s.sys.opened set newsock d rest) newsock
    refine quietLockstep lock rfl peer next
      (fun c => answeringPc (acceptedAt s.sys set newsock d rest) (by simp))
      (fun c busy => absurd busy (neitherPc pc (by simp) (by simp) (by simp) c))
  | recvFails | recvs | disconnects =>
    obtain ⟨set, slot, c, received⟩ := recvReceived served taken
    exact recvLockstep lock received whole
  | send pc live alive =>
    exact sendLockstep served lock pc live (fun d => answeringPc rfl (by simp)) rfl rfl

theorem sessionLockstep {host : Host} {s t : Session} {e : Event} (talks : Talks host s)
    (lock : Lockstep host s) (whole : WholeBoth s e) (taken : sessionStep host s e = some t) :
    Lockstep host t := by
  cases e with
  | connects =>
    simp only [sessionStep] at taken
    split at taken
    · obtain ⟨u, moved, same⟩ := Option.map_eq_some_iff.mp taken
      cases same
      exact connectLockstep talks.served lock (connectTaken moved)
    · cases taken
  | types c word =>
    simp only [sessionStep] at taken
    split at taken
    · rename_i ready
      obtain ⟨u, moved, same⟩ := Option.map_eq_some_iff.mp taken
      cases same
      exact typesLockstep lock ready.1 ready.2 (sendsTaken moved)
    · cases taken
  | hears c count =>
    simp only [sessionStep] at taken
    split at taken
    · rename_i ready
      cases taken
      exact hearsLockstep lock ready.1 ready.2.1 whole
    · cases taken
  | serves a =>
    obtain ⟨u, moved, same⟩ := Option.map_eq_some_iff.mp taken
    cases same
    exact servesLockstep talks.served lock whole moved

def Event.hearsOf (c : Conn) : Event → Bool
  | .hears d _ => d = c
  | _ => false

def heardAnswers (c : Conn) (labels : List Event) : Nat := labels.countP (Event.hearsOf c)

def pendingOf (s : Session) (c : Conn) : Nat := if (s.client c).waiting then 1 else 0

theorem answeredWaits (host : Host) (s : Session) (a : Act) (c : Conn) :
    (answered host s a c).waiting = (s.client c).waiting := by
  rw [answeredClient]

theorem heardStep {host : Host} {s t : Session} {e : Event} (taken : sessionStep host s e = some t)
    (c : Conn) : (t.client c).sent.length + pendingOf s c =
      (s.client c).sent.length + heardAnswers c [e] + pendingOf t c := by
  cases e with
  | connects =>
    simp only [sessionStep] at taken
    split at taken
    · obtain ⟨u, moved, same⟩ := Option.map_eq_some_iff.mp taken
      cases same
      rfl
    · cases taken
  | types d word =>
    simp only [sessionStep] at taken
    split at taken
    · rename_i ready
      obtain ⟨u, moved, same⟩ := Option.map_eq_some_iff.mp taken
      cases same
      by_cases mine : c = d
      · subst mine
        simp [pendingOf, heardAnswers, Event.hearsOf, Session.setClient, ready.2]
      · simp [pendingOf, heardAnswers, Event.hearsOf, Session.setClient, Function.update_of_ne mine]
    · cases taken
  | hears d count =>
    simp only [sessionStep] at taken
    split at taken
    · rename_i ready
      cases taken
      by_cases mine : c = d
      · subst mine
        simp [pendingOf, heardAnswers, Event.hearsOf, Session.setClient, ready.1]
      · have other : ¬ d = c := fun same => mine same.symm
        simp [pendingOf, heardAnswers, Event.hearsOf, Session.setClient, Function.update_of_ne mine, other]
    · cases taken
  | serves a =>
    obtain ⟨u, moved, same⟩ := Option.map_eq_some_iff.mp taken
    cases same
    rw [pendingOf, pendingOf, answeredWaits, answeredSent]
    rfl

theorem heardRun {host : Host} {ok : Session → Event → Prop} {s t : Session} {labels : List Event}
    (run : Run (sessionStep host) ok s labels t) (c : Conn) :
    (t.client c).sent.length + pendingOf s c =
      (s.client c).sent.length + heardAnswers c labels + pendingOf t c := by
  induction run with
  | nil s => rfl
  | @cons s e u rest t meets taken tail ih =>
    have here := heardStep taken c
    have split : heardAnswers c ([e] ++ rest) = heardAnswers c [e] + heardAnswers c rest := List.countP_append
    rw [List.singleton_append] at split
    omega

theorem oneWord {rest : List (List Byte)} {word : List Byte} (clean : 0 ∉ word)
    (plain : ∀ w ∈ rest, (0 : Byte) ∉ w) (same : word ++ [0] = encode 0 rest) : rest = [word] := by
  cases rest with
  | nil =>
    simp [encode] at same
  | cons w more =>
    have split : encode 0 (w :: more) = w ++ 0 :: encode 0 more := by
      rw [encode, List.flatMap_cons, List.append_assoc]
      rfl
    have first := wordFirst clean []
    rw [same, split, wordFirst (plain w List.mem_cons_self)] at first
    rw [split, first] at same
    have behind := List.append_cancel_left same
    cases more with
    | nil => rw [first]
    | cons v more =>
      simp [encode] at behind

theorem settledOpen {host : Host} {s : Sys} (served : Served host s) (settled : Settled host s) {c : Conn}
    (below : c < s.next) : ∃ i, s.fds (s.arrSock i) = some c := by
  have empty := (settledQuiet served settled).1
  have held : ∃ fd, s.fds fd = some c := by
    by_contra none
    have waits := served.queued (runningPc settled.1 (by simp) (by simp)) c below (fun fd live => none ⟨fd, live⟩)
    rw [empty] at waits
    cases waits
  obtain ⟨fd, live⟩ := held
  obtain ⟨⟨i, rfl, -⟩, -⟩ := (heldIff host served.sane.sound).mpr served.held fd c live
  exact ⟨i, live⟩

theorem heardPhase {host : Host} {s : Session} (streams : Streams s) {i : Slot} {c : Conn}
    (live : s.sys.fds (s.sys.arrSock i) = some c) (phase : Phase host s c) :
    (heardAs s.heard i).length ≤ (s.client c).sent.length ∧
      (s.client c).sent.length ≤ (heardAs s.heard i).length + pendingOf s c := by
  have told := streams.told i c live
  have quiet : (s.sys.peer c).inbox = [] → (heardAs s.heard i).length = (s.client c).sent.length := by
    intro empty
    rw [empty] at told
    rw [inStepAll told]
  cases phase with
  | idle _ inbox | taken _ inbox | answered _ inbox =>
    rw [quiet inbox]
    exact ⟨Nat.le_refl _, Nat.le_add_right _ _⟩
  | @asked word waits inbox clean =>
    obtain ⟨rest, whole, left⟩ := told
    have plain : ∀ w ∈ rest, (0 : Byte) ∉ w := fun w mem =>
      typedClean (streams.typed c w (whole ▸ List.mem_append_right _ mem))
    have single := oneWord clean plain (inbox.symm.trans left)
    rw [← whole, single, List.length_append, List.length_singleton, pendingOf, if_pos waits]
    exact ⟨Nat.le_succ _, Nat.le_refl _⟩

structure InTurn (host : Host) (labels : List Event) (s : Session) : Prop where
  counts : ∀ i c, s.sys.fds (s.sys.arrSock i) = some c →
    heardAnswers c labels ≤ (heardAs s.heard i).length ∧
      (heardAs s.heard i).length ≤ (s.client c).sent.length ∧
      (s.client c).sent.length ≤ heardAnswers c labels + 1
  single : ∀ c, (s.sys.peer c).inbox = [] ∨
    (∃ word, 0 ∉ word ∧ (s.sys.peer c).inbox = word ++ [0]) ∧ (s.client c).answer = []
  answers : ∀ c, (s.client c).answer = [] ∨ (s.client c).answer = answerBytes host
  nobodyWaits : Settled host s.sys → ∀ c, (s.client c).waiting = true →
    (s.client c).answer = answerBytes host

theorem oneAtATime (host : Host) (stack : Buf) {labels : List Event} {last : Session}
    (run : Run (sessionStep host) WholeBoth (opening stack) labels last) : InTurn host labels last := by
  have kept : ∀ s e t, Talks host s ∧ Lockstep host s → WholeBoth s e → sessionStep host s e = some t →
      Talks host t ∧ Lockstep host t :=
    fun s e t both whole taken => ⟨sessionTalks both.1 (wholeWords whole) taken,
      sessionLockstep both.1 both.2 whole taken⟩
  obtain ⟨⟨served, streams⟩, lock⟩ := runInvariant (fun s => Talks host s ∧ Lockstep host s) kept run
    ⟨⟨bootServed host stack, openingStreams stack⟩, openingLockstep host stack⟩
  refine ⟨fun i c live => ?_, fun c => ?_, fun c => ?_, fun settled c waits => ?_⟩
  · have counted := heardRun run c
    have phase := heardPhase streams live (lock.phase c)
    have start : ((opening stack).client c).sent.length = 0 ∧ pendingOf (opening stack) c = 0 := ⟨rfl, rfl⟩
    have one : pendingOf last c ≤ 1 := by
      unfold pendingOf
      split <;> omega
    omega
  · cases lock.phase c with
    | idle _ inbox | taken _ inbox | answered _ inbox => exact .inl inbox
    | asked _ inbox clean answer => exact .inr ⟨⟨_, clean, inbox⟩, answer⟩
  · cases lock.phase c with
    | idle _ _ answer | asked _ _ _ answer | taken _ _ answer => exact .inl answer
    | answered _ _ answer => exact .inr answer
  · have below : c < last.sys.next := by
      refine Nat.lt_of_not_le fun above => ?_
      rw [(lock.fresh c above).1] at waits
      cases waits
    obtain ⟨i, live⟩ := settledOpen served settled below
    have empty := (settledQuiet served settled).2 i c live
    cases lock.phase c with
    | idle free =>
      rw [free] at waits
      cases waits
    | asked _ inbox =>
      rw [empty] at inbox
      simp at inbox
    | taken _ _ _ busy =>
      exact absurd busy (neitherPc settled.1 (by simp) (by simp) (by simp) c)
    | answered _ _ answer => exact answer

def exchange : List Event :=
  joins 4 ++ [.types 0 [49, 50], .serves .select, .serves (.recv 3)] ++ replies 0 ++
    [.hears 0 27, .types 0 [55], .serves .select, .serves (.recv 2)] ++ replies 0

theorem exchangeInTurn : ∃ last,
    Run (sessionStep someHost) WholeBoth (opening fun _ => 0) exchange last ∧
      Settled someHost last.sys ∧ InTurn someHost exchange last := by
  obtain ⟨last, run, ended⟩ := checkedEnd (sessionStep someHost) WholeBoth (opening fun _ => 0)
    exchange (fun s => (s.sys.pc, ready someHost s.sys)) (.select, []) (by decide +kernel)
  exact ⟨last, run, Prod.mk.inj ended, oneAtATime someHost _ run⟩

end OsLabs.ClientSession
