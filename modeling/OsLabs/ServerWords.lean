import OsLabs.ClientSession

/-! Which words of the clients the server takes for its messages. recv gives it any piece of
a stream, and the code takes each piece for one word. -/
namespace OsLabs.ClientSession
open SelectServer CMemory Runs Delimited

structure Delivered (host : Host) (s : Session) : Prop where
  accepted : ∀ fd c, s.sys.fds fd = some c → ∃! i, s.sys.arrSock i = fd
  told : ∀ i c, s.sys.fds (s.sys.arrSock i) = some c →
    InStep 0 (heardAs s.heard i) (s.client c).sent (s.sys.peer c).inbox
  unseen : ∀ c < s.sys.next, (∀ fd, s.sys.fds fd ≠ some c) →
    (s.sys.peer c).inbox = encode 0 (s.client c).sent
  silent : ∀ i, (∀ c, s.sys.fds (s.sys.arrSock i) ≠ some c) → heardAs s.heard i = []
  settled : Settled host s.sys → ∀ c < s.sys.next,
    ∃ i, s.sys.fds (s.sys.arrSock i) = some c ∧ heardAs s.heard i = (s.client c).sent

structure Streams (s : Session) : Prop where
  typed : ∀ c, ∀ word ∈ (s.client c).sent, Typed word
  fresh : ∀ c, s.sys.next ≤ c → (s.client c).sent = []
  told : ∀ i c, s.sys.fds (s.sys.arrSock i) = some c →
    InStep 0 (heardAs s.heard i) (s.client c).sent (s.sys.peer c).inbox
  unseen : ∀ c < s.sys.next, (∀ fd, s.sys.fds fd ≠ some c) →
    (s.sys.peer c).inbox = encode 0 (s.client c).sent
  silent : ∀ i, s.sys.arrSock i = 0 → heardAs s.heard i = []

theorem openingStreams (stack : Buf) : Streams (opening stack) := by
  refine ⟨fun c word member => ?_, fun _ _ => rfl, fun i c live => ?_, fun c below => ?_, fun _ _ => rfl⟩
  · cases member
  · cases live
  · exact absurd below (Nat.not_lt_zero c)

theorem streamsSame {s t : Session} (streams : Streams s) (next : t.sys.next = s.sys.next)
    (arrSock : t.sys.arrSock = s.sys.arrSock) (fds : t.sys.fds = s.sys.fds)
    (peer : t.sys.peer = s.sys.peer) (sent : ∀ c, (t.client c).sent = (s.client c).sent)
    (heard : t.heard = s.heard) : Streams t := by
  obtain ⟨typed, fresh, told, unseen, silent⟩ := streams
  refine ⟨?_, ?_, ?_, ?_, ?_⟩
  · simpa only [sent] using typed
  · simpa only [sent, next] using fresh
  · simpa only [sent, arrSock, fds, peer, heard] using told
  · simpa only [sent, next, fds, peer] using unseen
  · simpa only [arrSock, heard] using silent

theorem connectStreams {host : Host} {s : Session} {t : Sys} (served : Served host s.sys)
    (streams : Streams s) (connected : Connected s.sys t) : Streams {s with sys := t} := by
  obtain ⟨-, arrSock, fds, -, next, peer⟩ := connected
  refine ⟨streams.typed, fun c above => ?_, fun i c live => ?_, fun c below fresh => ?_, fun i free => ?_⟩
  · exact streams.fresh c (Nat.le_of_succ_le (by rw [next] at above; exact above))
  · rw [arrSock, fds] at live
    have old := Nat.ne_of_lt (served.sane.conns.known _ c live)
    rw [peer, Function.update_of_ne old]
    exact streams.told i c live
  · rw [fds] at fresh
    rw [next] at below
    rw [peer]
    rcases Nat.lt_succ_iff_lt_or_eq.mp below with old | new
    · rw [Function.update_of_ne (Nat.ne_of_lt old)]
      exact streams.unseen c old fresh
    · rw [new, Function.update_self, streams.fresh s.sys.next (Nat.le_refl _)]
      rfl
  · rw [arrSock] at free
    exact streams.silent i free

theorem typesStreams {s : Session} {t : Sys} {c : Conn} {word : List Byte} (streams : Streams s)
    (typed : Typed word) (sent : Sent s.sys t c (word ++ [0])) :
    Streams ({s with sys := t}.setClient c
      {s.client c with sent := (s.client c).sent ++ [word], waiting := true}) := by
  obtain ⟨known, -, arrSock, fds, -, next, peer⟩ := sent
  refine ⟨fun d => ?_, fun d above => ?_, fun i d live => ?_, fun d below fresh => ?_, fun i free => ?_⟩
  all_goals simp only [Session.setClient, arrSock, fds, next, peer] at *
  · by_cases same : d = c
    · subst same
      rw [Function.update_self]
      intro w member
      rcases List.mem_append.mp member with old | new
      · exact streams.typed d w old
      · cases List.mem_singleton.mp new
        exact typed
    · rw [Function.update_of_ne same]
      exact streams.typed d
  · rw [Function.update_of_ne (Nat.ne_of_gt (Nat.lt_of_lt_of_le known above))]
    exact streams.fresh d above
  · by_cases same : d = c
    · subst same
      rw [Function.update_self, Function.update_self]
      exact inStepSend (streams.told i d live) word
    · rw [Function.update_of_ne same, Function.update_of_ne same]
      exact streams.told i d live
  · by_cases same : d = c
    · subst same
      rw [Function.update_self, Function.update_self]
      simp only [streams.unseen d below fresh, encode, List.flatMap_append, List.flatMap_singleton]
    · rw [Function.update_of_ne same, Function.update_of_ne same]
      exact streams.unseen d below fresh
  · exact streams.silent i free

theorem acceptStreams {host : Host} {s t : Session} {newsock : Fd} {c : Conn} {rest : List Conn}
    {i : Slot} (served : Served host s.sys) (streams : Streams s)
    (backlog : s.sys.backlog = c :: rest) (free : freeFd host s.sys newsock)
    (slot : freeSlot s.sys = some i) (next : t.sys.next = s.sys.next)
    (arrSock : t.sys.arrSock = Function.update s.sys.arrSock i newsock)
    (fds : t.sys.fds = Function.update s.sys.fds newsock (some c))
    (peer : t.sys.peer = s.sys.peer) (client : t.client = s.client) (heard : t.heard = s.heard) :
    Streams t := by
  obtain ⟨positive, -, -, closed⟩ := free
  have empty := freeSlotUnused slot
  obtain ⟨old, waits⟩ := served.sane.conns.waiting c (by rw [backlog]; exact List.mem_cons_self)
  refine ⟨?_, ?_, fun j d live => ?_, fun d below fresh => ?_, fun j unused => ?_⟩
  · rw [client]
    exact streams.typed
  · rw [client, next]
    exact streams.fresh
  · rw [client, heard, peer]
    rw [arrSock, fds] at live
    by_cases mine : j = i
    · subst mine
      rw [Function.update_self, Function.update_self] at live
      cases live
      rw [streams.silent j empty, streams.unseen c old waits]
      exact inStepStart _
    · rw [Function.update_of_ne mine] at live
      have apart : s.sys.arrSock j ≠ newsock := by
        intro same
        by_cases used : s.sys.arrSock j = 0
        · exact absurd (used.symm.trans same) (Nat.ne_zero_of_lt positive).symm
        · obtain ⟨e, here⟩ := served.sane.sound.live j used
          rw [same, closed] at here
          cases here
      rw [Function.update_of_ne apart] at live
      exact streams.told j d live
  · rw [client, peer]
    rw [next] at below
    refine streams.unseen d below (fun fd live => fresh fd ?_)
    have apart : fd ≠ newsock := by
      rintro rfl
      rw [closed] at live
      cases live
    rw [fds, Function.update_of_ne apart]
    exact live
  · rw [heard]
    by_cases mine : j = i
    · rw [mine]
      exact streams.silent i empty
    · rw [arrSock, Function.update_of_ne mine] at unused
      exact streams.silent j unused

theorem typedClean {word : List Byte} (typed : Typed word) : (0 : Byte) ∉ word :=
  fun member => (typed.2.2 0 member).1 rfl

theorem textNul (buf : Buf) {text : List Byte} (clean : 0 ∉ text)
    (short : text.length + 1 ≤ maxLenBuf) : bufText (received buf (text ++ [0])) = text := by
  have start : (List.ofFn (received buf (text ++ [0]))).take (text.length + 1) = text ++ [0] := by
    apply List.ext_getElem
    · rw [List.length_take, List.length_ofFn, List.length_append, List.length_singleton]
      exact Nat.min_eq_left short
    · intro k _ inside
      rw [List.getElem_take, List.getElem_ofFn]
      simp only [received, List.getD_eq_getElem?_getD, List.getElem?_eq_getElem inside,
        Option.getD_some]
  rw [bufText, ← List.take_append_drop (text.length + 1) (List.ofFn (received buf (text ++ [0]))),
    start, List.append_assoc]
  exact wordFirst clean _

theorem textWhole (buf : Buf) {word : List Byte} (typed : Typed word) :
    bufText (received buf (word ++ [0])) = word := textNul buf (typedClean typed) typed.2.1

theorem heardAsNext (heard : List (Slot × List Byte)) (slot i : Slot) (text : List Byte) :
    heardAs (heard ++ [(slot, text)]) i =
      if slot = i then heardAs heard i ++ [text] else heardAs heard i := by
  by_cases same : slot = i
  · simp [heardAs, same]
  · simp [heardAs, same]

theorem arrivingIs {s t : Sys} {count : Nat} {set : List Fd} {slot : Slot} {c : Conn}
    (received : Received s t count set slot c) : arriving s = some (s.peer c).inbox := by
  simp only [arriving, received.pc, received.due, received.live, Option.bind_some, Option.map_some]

theorem recvExactly {s : Session} {t : Sys} {count : Nat} {set : List Fd} {slot : Slot} {c : Conn}
    (streams : Streams s) (received : Received s.sys t count set slot c) :
    InStep 0 (heardAs s.heard slot ++ [bufText t.buf]) (s.client c).sent (t.peer c).inbox ↔
      Whole s (.serves (.recv count)) := by
  have clean : ∀ word ∈ (s.client c).sent, (0 : Byte) ∉ word :=
    fun word member => typedClean (streams.typed c word member)
  obtain ⟨word, member, first, piece, exactly⟩ :=
    takeExactly clean (streams.told slot c received.live) received.filled
  have left : (t.peer c).inbox = (s.sys.peer c).inbox.drop count := by
    rw [received.moved]
    simp only [message, Sys.setPeer, Function.update_self]
  have whole : Whole s (.serves (.recv count)) ↔ count = word.length + 1 := by
    simp only [Whole, arrivingIs received, Option.mem_def, Option.some.injEq, forall_eq', first]
  rw [left, exactly _ _ received.inside, whole]
  refine ⟨fun both => both.2, fun counted => ⟨?_, counted⟩⟩
  have text : t.buf = SelectServer.received s.sys.buf (word ++ [0]) := by
    rw [received.moved, ← piece, ← counted]
    rfl
  rw [text, textWhole _ (streams.typed c word member)]

theorem recvStreams {host : Host} {s : Session} {t : Sys} {count : Nat} {set : List Fd} {slot : Slot}
    {c : Conn} (served : Served host s.sys) (streams : Streams s)
    (received : Received s.sys t count set slot c) (whole : Whole s (.serves (.recv count))) :
    Streams ⟨t, s.client, s.heard ++ [(slot, bufText t.buf)]⟩ := by
  have told := (recvExactly streams received).mpr whole
  have arrSock : t.arrSock = s.sys.arrSock := by rw [received.moved]; rfl
  have fds : t.fds = s.sys.fds := by rw [received.moved]; rfl
  have next : t.next = s.sys.next := by rw [received.moved]; rfl
  have others : ∀ d, d ≠ c → t.peer d = s.sys.peer d := by
    intro d other
    rw [received.moved]
    exact Function.update_of_ne other _ _
  have used : s.sys.arrSock slot ≠ 0 := (reportedUsed received.due).1
  refine ⟨streams.typed, ?_, fun i d live => ?_, fun d below fresh => ?_, fun i free => ?_⟩
  all_goals simp only [arrSock, fds, next, heardAsNext] at *
  · exact streams.fresh
  · by_cases mine : slot = i
    · subst mine
      rw [received.live] at live
      cases live
      rw [if_pos rfl]
      exact told
    · have other : d ≠ c := by
        rintro rfl
        have same := served.sane.conns.single _ _ d received.live live
        exact mine (served.sane.sound.distinct slot i used same)
      rw [if_neg mine, others d other]
      exact streams.told i d live
  · have other : d ≠ c := by
      rintro rfl
      exact fresh _ received.live
    rw [others d other]
    exact streams.unseen d below fresh
  · rw [if_neg (fun same => used (by rw [same]; exact free))]
    exact streams.silent i free

theorem answeredClient (host : Host) (s : Session) (a : Act) (c : Conn) :
    answered host s a c = {s.client c with answer := (answered host s a c).answer} := by
  cases a with
  | send =>
    simp only [answered]
    cases s.sys.pc with
    | send set i =>
      simp only
      cases s.sys.fds (s.sys.arrSock i) with
      | none => rfl
      | some d =>
        by_cases same : c = d
        · subst same
          simp only [Function.update_self]
        · simp only [Function.update_of_ne same]
    | _ => rfl
  | _ => rfl

theorem answeredSent (host : Host) (s : Session) (a : Act) (c : Conn) :
    (answered host s a c).sent = (s.client c).sent := by
  rw [answeredClient]

theorem serveStreams {host : Host} {s : Session} {t : Sys} {a : Act} (served : Served host s.sys)
    (streams : Streams s) (whole : Whole s (.serves a)) (taken : serverStep host s.sys a = some t) :
    Streams ⟨t, answered host s a, noted s a t⟩ := by
  have sent := answeredSent host s a
  cases serverMoved taken with
  | @accept set newsock c rest pc backlog free =>
    obtain ⟨i, slot⟩ := Option.isSome_iff_exists.mp (roomLeft served backlog)
    obtain ⟨fds, stored⟩ := insertTable (s.sys.opened set newsock c rest) newsock
    obtain ⟨-, -, next, peer, -⟩ := insertFrame (s.sys.opened set newsock c rest) newsock
    have table : (insert (s.sys.opened set newsock c rest) newsock).arrSock =
        Function.update s.sys.arrSock i newsock := by
      rcases stored with ⟨j, found, arrSock⟩ | ⟨full, -⟩
      · cases found.symm.trans slot
        exact arrSock
      · cases full.symm.trans slot
    exact acceptStreams served streams backlog free slot next table fds peer rfl rfl
  | recvFails | recvs | disconnects =>
    obtain ⟨set, slot, c, received⟩ := recvReceived served taken
    have streams := recvStreams served streams received whole
    rw [received.moved] at streams ⊢
    exact streams
  | select | next | selectFails | acceptFails | send | sendFails | sigpipe =>
    exact streamsSame streams rfl rfl rfl rfl sent rfl

structure Talks (host : Host) (s : Session) : Prop where
  served : Served host s.sys
  streams : Streams s

theorem sessionTalks {host : Host} {s t : Session} {e : Event} (talks : Talks host s)
    (whole : Whole s e) (taken : sessionStep host s e = some t) : Talks host t := by
  obtain ⟨served, streams⟩ := talks
  cases e with
  | connects =>
    simp only [sessionStep] at taken
    split at taken
    · rename_i room
      obtain ⟨u, moved, same⟩ := Option.map_eq_some_iff.mp taken
      cases same
      exact ⟨connectServed served room moved, connectStreams served streams (connectTaken moved)⟩
    · cases taken
  | types c word =>
    simp only [sessionStep] at taken
    split at taken
    · rename_i ready
      obtain ⟨u, moved, same⟩ := Option.map_eq_some_iff.mp taken
      cases same
      exact ⟨sendsServed served moved, typesStreams streams ready.1 (sendsTaken moved)⟩
    · cases taken
  | hears c count =>
    simp only [sessionStep] at taken
    split at taken
    · cases taken
      refine ⟨served, streamsSame streams rfl rfl rfl rfl (fun d => ?_) rfl⟩
      by_cases same : d = c
      · subst same
        simp only [Session.setClient, Function.update_self]
      · simp only [Session.setClient, Function.update_of_ne same]
    · cases taken
  | serves a =>
    obtain ⟨u, moved, same⟩ := Option.map_eq_some_iff.mp taken
    cases same
    exact ⟨serverServed served moved, serveStreams served streams whole moved⟩

theorem settledQuiet {host : Host} {s : Sys} (served : Served host s) (settled : Settled host s) :
    s.backlog = [] ∧ ∀ i c, s.fds (s.arrSock i) = some c → (s.peer c).inbox = [] := by
  obtain ⟨-, nothing⟩ := settled
  constructor
  · by_contra filled
    have listening : host.sock ∈ ready host s := by
      refine List.mem_filter.mpr ⟨List.mem_cons_self, ?_⟩
      have bound := Nat.lt_succ_of_le (@maxSockBound host s _ List.mem_cons_self)
      simp [readable, filled, bound]
    rw [nothing] at listening
    cases listening
  · intro i c live
    by_contra filled
    have ripe : (s.peer c).ripe = true := by simp [Peer.ripe, filled]
    have member := readyMember served.sane live ripe
    rw [nothing] at member
    cases member

theorem wordsDelivered (host : Host) (stack : Buf) {labels : List Event} {last : Session}
    (run : Run (sessionStep host) Whole (opening stack) labels last) : Delivered host last := by
  obtain ⟨served, streams⟩ := runInvariant (Talks host)
    (fun _ _ _ talks whole taken => sessionTalks talks whole taken) run
    ⟨bootServed host stack, openingStreams stack⟩
  have accepted : ∀ fd c, last.sys.fds fd = some c → ∃! i, last.sys.arrSock i = fd :=
    fun fd c live => (((heldIff host served.sane.sound).mpr served.held) fd c live).1
  refine ⟨accepted, streams.told, streams.unseen, fun i nobody => ?_, fun settled c below => ?_⟩
  · refine streams.silent i ?_
    by_contra used
    obtain ⟨c, live⟩ := served.sane.sound.live i used
    exact nobody c live
  · obtain ⟨empty, quiet⟩ := settledQuiet served settled
    have running : ¬ Stopped last.sys := by
      rintro (killed | ⟨code, returned⟩)
      · cases settled.1.symm.trans killed
      · cases settled.1.symm.trans returned
    have held : ∃ fd, last.sys.fds fd = some c := by
      by_contra none
      have waits := served.queued running c below (fun fd live => none ⟨fd, live⟩)
      rw [empty] at waits
      cases waits
    obtain ⟨fd, live⟩ := held
    obtain ⟨i, rfl, -⟩ := accepted fd c live
    have told := streams.told i c live
    rw [quiet i c live] at told
    exact ⟨i, live, inStepAll told⟩

instance (s : Session) : (e : Event) → Decidable (Whole s e)
  | .serves (.recv count) =>
      inferInstanceAs (Decidable (∀ inbox ∈ arriving s.sys, count = border 0 inbox))
  | .connects | .types _ _ | .hears _ _ | .serves .connect | .serves (.sends _ _)
  | .serves (.closes _) | .serves (.resets _) | .serves .select | .serves .selectFails
  | .serves (.accept _) | .serves .acceptFails | .serves .next | .serves .send
  | .serves .sendFails | .serves .sigpipe => isTrue trivial

def joins (newsock : Fd) : List Event := .connects :: ((arrival newsock).drop 1).map .serves

def replies (slot : Nat) : List Event :=
  .serves .send :: List.replicate (maxCountSock - slot) (.serves .next)

def conversation : List Event :=
  joins 4 ++ joins 5 ++ [.types 0 [49, 50], .types 1 [97, 98], .serves .select, .serves (.recv 3),
    .serves .send, .serves (.recv 3)] ++ replies 1 ++
  [.hears 0 5, .types 0 [55], .hears 0 22, .types 0 [120], .hears 1 27, .serves .select,
    .serves (.recv 2)] ++ replies 0 ++ [.serves .select, .serves (.recv 2)] ++ replies 0

theorem conversationDelivered : ∃ last,
    Run (sessionStep someHost) Whole (opening fun _ => 0) conversation last ∧
      Settled someHost last.sys ∧ Delivered someHost last := by
  obtain ⟨last, run, ended⟩ := checkedEnd (sessionStep someHost) Whole (opening fun _ => 0)
    conversation (fun s => (s.sys.pc, ready someHost s.sys)) (.select, []) (by decide +kernel)
  exact ⟨last, run, Prod.mk.inj ended, wordsDelivered someHost _ run⟩

def parted : List Event :=
  joins 4 ++ [.types 0 [49, 50], .serves .select, .serves (.recv 1)] ++ replies 0 ++
    [.serves .select, .serves (.recv 2)] ++ replies 0

def firstSlot : Slot := ⟨0, Nat.succ_pos 9⟩

theorem partedHeard : ¬ ∀ host stack labels last,
    Run (sessionStep host) (fun _ _ => True) (opening stack) labels last → Delivered host last := by
  intro always
  obtain ⟨last, run, ended⟩ := checkedEnd (sessionStep someHost) (fun _ _ => True)
    (opening fun _ => 0) parted
    (fun s => (s.sys.fds (s.sys.arrSock firstSlot), heardAs s.heard firstSlot, (s.client 0).sent))
    (some 0, [[49], [50]], [[49, 50]]) (by decide +kernel)
  rw [Prod.mk.injEq, Prod.mk.injEq] at ended
  obtain ⟨live, heard, sent⟩ := ended
  obtain ⟨rest, whole, -⟩ := (always _ _ _ _ run).told firstSlot 0 live
  rw [heard, sent] at whole
  cases whole

end OsLabs.ClientSession
