import OsLabs.ServerTable

/-! The server waits nowhere but in select: what select has reported stays there to be
received until its entry is due, and a connection reported on the listening socket stays
in the backlog until accept. -/
namespace OsLabs.SelectServer
open Runs

def Ripe (s : Sys) (fd : Fd) : Prop := ∃ c, s.fds fd = some c ∧ (s.peer c).ripe = true

structure Conns (host : Host) (s : Sys) : Prop where
  listening : s.fds host.sock = none
  known : ∀ fd c, s.fds fd = some c → c < s.next
  waiting : ∀ c ∈ s.backlog, c < s.next ∧ ∀ fd, s.fds fd ≠ some c
  nodup : s.backlog.Nodup
  single : ∀ fd other c, s.fds fd = some c → s.fds other = some c → fd = other

def Later (s : Sys) (set : List Fd) (i : Nat) : Prop :=
  ∀ slot : Slot, i ≤ slot → s.arrSock slot ≠ 0 → s.arrSock slot ∈ set → Ripe s (s.arrSock slot)

def Due (host : Host) (s : Sys) : Prop :=
  match s.pc with
  | .accept set => s.backlog ≠ [] ∧ ∀ fd ∈ set, fd ≠ host.sock → Ripe s fd
  | .clients set i => Later s set i
  | .send set i => (∃ c, s.fds (s.arrSock i) = some c) ∧ Later s set (i + 1)
  | _ => True

structure Sane (host : Host) (s : Sys) : Prop where
  sound : Sound s
  conns : Conns host s
  due : Due host s

theorem bootSane (host : Host) (stack : Buf) : Sane host (boot stack) := by
  refine ⟨bootTable stack, ⟨rfl, ?_, ?_, List.nodup_nil, ?_⟩, trivial⟩
  · intro fd c live
    cases live
  · intro c mem
    cases mem
  · intro fd other c live
    cases live

structure Grows (s t : Sys) : Prop where
  pc : t.pc = s.pc
  arrSock : t.arrSock = s.arrSock
  fds : t.fds = s.fds
  calls : t.calls = s.calls
  head : ∀ c, s.backlog.head? = some c → t.backlog.head? = some c
  ripe : ∀ c < s.next, (s.peer c).ripe = true → (t.peer c).ripe = true
  reset : ∀ c < s.next, (s.peer c).reset = true → (t.peer c).reset = true

theorem setPeerGrows {s : Sys} {c : Conn} {p : Peer}
    (ripe : (s.peer c).ripe = true → p.ripe = true)
    (reset : (s.peer c).reset = true → p.reset = true) : Grows s (s.setPeer c p) := by
  refine ⟨rfl, rfl, rfl, rfl, fun _ => id, fun d _ before => ?_, fun d _ before => ?_⟩
  · by_cases same : d = c
    · subst same
      simpa only [Sys.setPeer, Function.update_self] using ripe before
    · simpa only [Sys.setPeer, Function.update_of_ne same] using before
  · by_cases same : d = c
    · subst same
      simpa only [Sys.setPeer, Function.update_self] using reset before
    · simpa only [Sys.setPeer, Function.update_of_ne same] using before

theorem clientGrows {s t : Sys} {a : Act} (taken : clientStep s a = some t) : Grows s t := by
  cases clientMoved taken with
  | connect =>
    refine ⟨rfl, rfl, rfl, rfl, fun first waits => ?_, fun c old before => ?_, fun c old before => ?_⟩
    · simp only [List.head?_append, waits, Option.some_or]
    · simpa only [Sys.setPeer, Function.update_of_ne (Nat.ne_of_lt old)] using before
    · simpa only [Sys.setPeer, Function.update_of_ne (Nat.ne_of_lt old)] using before
  | sends known filled => exact setPeerGrows (fun _ => by simp [Peer.ripe, filled]) id
  | closes known => exact setPeerGrows (fun _ => by simp [Peer.ripe]) id
  | resets known => exact setPeerGrows (fun _ => by simp [Peer.ripe]) (fun _ => rfl)

structure Shrinks (s t : Sys) : Prop where
  next : t.next = s.next
  backlog : t.backlog.Sublist s.backlog
  fds : ∀ fd c, t.fds fd = some c → s.fds fd = some c

theorem shrinksConns {host : Host} {s t : Sys} (conns : Conns host s) (shrinks : Shrinks s t) :
    Conns host t := by
  refine ⟨?_, ?_, ?_, conns.nodup.sublist shrinks.backlog, ?_⟩
  · cases fd : t.fds host.sock with
    | none => rfl
    | some c =>
      have before := shrinks.fds _ _ fd
      rw [conns.listening] at before
      cases before
  · intro fd c live
    rw [shrinks.next]
    exact conns.known fd c (shrinks.fds fd c live)
  · intro c mem
    obtain ⟨old, apart⟩ := conns.waiting c (shrinks.backlog.subset mem)
    rw [shrinks.next]
    exact ⟨old, fun fd live => apart fd (shrinks.fds fd c live)⟩
  · intro fd other c left right
    exact conns.single fd other c (shrinks.fds fd c left) (shrinks.fds other c right)

theorem clientConns {host : Host} {s t : Sys} {a : Act} (conns : Conns host s)
    (taken : clientStep s a = some t) : Conns host t := by
  cases clientMoved taken with
  | connect =>
    refine ⟨conns.listening, fun fd c live => Nat.lt_succ_of_lt (conns.known fd c live), ?_, ?_,
      conns.single⟩
    · intro c mem
      rcases List.mem_append.mp mem with old | new
      · obtain ⟨below, apart⟩ := conns.waiting c old
        exact ⟨Nat.lt_succ_of_lt below, apart⟩
      · cases List.mem_singleton.mp new
        exact ⟨Nat.lt_succ_self _, fun fd live => Nat.lt_irrefl _ (conns.known fd _ live)⟩
    · refine List.Nodup.append conns.nodup (List.nodup_singleton _) ?_
      intro c old new
      cases List.mem_singleton.mp new
      exact Nat.lt_irrefl _ (conns.waiting _ old).1
  | sends | closes | resets => exact shrinksConns conns ⟨rfl, .refl _, fun _ _ => id⟩

theorem ripeGrows {host : Host} {s t : Sys} (conns : Conns host s) (grows : Grows s t) {fd : Fd}
    (ripe : Ripe s fd) : Ripe t fd := by
  obtain ⟨c, live, here⟩ := ripe
  exact ⟨c, by rw [grows.fds]; exact live, grows.ripe c (conns.known fd c live) here⟩

theorem laterGrows {host : Host} {s t : Sys} (conns : Conns host s) (grows : Grows s t)
    {set : List Fd} {i : Nat} (later : Later s set i) : Later t set i := by
  intro slot above used member
  rw [grows.arrSock] at used member ⊢
  exact ripeGrows conns grows (later slot above used member)

theorem clientSane {host : Host} {s t : Sys} {a : Act} (sane : Sane host s) (client : a.client = true)
    (taken : clientStep s a = some t) : Sane host t := by
  have grows := clientGrows taken
  have moved : step host s a = some t := by rw [step, if_pos client, taken]
  refine ⟨stepEntries sane.sound moved, clientConns sane.conns taken, ?_⟩
  have due := sane.due
  unfold Due at due ⊢
  rw [grows.pc]
  cases pc : s.pc with
  | accept set =>
    rw [pc] at due
    obtain ⟨first, rest, backlog⟩ := List.exists_cons_of_ne_nil due.1
    have waits := grows.head first (by rw [backlog]; rfl)
    refine ⟨fun empty => ?_,
      fun fd member other => ripeGrows sane.conns grows (due.2 fd member other)⟩
    rw [empty] at waits
    cases waits
  | clients set i =>
    rw [pc] at due
    exact laterGrows sane.conns grows due
  | send set i =>
    rw [pc] at due
    refine ⟨?_, laterGrows sane.conns grows due.2⟩
    rw [grows.arrSock, grows.fds]
    exact due.1
  | _ => trivial

theorem readyRipe {host : Host} {s : Sys} {fd : Fd} (member : fd ∈ ready host s)
    (other : fd ≠ host.sock) : Ripe s fd := by
  have reads := (List.mem_filter.mp member).2
  rw [Bool.and_eq_true] at reads
  have here := reads.2
  unfold readable at here
  rw [if_neg other] at here
  cases live : s.fds fd with
  | none => simp [live] at here
  | some c => exact ⟨c, live, by simpa [live] using here⟩

theorem entryNotListening {host : Host} {s : Sys} (sane : Sane host s) {slot : Slot}
    (used : s.arrSock slot ≠ 0) : s.arrSock slot ≠ host.sock := by
  intro same
  obtain ⟨c, live⟩ := sane.sound.live slot used
  rw [same, sane.conns.listening] at live
  cases live

theorem serverMoves {host : Host} {s t : Sys} {a : Act} (taken : serverStep host s a = some t) :
    step host s a = some t := by
  cases a with
  | connect | sends | closes | resets => cases taken
  | _ => exact taken

theorem selectDue {host : Host} {s : Sys} (sane : Sane host s) : Due host {s with
    pc := if host.sock ∈ ready host s then .accept (ready host s) else .clients (ready host s) 0} := by
  unfold Due
  by_cases listening : host.sock ∈ ready host s
  · simp only [if_pos listening]
    refine ⟨?_, fun fd member other => readyRipe member other⟩
    have reads := (List.mem_filter.mp listening).2
    rw [Bool.and_eq_true] at reads
    have filled := reads.2
    simp only [readable, if_true] at filled
    intro empty
    simp [empty] at filled
  · simp only [if_neg listening]
    exact fun slot _ used member => readyRipe member (entryNotListening sane used)

theorem insertFrame (s : Sys) (newsock : Fd) : (insert s newsock).pc = s.pc ∧
    (insert s newsock).backlog = s.backlog ∧ (insert s newsock).next = s.next ∧
    (insert s newsock).peer = s.peer ∧ (insert s newsock).calls = s.calls := by
  unfold insert
  split <;> exact ⟨rfl, rfl, rfl, rfl, rfl⟩

theorem acceptedAt (s : Sys) (set : List Fd) (newsock : Fd) (c : Conn) (rest : List Conn) :
    (insert (s.opened set newsock c rest) newsock).pc = .clients set 0 :=
  (insertFrame (s.opened set newsock c rest) newsock).1

theorem acceptConns {host : Host} {s t : Sys} {newsock : Fd} {c : Conn} {rest : List Conn}
    (conns : Conns host s) (backlog : s.backlog = c :: rest) (free : freeFd host s newsock)
    (next : t.next = s.next) (taken : t.backlog = rest)
    (fds : t.fds = Function.update s.fds newsock (some c)) : Conns host t := by
  obtain ⟨-, -, other, fresh⟩ := free
  have nodup := conns.nodup
  rw [backlog] at nodup
  have head := conns.waiting c (by rw [backlog]; exact List.mem_cons_self)
  refine ⟨?_, ?_, ?_, ?_, ?_⟩
  · rw [fds, Function.update_of_ne (Ne.symm other)]
    exact conns.listening
  · intro fd d live
    rw [next]
    by_cases same : fd = newsock
    · rw [fds, same, Function.update_self] at live
      cases live
      exact head.1
    · rw [fds, Function.update_of_ne same] at live
      exact conns.known fd d live
  · intro d mem
    rw [taken] at mem
    obtain ⟨below, apart⟩ := conns.waiting d (by rw [backlog]; exact List.mem_cons_of_mem _ mem)
    rw [next]
    refine ⟨below, fun fd live => ?_⟩
    by_cases same : fd = newsock
    · rw [fds, same, Function.update_self] at live
      cases live
      exact (List.nodup_cons.mp nodup).1 mem
    · rw [fds, Function.update_of_ne same] at live
      exact apart fd live
  · rw [taken]
    exact (List.nodup_cons.mp nodup).2
  · intro left right d here there
    rw [fds, Function.update_apply] at here there
    split at here <;> split at there
    · rename_i first second
      rw [first, second]
    · cases here
      exact absurd there (head.2 right)
    · cases there
      exact absurd here (head.2 left)
    · exact conns.single left right d here there

theorem acceptLater {host : Host} {s t : Sys} {newsock : Fd} {set : List Fd} (sane : Sane host s)
    (accepted : Accepted host s t (.accept newsock) newsock) (peer : t.peer = s.peer)
    (ripe : ∀ fd ∈ set, fd ≠ host.sock → Ripe s fd) : newsock ∉ set ∧ Later t set 0 := by
  obtain ⟨-, ⟨-, -, other, fresh⟩, ⟨c, fds⟩, stored⟩ := accepted
  have outside : newsock ∉ set := by
    intro member
    obtain ⟨d, live, -⟩ := ripe newsock member other
    rw [fresh] at live
    cases live
  refine ⟨outside, ?_⟩
  have old : ∀ slot, s.arrSock slot ≠ 0 → s.arrSock slot ∈ set → Ripe t (s.arrSock slot) := by
    intro slot used member
    obtain ⟨d, live, here⟩ := ripe _ member (entryNotListening sane used)
    refine ⟨d, ?_, by rw [peer]; exact here⟩
    have apart : s.arrSock slot ≠ newsock := by
      intro same
      rw [same] at member
      exact outside member
    rw [fds, Function.update_of_ne apart]
    exact live
  intro slot _ used member
  rcases stored with ⟨i, -, table⟩ | ⟨-, table⟩
  · by_cases mine : slot = i
    · rw [table, mine, Function.update_self] at member
      exact absurd member outside
    · rw [table, Function.update_of_ne mine] at used member ⊢
      exact old slot used member
  · rw [table] at used member ⊢
    exact old slot used member

theorem recvLater {s t : Sys} {host : Host} {set : List Fd} {slot : Slot} {c : Conn}
    (sane : Sane host s) (later : Later s set slot) (live : s.fds (s.arrSock slot) = some c)
    (table : ∀ other, other ≠ slot → t.arrSock other = s.arrSock other)
    (fds : ∀ fd, fd ≠ s.arrSock slot → t.fds fd = s.fds fd)
    (peer : ∀ d, d ≠ c → t.peer d = s.peer d) : Later t set (slot + 1) := by
  intro other above used member
  have apart : other ≠ slot := by
    rintro rfl
    exact absurd above (Nat.not_succ_le_self _)
  rw [table other apart] at used member ⊢
  obtain ⟨d, opened, here⟩ := later other (Nat.le_of_succ_le above) used member
  have elsewhere : s.arrSock other ≠ s.arrSock slot :=
    fun same => apart (sane.sound.distinct other slot used same)
  have another : d ≠ c := by
    rintro rfl
    exact elsewhere (sane.conns.single _ _ _ opened live)
  exact ⟨d, by rw [fds _ elsewhere]; exact opened, by rw [peer d another]; exact here⟩

theorem sameConns {host : Host} {s t : Sys} (conns : Conns host s) (next : t.next = s.next)
    (backlog : t.backlog = s.backlog) (fds : t.fds = s.fds) : Conns host t :=
  shrinksConns conns ⟨next, by rw [backlog], fun _ _ live => by rwa [fds] at live⟩

theorem serverConns {host : Host} {s t : Sys} {a : Act} (conns : Conns host s)
    (moves : Moves host s a t) : Conns host t := by
  cases moves with
  | @accept set newsock c rest pc backlog free =>
    obtain ⟨fds, -⟩ := insertTable (s.opened set newsock c rest) newsock
    obtain ⟨-, left, next, -, -⟩ := insertFrame (s.opened set newsock c rest) newsock
    exact acceptConns conns backlog free next left fds
  | acceptFails pc backlog cause =>
    refine shrinksConns conns ⟨rfl, ?_, fun _ _ => id⟩
    rw [backlog]
    exact List.sublist_cons_self _ _
  | disconnects pc due live =>
    refine shrinksConns conns ⟨rfl, .refl _, fun fd c opened => ?_⟩
    simp only [disconnect, Function.update_apply] at opened
    split at opened
    · cases opened
    · exact opened
  | _ => exact sameConns conns rfl rfl rfl

theorem serverDue {host : Host} {s t : Sys} {a : Act} (sane : Sane host s)
    (moves : Moves host s a t) : Due host t := by
  have due := sane.due
  unfold Due at due
  cases moves with
  | select pc => exact selectDue sane
  | @accept set newsock c rest pc backlog free =>
    rw [pc] at due
    obtain ⟨fds, stored⟩ := insertTable (s.opened set newsock c rest) newsock
    obtain ⟨-, -, -, peer, -⟩ := insertFrame (s.opened set newsock c rest) newsock
    unfold Due
    rw [acceptedAt]
    exact (acceptLater sane ⟨rfl, free, ⟨c, fds⟩, stored⟩ peer due.2).2
  | @next set i pc quiet =>
    rw [pc] at due
    unfold Due
    by_cases more : i < maxCountSock
    · simp only [if_pos more]
      exact fun slot above => due slot (Nat.le_of_succ_le above)
    · simp only [if_neg more]
  | @recvFails set slot c count pc reports live reset =>
    rw [pc] at due
    exact ⟨⟨c, live⟩, recvLater sane due live (fun _ _ => rfl) (fun _ _ => rfl) (fun _ _ => rfl)⟩
  | @recvs set slot c count pc reports live filled positive =>
    rw [pc] at due
    exact ⟨⟨c, live⟩, recvLater sane due live (fun _ _ => rfl) (fun _ _ => rfl)
      (fun _ other => Function.update_of_ne other _ _)⟩
  | @disconnects set slot c count pc reports live =>
    rw [pc] at due
    exact recvLater sane due live (fun _ other => Function.update_of_ne other _ _)
      (fun _ other => Function.update_of_ne other _ _) (fun _ _ => rfl)
  | send pc live alive =>
    rw [pc] at due
    exact due.2
  | selectFails | acceptFails | sendFails | sigpipe => trivial

theorem serverSane {host : Host} {s t : Sys} {a : Act} (sane : Sane host s)
    (taken : serverStep host s a = some t) : Sane host t :=
  ⟨stepEntries sane.sound (serverMoves taken), serverConns sane.conns (serverMoved taken),
    serverDue sane (serverMoved taken)⟩

theorem stepSane {host : Host} {s t : Sys} {a : Act} (sane : Sane host s)
    (taken : step host s a = some t) : Sane host t := by
  unfold step at taken
  split at taken
  · exact clientSane sane ‹_› taken
  · exact serverSane sane taken

end OsLabs.SelectServer
