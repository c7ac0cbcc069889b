import OsLabs.ServerReady

/-! One pass of the server's loop, from a select that has returned to the next one: which calls
can stop or hold it, and what it has received, answered and accepted when it is over. -/
namespace OsLabs.SelectServer
open Runs

def Stopped (s : Sys) : Prop := s.pc = .killed ∨ ∃ code, s.pc = .returned code

def Act.fatal : Act → Bool
  | .selectFails | .acceptFails | .sendFails | .sigpipe => true
  | _ => false

theorem stopsOnlyFatal {host : Host} {s t : Sys} {a : Act} (running : ¬ Stopped s)
    (harmless : a.fatal = false) (taken : step host s a = some t) : ¬ Stopped t := by
  have goes : ∀ pc, t.pc = pc → pc ≠ .killed → (∀ code, pc ≠ .returned code) → ¬ Stopped t := by
    rintro pc rfl alive stays (killed | ⟨code, returned⟩)
    · exact alive killed
    · exact stays code returned
  unfold step at taken
  split at taken
  · have same := (clientGrows taken).pc
    unfold Stopped at running ⊢
    rw [same]
    exact running
  · cases serverMoved taken with
    | select | next => refine goes _ rfl ?_ ?_ <;> split <;> simp
    | accept => exact goes _ (acceptedAt ..) (by simp) (by simp)
    | recvFails | recvs => exact goes (.send _ _) rfl (by simp) (by simp)
    | disconnects | send => exact goes (.clients _ _) rfl (by simp) (by simp)
    | selectFails | acceptFails | sendFails | sigpipe => cases harmless

theorem neverWaits {host : Host} {s : Sys} (sane : Sane host s) (running : ¬ Stopped s)
    (busy : s.pc ≠ .select) : ∃ a t, a.client = false ∧ step host s a = some t := by
  have due := sane.due
  unfold Due at due
  cases pc : s.pc with
  | select => exact absurd pc busy
  | returned code => exact absurd (.inr ⟨code, pc⟩) running
  | killed => exact absurd (.inl pc) running
  | accept set =>
    rw [pc] at due
    obtain ⟨c, rest, backlog⟩ := List.exists_cons_of_ne_nil due.1
    by_cases room : ∃ fd < host.limit, freeFd host s fd
    · obtain ⟨fd, -, free⟩ := room
      exact ⟨.accept fd, _, rfl, by simp only [step, Act.client, serverStep, pc, backlog, if_pos free]; rfl⟩
    · have full : ∀ fd < host.limit, ¬ freeFd host s fd := fun fd below free => room ⟨fd, below, free⟩
      exact ⟨.acceptFails, _, rfl, by
        simp only [step, Act.client, serverStep, pc, backlog, if_pos (Or.inr full)]; rfl⟩
  | clients set i =>
    rw [pc] at due
    cases here : reported s set i with
    | none => exact ⟨.next, _, rfl, by simp only [step, Act.client, serverStep, pc, here]; rfl⟩
    | some slot =>
      obtain ⟨used, member⟩ := reportedUsed here
      obtain ⟨c, live, ripe⟩ := due slot (Nat.le_of_eq (reportedIs here).symm) used member
      suffices answers : ∃ t, recvStep s set slot c 1 = some t by
        obtain ⟨t, moved⟩ := answers
        exact ⟨.recv 1, t, rfl, by
          simp only [step, Act.client, serverStep, pc, here, Option.bind_some, live, moved]; rfl⟩
      unfold recvStep
      by_cases reset : (s.peer c).reset = true
      · exact ⟨_, if_pos reset⟩
      · by_cases filled : (s.peer c).inbox ≠ []
        · have length := List.length_pos_iff.mpr filled
          exact ⟨_, by
            simp only [if_neg reset, if_pos filled]
            exact if_pos ⟨Nat.one_pos, by decide, length⟩⟩
        · have closed : (s.peer c).closed = true := by simp_all [Peer.ripe]
          exact ⟨_, by simp only [if_neg reset, if_neg filled]; exact if_pos closed⟩
  | send set i =>
    rw [pc] at due
    obtain ⟨⟨c, live⟩, -⟩ := due
    by_cases reset : (s.peer c).reset = true
    · exact ⟨.sendFails, _, rfl, by
        simp only [step, Act.client, serverStep, pc, live, Option.bind_some, if_pos reset]; rfl⟩
    · exact ⟨.send, _, rfl, by
        simp only [step, Act.client, serverStep, pc, live, Option.bind_some, if_neg reset]; rfl⟩

def dueTo (s : Sys) (set : List Fd) : Nat → List Fd
  | 0 => []
  | i + 1 => dueTo s set i ++ ((reported s set i).map s.arrSock).toList

def requests (host : Host) (s : Sys) : List Fd := dueTo s (ready host s) maxCountSock

theorem maxSockBound {host : Host} {s : Sys} {fd : Fd} (member : fd ∈ asked host s) :
    fd ≤ maxSock host s := by
  have largest : (host.sock :: asked host s).max? = some (maxSock host s) := List.max?_cons'
  exact (List.max?_eq_some_iff.mp largest).2 fd (List.mem_cons_of_mem _ member)

theorem dueMember {s : Sys} {set : List Fd} {slot : Slot} {i : Nat} (before : slot < i)
    (used : s.arrSock slot ≠ 0) (member : s.arrSock slot ∈ set) : s.arrSock slot ∈ dueTo s set i := by
  induction i with
  | zero => exact absurd before (Nat.not_lt_zero _)
  | succ i ih =>
    simp only [dueTo, List.mem_append]
    rcases Nat.lt_succ_iff_lt_or_eq.mp before with earlier | here
    · exact .inl (ih earlier)
    · refine .inr ?_
      have due : reported s set i = some slot := by
        subst here
        unfold reported
        rw [dif_pos slot.isLt, if_pos ⟨used, member⟩]
      rw [due]
      exact List.mem_singleton.mpr rfl

theorem entryUsed {host : Host} {s : Sys} (sane : Sane host s) {slot : Slot} {c : Conn}
    (live : s.fds (s.arrSock slot) = some c) : s.arrSock slot ≠ 0 := by
  intro zero
  rw [zero, sane.sound.zero] at live
  cases live

theorem readyMember {host : Host} {s : Sys} (sane : Sane host s) {slot : Slot} {c : Conn}
    (live : s.fds (s.arrSock slot) = some c) (ripe : (s.peer c).ripe = true) :
    s.arrSock slot ∈ ready host s := by
  have used := entryUsed sane live
  have member : s.arrSock slot ∈ asked host s := by
    refine List.mem_cons_of_mem _ (List.mem_filter.mpr ⟨?_, ?_⟩)
    · exact (List.mem_ofFn' _ _).mpr ⟨slot, rfl⟩
    · exact decide_eq_true (Nat.pos_of_ne_zero used)
  have reads : readable host s (s.arrSock slot) = true := by
    unfold readable
    rw [if_neg (entryNotListening sane used), live]
    exact ripe
  have bound := Nat.lt_succ_of_le (maxSockBound member)
  refine List.mem_filter.mpr ⟨member, ?_⟩
  rw [reads, Bool.and_true]
  exact decide_eq_true bound

theorem requestsMember {host : Host} {s : Sys} (sane : Sane host s) {slot : Slot} {c : Conn}
    (live : s.fds (s.arrSock slot) = some c) (ripe : (s.peer c).ripe = true) :
    s.arrSock slot ∈ requests host s :=
  dueMember slot.isLt (entryUsed sane live) (readyMember sane live ripe)

def Serves (host : Host) (fd : Fd) (calls : List Call) : Prop :=
  calls = [.recv fd (some []), .close fd] ∨
    ∃ piece, piece ≠ [] ∧ calls = [.recv fd (some piece), .send fd (bufSend host)]

def ServedTo (host : Host) (s : Sys) (set : List Fd) (i : Nat) (calls : List Call) : Prop :=
  ∃ served, List.Forall₂ (Serves host) (dueTo s set i) served ∧ calls = s.calls ++ served.flatten

def SameFrom (s t : Sys) (set : List Fd) (i : Nat) : Prop :=
  ∀ slot : Slot, i ≤ slot →
    t.arrSock slot = s.arrSock slot ∨ s.arrSock slot = 0 ∧ t.arrSock slot ∉ set

def Pass (host : Host) (s : Sys) (set : List Fd) (t : Sys) : Prop :=
  match t.pc with
  | .accept now => now = set ∧ t.calls = s.calls ∧ t.arrSock = s.arrSock
  | .clients now i => now = set ∧ ServedTo host s set i t.calls ∧ SameFrom s t set i ∧ i ≤ maxCountSock
  | .send now i => now = set ∧ reported s set i = some i ∧ t.arrSock i = s.arrSock i ∧
      SameFrom s t set (i + 1) ∧ ∃ before got, ServedTo host s set i before ∧
        t.calls = before ++ [.recv (s.arrSock i) got] ∧
        ∀ c, t.fds (t.arrSock i) = some c → (t.peer c).reset = false →
          ∃ piece, piece ≠ [] ∧ got = some piece
  | .select => ServedTo host s set maxCountSock t.calls
  | _ => True

theorem sameReported {s t : Sys} {set : List Fd} {i : Nat} (same : SameFrom s t set i) :
    reported t set i = reported s set i := by
  unfold reported
  split
  · rename_i inside
    rcases same ⟨i, inside⟩ (Nat.le_refl _) with kept | ⟨free, outside⟩
    · rw [kept]
    · rw [if_neg (fun both => outside both.2), if_neg (fun both => both.1 free)]
  · rfl

theorem servedOne {host : Host} {s : Sys} {set : List Fd} {i : Nat} {slot : Slot}
    {calls more : List Call} (served : ServedTo host s set i calls)
    (here : reported s set i = some slot) (serves : Serves host (s.arrSock slot) more) :
    ServedTo host s set (i + 1) (calls ++ more) := by
  obtain ⟨parts, each, rfl⟩ := served
  refine ⟨parts ++ [more], ?_, by simp⟩
  simp only [dueTo, here, Option.map_some, Option.toList_some]
  exact List.rel_append each (.cons serves .nil)

theorem servedNone {host : Host} {s : Sys} {set : List Fd} {i : Nat} {calls : List Call}
    (served : ServedTo host s set i calls) (here : reported s set i = none) :
    ServedTo host s set (i + 1) calls := by
  obtain ⟨parts, each, rfl⟩ := served
  refine ⟨parts, ?_, rfl⟩
  simpa only [dueTo, here, Option.map_none, Option.toList_none, List.append_nil] using each

theorem passClient {host : Host} {s t u : Sys} {set : List Fd} {a : Act} (sane : Sane host t)
    (pass : Pass host s set t) (taken : clientStep t a = some u) : Pass host s set u := by
  have grows := clientGrows taken
  unfold Pass at pass ⊢
  rw [grows.pc, grows.calls, grows.arrSock]
  cases pc : t.pc with
  | send now i =>
    rw [pc] at pass
    obtain ⟨same, here, entry, later, before, got, served, calls, piece⟩ := pass
    refine ⟨same, here, entry, ?_, before, got, served, calls, fun c live alive => ?_⟩
    · unfold SameFrom
      rw [grows.arrSock]
      exact later
    · rw [grows.fds] at live
      refine piece c live ?_
      cases reset : (t.peer c).reset with
      | false => rfl
      | true =>
        rw [grows.reset c (sane.conns.known _ c live) reset] at alive
        cases alive
  | clients now i =>
    rw [pc] at pass
    obtain ⟨same, served, later, bound⟩ := pass
    refine ⟨same, served, ?_, bound⟩
    unfold SameFrom
    rw [grows.arrSock]
    exact later
  | accept now =>
    rw [pc] at pass
    exact pass
  | select =>
    rw [pc] at pass
    exact pass
  | _ => trivial

theorem dueFound {s t : Sys} {set : List Fd} {slot : Slot} (same : SameFrom s t set slot)
    (due : reported t set slot = some slot) :
    reported s set slot = some slot ∧ t.arrSock slot = s.arrSock slot := by
  have first : reported s set slot = some slot := (sameReported same).symm.trans due
  refine ⟨first, ?_⟩
  rcases same slot (Nat.le_refl _) with kept | ⟨free, -⟩
  · exact kept
  · exact absurd free (reportedUsed first).1

theorem passDue {host : Host} {s t : Sys} {set now : List Fd} {slot : Slot}
    (pass : Pass host s set t) (pc : t.pc = .clients now slot)
    (due : reported t now slot = some slot) :
    now = set ∧ ServedTo host s set slot t.calls ∧ SameFrom s t set slot ∧
      reported s set slot = some slot ∧ t.arrSock slot = s.arrSock slot := by
  unfold Pass at pass
  rw [pc] at pass
  obtain ⟨rfl, served, same, -⟩ := pass
  exact ⟨rfl, served, same, dueFound same due⟩

theorem sameLater {s t : Sys} {set : List Fd} {i : Nat} (same : SameFrom s t set i) :
    SameFrom s t set (i + 1) := fun slot above => same slot (Nat.le_of_succ_le above)

theorem passAccept {host : Host} {s t : Sys} {set : List Fd} {newsock : Fd} {c : Conn}
    {rest : List Conn} (sane : Sane host t) (pass : Pass host s set t) {now : List Fd}
    (pc : t.pc = .accept now) (free : freeFd host t newsock) :
    Pass host s set (insert (t.opened now newsock c rest) newsock) := by
  have due := sane.due
  unfold Due at due
  unfold Pass at pass
  rw [pc] at due pass
  obtain ⟨rfl, calls, table⟩ := pass
  obtain ⟨fds, stored⟩ := insertTable (t.opened now newsock c rest) newsock
  obtain ⟨-, -, -, peer, kept⟩ := insertFrame (t.opened now newsock c rest) newsock
  have outside := (acceptLater sane ⟨rfl, free, ⟨c, fds⟩, stored⟩ peer due.2).1
  unfold Pass
  rw [acceptedAt]
  refine ⟨rfl, ⟨[], .nil, ?_⟩, fun slot _ => ?_, Nat.zero_le _⟩
  · rw [kept, List.flatten_nil, List.append_nil]
    exact calls
  · rcases stored with ⟨i, free, table'⟩ | ⟨-, table'⟩
    · by_cases mine : slot = i
      · refine .inr ⟨?_, ?_⟩
        · rw [← table, mine]
          exact freeSlotUnused free
        · rw [table', mine, Function.update_self]
          exact outside
      · rw [table', Function.update_of_ne mine]
        exact .inl (congrFun table slot)
    · rw [table']
      exact .inl (congrFun table slot)

theorem passNext {host : Host} {s t : Sys} {set now : List Fd} {i : Nat}
    (pass : Pass host s set t) (pc : t.pc = .clients now i) (quiet : reported t now i = none) :
    Pass host s set {t with pc := if i < maxCountSock then .clients now (i + 1) else .select} := by
  unfold Pass at pass
  rw [pc] at pass
  obtain ⟨rfl, served, same, bound⟩ := pass
  have next := servedNone served ((sameReported same).symm.trans quiet)
  unfold Pass
  by_cases more : i < maxCountSock
  · simp only [if_pos more]
    exact ⟨trivial, next, sameLater same, more⟩
  · simp only [if_neg more]
    cases Nat.le_antisymm bound (Nat.le_of_not_lt more)
    exact served

theorem passServer {host : Host} {s t u : Sys} {set : List Fd} {a : Act} (sane : Sane host t)
    (pass : Pass host s set t) (inside : a ≠ .select) (moves : Moves host t a u) :
    Pass host s set u := by
  cases moves with
  | select pc => exact absurd rfl inside
  | accept pc backlog free => exact passAccept sane pass pc free
  | next pc quiet => exact passNext pass pc quiet
  | @recvFails now slot c count pc due live reset =>
    obtain ⟨rfl, served, same, first, entry⟩ := passDue pass pc due
    refine ⟨rfl, first, entry, sameLater same, t.calls, none, served, by rw [← entry]; rfl, ?_⟩
    intro d here alive
    cases Option.some.inj (here.symm.trans live)
    exact absurd (reset.symm.trans alive) Bool.noConfusion
  | @recvs now slot c count pc due live filled positive =>
    obtain ⟨rfl, served, same, first, entry⟩ := passDue pass pc due
    refine ⟨rfl, first, entry, sameLater same, t.calls, _, served, by rw [← entry]; rfl, ?_⟩
    intro d _ _
    refine ⟨_, ?_, rfl⟩
    rw [← List.length_pos_iff, List.length_take]
    exact Nat.lt_min.mpr ⟨positive, List.length_pos_iff.mpr filled⟩
  | @disconnects now slot c count pc due live =>
    obtain ⟨rfl, served, same, first, entry⟩ := passDue pass pc due
    refine ⟨rfl, servedOne served first (.inl (by rw [← entry])), fun other above => ?_, slot.isLt⟩
    have apart : other ≠ slot := by
      rintro rfl
      exact absurd above (Nat.not_succ_le_self _)
    simp only [disconnect, Function.update_of_ne apart]
    exact sameLater same other above
  | @send now i c pc live alive =>
    unfold Pass at pass
    rw [pc] at pass
    obtain ⟨rfl, due, entry, later, before, got, served, calls, piece⟩ := pass
    obtain ⟨bytes, filled, rfl⟩ := piece c live alive
    have whole := servedOne served due (.inr ⟨bytes, filled, rfl⟩)
    refine ⟨rfl, ?_, later, i.isLt⟩
    simpa [calls, entry] using whole
  | selectFails | acceptFails | sendFails | sigpipe => trivial

theorem passBegins {host : Host} {s u : Sys} (taken : step host s .select = some u) :
    Pass host s (ready host s) u := by
  have moved : serverStep host s .select = some u := taken
  simp only [serverStep] at moved
  split at moved
  · split at moved
    · cases moved
    · cases moved
      unfold Pass
      by_cases listening : host.sock ∈ ready host s
      · simp only [if_pos listening]
        exact ⟨trivial, trivial, trivial⟩
      · simp only [if_neg listening]
        exact ⟨trivial, ⟨[], .nil, by simp⟩, fun slot _ => .inl rfl, Nat.zero_le _⟩
  · cases moved

theorem passKept {host : Host} {s t u : Sys} {set : List Fd} {a : Act} (sane : Sane host t)
    (pass : Pass host s set t) (inside : a ≠ .select) (taken : step host t a = some u) :
    Pass host s set u := by
  unfold step at taken
  split at taken
  · exact passClient sane pass taken
  · exact passServer sane pass inside (serverMoved taken)

def Welcomed (c : Conn) (set : List Fd) (t : Sys) : Prop :=
  match t.pc with
  | .accept now => now = set ∧ t.backlog.head? = some c
  | .clients now _ | .send now _ => now = set ∧ ∃ fd, fd ∉ set ∧ t.fds fd = some c
  | .select => ∃ fd, t.fds fd = some c
  | _ => True

theorem backlogReady {host : Host} {s : Sys} (filled : s.backlog ≠ []) : host.sock ∈ ready host s := by
  have someone : s.backlog.isEmpty = false := Bool.eq_false_iff.mpr (mt List.isEmpty_iff.mp filled)
  refine List.mem_filter.mpr ⟨List.mem_cons_self, ?_⟩
  have bound := Nat.lt_succ_of_le (@maxSockBound host s host.sock List.mem_cons_self)
  rw [readable, if_pos rfl, someone, decide_eq_true bound]
  rfl

theorem welcomeBegins {host : Host} {s u : Sys} {c : Conn} (waits : s.backlog.head? = some c)
    (taken : step host s .select = some u) : Welcomed c (ready host s) u := by
  have listening : host.sock ∈ ready host s :=
    backlogReady fun empty => by rw [empty] at waits; cases waits
  have moved : serverStep host s .select = some u := taken
  simp only [serverStep] at moved
  split at moved
  · split at moved
    · cases moved
    · cases moved
      exact ⟨rfl, waits⟩
  · cases moved

theorem welcomeGrown {s t : Sys} {c : Conn} {set : List Fd} (grows : Grows s t)
    (welcomed : Welcomed c set s) : Welcomed c set t := by
  unfold Welcomed at welcomed ⊢
  rw [grows.pc, grows.fds]
  cases pc : s.pc with
  | accept now =>
    rw [pc] at welcomed
    exact ⟨welcomed.1, grows.head c welcomed.2⟩
  | select | clients | send =>
    rw [pc] at welcomed
    exact welcomed
  | returned | killed => trivial

theorem welcomeAccept {host : Host} {t : Sys} {c : Conn} {set : List Fd} {rest : List Conn} {newsock : Fd}
    (sane : Sane host t) (pc : t.pc = .accept set) (free : freeFd host t newsock) :
    Welcomed c set (insert (t.opened set newsock c rest) newsock) := by
  have due := sane.due
  unfold Due at due
  rw [pc] at due
  obtain ⟨fds, stored⟩ := insertTable (t.opened set newsock c rest) newsock
  obtain ⟨-, -, -, peer, -⟩ := insertFrame (t.opened set newsock c rest) newsock
  have outside := (acceptLater sane ⟨rfl, free, ⟨c, fds⟩, stored⟩ peer due.2).1
  unfold Welcomed
  rw [acceptedAt]
  refine ⟨rfl, newsock, outside, ?_⟩
  rw [fds]
  exact Function.update_self _ _ _

theorem welcomeKept {host : Host} {t u : Sys} {c : Conn} {set : List Fd} {a : Act} (sane : Sane host t)
    (welcomed : Welcomed c set t) (inside : a ≠ .select) (taken : step host t a = some u) :
    Welcomed c set u := by
  unfold step at taken
  split at taken
  · exact welcomeGrown (clientGrows taken) welcomed
  · unfold Welcomed at welcomed
    cases serverMoved taken with
    | select pc => exact absurd rfl inside
    | accept pc backlog free =>
      rw [pc] at welcomed
      obtain ⟨rfl, waits⟩ := welcomed
      rw [backlog, List.head?_cons, Option.some.injEq] at waits
      subst waits
      exact welcomeAccept sane pc free
    | @next now i pc quiet =>
      rw [pc] at welcomed
      obtain ⟨same, fd, outside, live⟩ := welcomed
      unfold Welcomed
      by_cases more : i < maxCountSock
      · simp only [if_pos more]
        exact ⟨same, fd, outside, live⟩
      · simp only [if_neg more]
        exact ⟨fd, live⟩
    | recvFails pc | recvs pc | send pc =>
      rw [pc] at welcomed
      exact welcomed
    | @disconnects now slot d count pc reports live =>
      rw [pc] at welcomed
      obtain ⟨rfl, fd, outside, opened⟩ := welcomed
      refine ⟨rfl, fd, outside, ?_⟩
      have apart : fd ≠ t.arrSock slot := by
        rintro rfl
        exact outside (reportedUsed reports).2
      simp only [disconnect, Function.update_of_ne apart]
      exact opened
    | selectFails | acceptFails | sendFails | sigpipe => trivial

def stepsLeft : Pc → Nat
  | .accept _ => 2 * maxCountSock + 2
  | .clients _ i => 2 * (maxCountSock - i) + 1
  | .send _ i => 2 * (maxCountSock - i)
  | .select | .returned _ | .killed => 0

theorem passShortens {host : Host} {s t : Sys} {a : Act} (inside : s.pc ≠ .select)
    (running : ¬ Stopped t) (server : a.client = false) (taken : step host s a = some t) :
    stepsLeft t.pc < stepsLeft s.pc := by
  rw [step, server] at taken
  cases serverMoved taken with
  | select pc => exact absurd pc inside
  | @accept set newsock c rest pc backlog free =>
    rw [acceptedAt, pc]
    exact Nat.lt_succ_self _
  | @next set i pc quiet =>
    rw [pc]
    by_cases more : i < maxCountSock
    · simp only [if_pos more, stepsLeft]
      omega
    · simp only [if_neg more, stepsLeft]
      omega
  | @recvFails set slot c count pc | @recvs set slot c count pc | @disconnects set slot c count pc =>
    have bound := slot.isLt
    rw [pc]
    simp only [message, disconnect, stepsLeft]
    omega
  | @send set i c pc live alive =>
    have bound := i.isLt
    rw [pc]
    simp only [stepsLeft]
    omega
  | selectFails | acceptFails | sendFails => exact absurd (.inr ⟨-1, rfl⟩) running
  | sigpipe => exact absurd (.inl rfl) running

end OsLabs.SelectServer
