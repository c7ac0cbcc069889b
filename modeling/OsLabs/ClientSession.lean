import OsLabs.Delimited
import OsLabs.ServerPass
import Mathlib.Data.Fintype.EquivFin

/-! The clients of the select server at work. Each one connects, then types a word, sends it
with its NUL and waits in recv before it types the next. The answers reach it as a stream
too, so a part of one lets it go on. The clients stay; what they do after the server has
stopped is left out, and so is what they print. -/
namespace OsLabs.ClientSession
open SelectServer CMemory Runs Delimited

def bufsiz : Nat := 8192

structure Client where
  sent : List (List Byte)
  waiting : Bool
  answer : List Byte

structure Session where
  sys : Sys
  client : Conn → Client
  heard : List (Slot × List Byte)

def opening (stack : Buf) : Session := ⟨boot stack, fun _ => ⟨[], false, []⟩, []⟩

inductive Event where
  | connects
  | types (c : Conn) (word : List Byte)
  | hears (c : Conn) (count : Nat)
  | serves (a : Act)
  deriving DecidableEq, Repr

def Typed (word : List Byte) : Prop :=
  word ≠ [] ∧ word.length < maxLenBuf ∧ ∀ b ∈ word, b ≠ 0 ∧ isSpace b = false

instance (word : List Byte) : Decidable (Typed word) :=
  inferInstanceAs (Decidable (_ ∧ _ ∧ ∀ b ∈ word, _))

section Parts
variable (host : Host) (s : Session)

def answerBytes : List Byte := (bufSend host).toUTF8.data.toList ++ [0]

def Session.setClient (c : Conn) (client : Client) : Session :=
  {s with client := Function.update s.client c client}

def noted (a : Act) (t : Sys) : List (Slot × List Byte) := match a, t.pc with
  | .recv _, .send _ i => s.heard ++ [(i, bufText t.buf)]
  | _, _ => s.heard

def answered (a : Act) : Conn → Client := match a, s.sys.pc with
  | .send, .send _ i => match s.sys.fds (s.sys.arrSock i) with
      | some c => Function.update s.client c
          {s.client c with answer := (s.client c).answer ++ answerBytes host}
      | none => s.client
  | _, _ => s.client

end Parts

def sessionStep (host : Host) (s : Session) : Event → Option Session
  | .connects =>
      if s.sys.next < maxCountSock then
        (clientStep s.sys .connect).map (fun t => {s with sys := t})
      else none
  | .types c word =>
      if Typed word ∧ (s.client c).waiting = false then
        (clientStep s.sys (.sends c (word ++ [0]))).map (fun t =>
          {s with sys := t}.setClient c
            {s.client c with sent := (s.client c).sent ++ [word], waiting := true})
      else none
  | .hears c count =>
      if (s.client c).waiting = true ∧ 0 < count ∧ count ≤ bufsiz ∧
          count ≤ (s.client c).answer.length then
        some (s.setClient c
          {s.client c with waiting := false, answer := (s.client c).answer.drop count})
      else none
  | .serves a => (serverStep host s.sys a).map (fun t => ⟨t, answered host s a, noted s a t⟩)

def arriving (s : Sys) : Option (List Byte) := match s.pc with
  | .clients set i => (reported s set i).bind (fun slot =>
      (s.fds (s.arrSock slot)).map (fun c => (s.peer c).inbox))
  | _ => none

def Whole (s : Session) : Event → Prop
  | .serves (.recv count) => ∀ inbox ∈ arriving s.sys, count = border 0 inbox
  | _ => True

def heardAs (heard : List (Slot × List Byte)) (i : Slot) : List (List Byte) :=
  (heard.filter (fun e => decide (e.1 = i))).map Prod.snd

def Settled (host : Host) (s : Sys) : Prop := s.pc = .select ∧ ready host s = []

structure Served (host : Host) (s : Sys) : Prop where
  sane : Sane host s
  held : ¬ Leaked s
  alive : ∀ c, (s.peer c).closed = false ∧ (s.peer c).reset = false
  few : s.next ≤ maxCountSock
  queued : ¬ Stopped s → ∀ c < s.next, (∀ fd, s.fds fd ≠ some c) → c ∈ s.backlog

theorem roomLeft {host : Host} {s : Sys} (served : Served host s) {c : Conn} {rest : List Conn}
    (backlog : s.backlog = c :: rest) : (freeSlot s).isSome := by
  cases free : freeSlot s with
  | some i => rfl
  | none =>
    have taken : ∀ i : Slot, s.arrSock i ≠ 0 := by
      intro i
      have searched := List.find?_eq_none.mp free i (List.mem_finRange i)
      simpa using searched
    choose conn live using fun i => served.sane.sound.live i (taken i)
    have below : ∀ i, conn i < maxCountSock :=
      fun i => Nat.lt_of_lt_of_le (served.sane.conns.known _ _ (live i)) served.few
    have apart : Function.Injective (fun i => (⟨conn i, below i⟩ : Fin maxCountSock)) := by
      intro i j same
      have one : conn i = conn j := congrArg Fin.val same
      refine served.sane.sound.distinct i j (taken i) ?_
      exact served.sane.conns.single _ _ (conn i) (live i) (by rw [one]; exact live j)
    obtain ⟨old, fresh⟩ := served.sane.conns.waiting c (by rw [backlog]; exact List.mem_cons_self)
    obtain ⟨i, same⟩ := Finite.surjective_of_injective apart ⟨c, Nat.lt_of_lt_of_le old served.few⟩
    have here : conn i = c := congrArg Fin.val same
    exact absurd (by rw [← here]; exact live i) (fresh (s.arrSock i))

theorem bootServed (host : Host) (stack : Buf) : Served host (boot stack) := by
  refine ⟨bootSane host stack, ?_, fun _ => ⟨rfl, rfl⟩, Nat.zero_le _, ?_⟩
  · rintro ⟨fd, c, live, -⟩
    cases live
  · intro _ c below
    exact absurd below (Nat.not_lt_zero c)

theorem heldAfter {host : Host} {s t : Sys} {a : Act} (served : Served host s) (roomy : Roomy s a)
    (taken : step host s a = some t) : ¬ Leaked t := by
  rcases acceptLeaks served.sane.sound served.held taken with ⟨-, held⟩ | ⟨full, -⟩
  · exact held
  · exact absurd roomy full

theorem clientTaken {host : Host} {s t : Sys} {a : Act} (client : a.client = true)
    (taken : clientStep s a = some t) : step host s a = some t := by
  rw [step, if_pos client, taken]

theorem stoppedSame {s t : Sys} (pc : t.pc = s.pc) (running : ¬ Stopped t) : ¬ Stopped s := by
  unfold Stopped at running ⊢
  rwa [← pc]

structure Connected (s t : Sys) : Prop where
  pc : t.pc = s.pc
  arrSock : t.arrSock = s.arrSock
  fds : t.fds = s.fds
  backlog : t.backlog = s.backlog ++ [s.next]
  next : t.next = s.next + 1
  peer : t.peer = Function.update s.peer s.next ⟨[], false, false⟩

structure Sent (s t : Sys) (c : Conn) (bytes : List Byte) : Prop where
  known : c < s.next
  pc : t.pc = s.pc
  arrSock : t.arrSock = s.arrSock
  fds : t.fds = s.fds
  backlog : t.backlog = s.backlog
  next : t.next = s.next
  peer : t.peer = Function.update s.peer c {s.peer c with inbox := (s.peer c).inbox ++ bytes}

theorem connectTaken {s t : Sys} (taken : clientStep s .connect = some t) : Connected s t := by
  cases clientMoved taken with
  | connect => exact ⟨rfl, rfl, rfl, rfl, rfl, rfl⟩

theorem sendsTaken {s t : Sys} {c : Conn} {bytes : List Byte}
    (taken : clientStep s (.sends c bytes) = some t) : Sent s t c bytes := by
  cases clientMoved taken with
  | sends known filled => exact ⟨known, rfl, rfl, rfl, rfl, rfl, rfl⟩

theorem connectServed {host : Host} {s t : Sys} (served : Served host s)
    (room : s.next < maxCountSock) (taken : clientStep s .connect = some t) : Served host t := by
  have moved := @clientTaken host _ _ _ rfl taken
  obtain ⟨pc, -, fds, backlog, next, peer⟩ := connectTaken taken
  refine ⟨stepSane served.sane moved, heldAfter (a := .connect) served trivial moved, ?_, ?_, ?_⟩
  · intro c
    rw [peer, Function.update_apply]
    split
    · exact ⟨rfl, rfl⟩
    · exact served.alive c
  · rw [next]
    exact room
  · intro running c below fresh
    rw [next] at below
    rw [fds] at fresh
    rw [backlog]
    rcases Nat.lt_succ_iff_lt_or_eq.mp below with old | new
    · exact List.mem_append_left _ (served.queued (stoppedSame pc running) c old fresh)
    · rw [new]
      exact List.mem_append_right _ (List.mem_singleton_self _)

theorem sendsServed {host : Host} {s t : Sys} {c : Conn} {bytes : List Byte}
    (served : Served host s) (taken : clientStep s (.sends c bytes) = some t) : Served host t := by
  have moved := @clientTaken host _ _ _ rfl taken
  obtain ⟨-, pc, -, fds, backlog, next, peer⟩ := sendsTaken taken
  refine ⟨stepSane served.sane moved, heldAfter (a := .sends c bytes) served trivial moved, ?_, ?_, ?_⟩
  · intro d
    rw [peer, Function.update_apply]
    split
    · exact served.alive c
    · exact served.alive d
  · rw [next]
    exact served.few
  · intro running d below fresh
    rw [next] at below
    rw [fds] at fresh
    rw [backlog]
    exact served.queued (stoppedSame pc running) d below fresh

structure Received (s t : Sys) (count : Nat) (set : List Fd) (slot : Slot) (c : Conn) : Prop where
  pc : s.pc = .clients set slot
  due : reported s set slot = some slot
  live : s.fds (s.arrSock slot) = some c
  filled : (s.peer c).inbox ≠ []
  small : count ≤ maxLenBuf
  inside : count ≤ (s.peer c).inbox.length
  moved : t = message (s.setPeer c {s.peer c with inbox := (s.peer c).inbox.drop count}) set slot
    (some ((s.peer c).inbox.take count)) (received s.buf ((s.peer c).inbox.take count))

theorem recvReceived {host : Host} {s t : Sys} {count : Nat} (served : Served host s)
    (taken : serverStep host s (.recv count) = some t) : ∃ set slot c, Received s t count set slot c := by
  obtain ⟨set, slot, c, pc, due, live, moved⟩ := recvTaken taken
  obtain ⟨closed, reset⟩ := served.alive c
  simp only [recvStep] at moved
  split at moved
  · rename_i broken
    rw [reset] at broken
    cases broken
  · split at moved
    · rename_i filled
      split at moved
      · rename_i counted
        cases moved
        exact ⟨set, slot, c, pc, due, live, filled, counted.2.1, counted.2.2, rfl⟩
      · cases moved
    · split at moved
      · rename_i left
        rw [closed] at left
        cases left
      · cases moved

theorem serverPeers {host : Host} {s t : Sys} {a : Act} (moves : Moves host s a t) (c : Conn) :
    (t.peer c).closed = (s.peer c).closed ∧ (t.peer c).reset = (s.peer c).reset := by
  cases moves with
  | @accept set newsock d rest pc backlog free =>
    rw [(insertFrame (s.opened set newsock d rest) newsock).2.2.2.1]
    exact ⟨rfl, rfl⟩
  | @recvs set slot d count pc due live filled positive =>
    by_cases same : c = d
    · subst same
      simp only [message, Sys.setPeer, Function.update_self, and_self]
    · simp only [message, Sys.setPeer, Function.update_of_ne same, and_self]
  | _ => exact ⟨rfl, rfl⟩

theorem serverNext {host : Host} {s t : Sys} {a : Act} (moves : Moves host s a t) :
    t.next = s.next := by
  cases moves with
  | @accept set newsock c rest => exact (insertFrame (s.opened set newsock c rest) newsock).2.2.1
  | _ => rfl

theorem serverQueued {host : Host} {s t : Sys} {a : Act} (served : Served host s)
    (taken : serverStep host s a = some t) (running : ¬ Stopped t) {c : Conn}
    (below : c < s.next) (fresh : ∀ fd, t.fds fd ≠ some c) : c ∈ t.backlog := by
  have still : ∀ {pc : Pc}, s.pc = pc → pc ≠ .killed → (∀ code, pc ≠ .returned code) →
      ¬ Stopped s := by
    rintro pc rfl alive stays (killed | ⟨code, returned⟩)
    · exact alive killed
    · exact stays code returned
  cases serverMoved taken with
  | select pc | next pc | recvFails pc | recvs pc | send pc =>
    exact served.queued (still pc (by simp) (by simp)) c below fresh
  | selectFails => exact absurd (.inr ⟨_, rfl⟩) running
  | acceptFails => exact absurd (.inr ⟨_, rfl⟩) running
  | sendFails => exact absurd (.inr ⟨_, rfl⟩) running
  | sigpipe => exact absurd (.inl rfl) running
  | @accept set newsock d rest pc backlog free =>
    obtain ⟨fds, -⟩ := insertTable (s.opened set newsock d rest) newsock
    obtain ⟨-, left, -⟩ := insertFrame (s.opened set newsock d rest) newsock
    rw [fds] at fresh
    rw [left]
    have other : c ≠ d := by
      rintro rfl
      exact fresh newsock (Function.update_self ..)
    have before : ∀ fd, s.fds fd ≠ some c := by
      intro fd live
      have apart : fd ≠ newsock := by
        rintro rfl
        rw [free.2.2.2] at live
        cases live
      exact fresh fd ((Function.update_of_ne apart ..).trans live)
    have member := served.queued (still pc (by simp) (by simp)) c below before
    rw [backlog] at member
    exact (List.mem_cons.mp member).resolve_left other
  | @disconnects set slot d count pc due live =>
    obtain ⟨_, _, _, received⟩ := recvReceived served taken
    have pcs := congrArg Sys.pc received.moved
    cases pcs

theorem serverServed {host : Host} {s t : Sys} {a : Act} (served : Served host s)
    (taken : serverStep host s a = some t) : Served host t := by
  have moves := serverMoved taken
  have moved := serverMoves taken
  refine ⟨stepSane served.sane moved, heldAfter served ?_ moved, ?_, ?_, ?_⟩
  · cases moves with
    | accept pc backlog free => exact roomLeft served backlog
    | _ => trivial
  · intro c
    obtain ⟨closed, reset⟩ := serverPeers moves c
    rw [closed, reset]
    exact served.alive c
  · rw [serverNext moves]
    exact served.few
  · intro running c below fresh
    rw [serverNext moves] at below
    exact serverQueued served taken running below fresh

end OsLabs.ClientSession
