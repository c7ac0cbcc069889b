import Mathlib.Data.List.FinRange
import Mathlib.Logic.Function.Basic
import OsLabs.CInteger
import OsLabs.CMemory
import OsLabs.Runs

/-! The select server with its clients. Every system call of the loop is one step, with
the printing and the table update that follow it; clients connect, send, close and reset
between any two of them. A client that gives up before accept resets a connection that
still waits in the backlog. A send that blocks is a step that has not come yet. A buffer
without a NUL is printed up to its end, and a set of select holds every descriptor, which
fd_set does below FD_SETSIZE; both are left to the system here. -/
namespace OsLabs.SelectServer
open CInteger CMemory Runs

abbrev Fd := Nat
abbrev Conn := Nat

def maxCountSock : Nat := 10
def maxLenBuf : Nat := 64

abbrev Slot := Fin maxCountSock
abbrev Buf := Fin maxLenBuf → Byte

/- What the process is given by its system: the listening socket, the number of
descriptors it may have, its pid. -/
structure Host where
  sock : Fd
  limit : Nat
  pid : Nat

structure Peer where
  inbox : List Byte
  closed : Bool
  reset : Bool
  deriving DecidableEq, Repr

def Peer.ripe (p : Peer) : Bool := p.reset || !p.inbox.isEmpty || p.closed

inductive Pc where
  | select
  | accept (set : List Fd)
  | clients (set : List Fd) (i : Nat)
  | send (set : List Fd) (i : Slot)
  | returned (code : Int)
  | killed
  deriving DecidableEq, Repr

inductive Line where
  | selectFailed
  | newConnection
  | acceptFailed
  | clientNumber (i : Slot)
  | noRoom
  | disconnected (i : Slot)
  | result (i : Slot) (value : Int)
  | notNumber (i : Slot) (text : List Byte)
  | sendFailed
  deriving DecidableEq, Repr

/- The calls made on a client's socket; recv with no bytes is an orderly close, without a
result the error -1. -/
inductive Call where
  | recv (fd : Fd) (got : Option (List Byte))
  | close (fd : Fd)
  | send (fd : Fd) (text : String)
  deriving DecidableEq, Repr

structure Sys where
  pc : Pc
  arrSock : Slot → Fd
  buf : Buf
  out : List Line
  calls : List Call
  fds : Fd → Option Conn
  backlog : List Conn
  next : Conn
  peer : Conn → Peer

def boot (stack : Buf) : Sys :=
  ⟨.select, fun _ => 0, stack, [], [], fun _ => none, [], 0, fun _ => ⟨[], false, false⟩⟩

inductive Act where
  | connect
  | sends (c : Conn) (bytes : List Byte)
  | closes (c : Conn)
  | resets (c : Conn)
  | select
  | selectFails
  | accept (newsock : Fd)
  | acceptFails
  | next
  | recv (count : Nat)
  | send
  | sendFails
  | sigpipe
  deriving DecidableEq, Repr

def Act.client : Act → Bool
  | .connect | .sends _ _ | .closes _ | .resets _ => true
  | _ => false

section Atoi

def isSpace (b : Byte) : Bool := b == 32 || (9 ≤ b && b ≤ 13)
def isDigit (b : Byte) : Bool := 48 ≤ b && b ≤ 57

def decimal (digits : List Byte) : Nat :=
  digits.foldl (fun value b => 10 * value + (b.toNat - 48)) 0

/- atoi is strtol cut to int, and strtol stops at the range of long. -/
def atoi (text : List Byte) : Int :=
  let signed : Int × List Byte := match text.dropWhile isSpace with
    | 45 :: rest => (-1, rest)
    | 43 :: rest => (1, rest)
    | rest => (1, rest)
  let value := signed.1 * decimal (signed.2.takeWhile isDigit)
  toInt (max (-2^63) (min (2^63 - 1) value))

end Atoi

section Parts
variable (host : Host) (s : Sys)

def asked : List Fd := host.sock :: (List.ofFn s.arrSock).filter (fun fd => decide (0 < fd))

def maxSock : Fd := (asked host s).foldl max host.sock

def readable (fd : Fd) : Bool :=
  if fd = host.sock then !s.backlog.isEmpty
  else match s.fds fd with
    | none => false
    | some c => (s.peer c).ripe

def ready : List Fd :=
  (asked host s).filter (fun fd => decide (fd < maxSock host s + 1) && readable host s fd)

/- The process has kept its three standard descriptors. -/
def freeFd (fd : Fd) : Prop := 2 < fd ∧ fd < host.limit ∧ fd ≠ host.sock ∧ s.fds fd = none

instance (fd : Fd) : Decidable (freeFd host s fd) := inferInstanceAs (Decidable (_ ∧ _ ∧ _ ∧ _))

def freeSlot : Option Slot := (List.finRange maxCountSock).find? (fun i => decide (s.arrSock i = 0))

def bufSend : String := "\nPID сервера: " ++ toString host.pid ++ "\n"

def reported (set : List Fd) (i : Nat) : Option Slot :=
  if h : i < maxCountSock then
    if s.arrSock ⟨i, h⟩ ≠ 0 ∧ s.arrSock ⟨i, h⟩ ∈ set then some ⟨i, h⟩ else none
  else none

end Parts

def Sys.setPeer (s : Sys) (c : Conn) (p : Peer) : Sys :=
  {s with peer := Function.update s.peer c p}

def received (buf : Buf) (piece : List Byte) : Buf := fun k => piece.getD k (buf k)

def bufText (buf : Buf) : List Byte := (List.ofFn buf).takeWhile (fun b => b ≠ 0)

/- The line printed for a message; the square wraps as the product of two ints. -/
def report (i : Slot) (buf : Buf) : Line :=
  let number := atoi (bufText buf)
  if number ≠ 0 then .result i (toInt (number * number)) else .notNumber i (bufText buf)

/- The branch of recv that is not 0, an error included. -/
def message (s : Sys) (set : List Fd) (i : Slot) (got : Option (List Byte)) (buf : Buf) : Sys :=
  {s with
    pc := .send set i,
    buf := buf,
    out := s.out ++ [report i buf],
    calls := s.calls ++ [.recv (s.arrSock i) got]}

def disconnect (s : Sys) (set : List Fd) (i : Slot) : Sys :=
  {s with
    pc := .clients set (i + 1),
    out := s.out ++ [.disconnected i],
    calls := s.calls ++ [.recv (s.arrSock i) (some []), .close (s.arrSock i)],
    fds := Function.update s.fds (s.arrSock i) none,
    arrSock := Function.update s.arrSock i 0}

/- The first free entry takes the new socket; without one it is only announced. -/
def insert (s : Sys) (newsock : Fd) : Sys :=
  match freeSlot s with
  | some i => {s with arrSock := Function.update s.arrSock i newsock, out := s.out ++ [.clientNumber i]}
  | none => {s with out := s.out ++ [.noRoom]}

def clientStep (s : Sys) : Act → Option Sys
  | .connect => some {s.setPeer s.next ⟨[], false, false⟩ with
      backlog := s.backlog ++ [s.next], next := s.next + 1}
  | .sends c bytes =>
      let p := s.peer c
      if c < s.next ∧ p.closed = false ∧ p.reset = false ∧ bytes ≠ [] then
        some (s.setPeer c {p with inbox := p.inbox ++ bytes})
      else none
  | .closes c => if c < s.next then some (s.setPeer c {s.peer c with closed := true}) else none
  | .resets c => if c < s.next then some (s.setPeer c {s.peer c with reset := true}) else none
  | _ => none

def recvStep (s : Sys) (set : List Fd) (i : Slot) (c : Conn) (count : Nat) : Option Sys :=
  let p := s.peer c
  if p.reset then some (message s set i none s.buf)
  else if p.inbox ≠ [] then
    if 0 < count ∧ count ≤ maxLenBuf ∧ count ≤ p.inbox.length then
      some (message (s.setPeer c {p with inbox := p.inbox.drop count}) set i
        (some (p.inbox.take count)) (received s.buf (p.inbox.take count)))
    else none
  else if p.closed then some (disconnect s set i)
  else none

def serverStep (host : Host) (s : Sys) : Act → Option Sys
  | .select => match s.pc with
    | .select =>
        let set := ready host s
        if set = [] then none
        else some {s with pc := if host.sock ∈ set then .accept set else .clients set 0}
    | _ => none
  | .selectFails => match s.pc with
    | .select => some {s with pc := .returned (-1), out := s.out ++ [.selectFailed]}
    | _ => none
  | .accept newsock => match s.pc, s.backlog with
    | .accept set, c :: rest =>
        if freeFd host s newsock then
          some (insert {s with
            pc := .clients set 0,
            out := s.out ++ [.newConnection],
            backlog := rest,
            fds := Function.update s.fds newsock (some c)} newsock)
        else none
    | _, _ => none
  | .acceptFails => match s.pc, s.backlog with
    | .accept _, c :: rest =>
        if (s.peer c).reset = true ∨ ∀ fd < host.limit, ¬ freeFd host s fd then
          some {s with
            pc := .returned (-1), backlog := rest, out := s.out ++ [.newConnection, .acceptFailed]}
        else none
    | _, _ => none
  | .next => match s.pc with
    | .clients set i =>
        if reported s set i = none then
          some {s with pc := if i < maxCountSock then .clients set (i + 1) else .select}
        else none
    | _ => none
  | .recv count => match s.pc with
    | .clients set i => (reported s set i).bind (fun slot =>
        (s.fds (s.arrSock slot)).bind (fun c => recvStep s set slot c count))
    | _ => none
  | .send => match s.pc with
    | .send set i => (s.fds (s.arrSock i)).bind (fun c =>
        if (s.peer c).reset then none
        else some {s with
          pc := .clients set (i + 1), calls := s.calls ++ [.send (s.arrSock i) (bufSend host)]})
    | _ => none
  | .sendFails => match s.pc with
    | .send _ i => (s.fds (s.arrSock i)).bind (fun c =>
        if (s.peer c).reset then some {s with pc := .returned (-1), out := s.out ++ [.sendFailed]}
        else none)
    | _ => none
  | .sigpipe => match s.pc with
    | .send _ i => (s.fds (s.arrSock i)).bind (fun c =>
        if (s.peer c).reset then some {s with pc := .killed} else none)
    | _ => none
  | _ => none

def step (host : Host) (s : Sys) (a : Act) : Option Sys :=
  if a.client then clientStep s a else serverStep host s a

def Sys.opened (s : Sys) (set : List Fd) (newsock : Fd) (c : Conn) (rest : List Conn) : Sys :=
  {s with
    pc := .clients set 0,
    out := s.out ++ [.newConnection],
    backlog := rest,
    fds := Function.update s.fds newsock (some c)}

inductive Moves (host : Host) (s : Sys) : Act → Sys → Prop where
  | select (pc : s.pc = .select) : Moves host s .select {s with
      pc := if host.sock ∈ ready host s then .accept (ready host s) else .clients (ready host s) 0}
  | selectFails : Moves host s .selectFails
      {s with pc := .returned (-1), out := s.out ++ [.selectFailed]}
  | accept {set newsock c rest} (pc : s.pc = .accept set) (backlog : s.backlog = c :: rest)
      (free : freeFd host s newsock) :
      Moves host s (.accept newsock) (insert (s.opened set newsock c rest) newsock)
  | acceptFails {set c rest} (pc : s.pc = .accept set) (backlog : s.backlog = c :: rest)
      (cause : (s.peer c).reset = true ∨ ∀ fd < host.limit, ¬ freeFd host s fd) :
      Moves host s .acceptFails {s with
        pc := .returned (-1), backlog := rest, out := s.out ++ [.newConnection, .acceptFailed]}
  | next {set i} (pc : s.pc = .clients set i) (quiet : reported s set i = none) :
      Moves host s .next
        {s with pc := if i < maxCountSock then .clients set (i + 1) else .select}
  | recvFails {set} {slot : Slot} {c count} (pc : s.pc = .clients set slot)
      (due : reported s set slot = some slot) (live : s.fds (s.arrSock slot) = some c)
      (reset : (s.peer c).reset = true) :
      Moves host s (.recv count) (message s set slot none s.buf)
  | recvs {set} {slot : Slot} {c count} (pc : s.pc = .clients set slot)
      (due : reported s set slot = some slot) (live : s.fds (s.arrSock slot) = some c)
      (filled : (s.peer c).inbox ≠ []) (positive : 0 < count) :
      Moves host s (.recv count) (message
        (s.setPeer c {s.peer c with inbox := (s.peer c).inbox.drop count}) set slot
        (some ((s.peer c).inbox.take count)) (received s.buf ((s.peer c).inbox.take count)))
  | disconnects {set} {slot : Slot} {c count} (pc : s.pc = .clients set slot)
      (due : reported s set slot = some slot) (live : s.fds (s.arrSock slot) = some c) :
      Moves host s (.recv count) (disconnect s set slot)
  | send {set i c} (pc : s.pc = .send set i) (live : s.fds (s.arrSock i) = some c)
      (alive : (s.peer c).reset = false) :
      Moves host s .send {s with
        pc := .clients set (i + 1), calls := s.calls ++ [.send (s.arrSock i) (bufSend host)]}
  | sendFails {set i c} (pc : s.pc = .send set i) (live : s.fds (s.arrSock i) = some c)
      (reset : (s.peer c).reset = true) :
      Moves host s .sendFails {s with pc := .returned (-1), out := s.out ++ [.sendFailed]}
  | sigpipe {set i c} (pc : s.pc = .send set i) (live : s.fds (s.arrSock i) = some c)
      (reset : (s.peer c).reset = true) : Moves host s .sigpipe {s with pc := .killed}

inductive ClientMoves (s : Sys) : Act → Sys → Prop where
  | connect : ClientMoves s .connect {s.setPeer s.next ⟨[], false, false⟩ with
      backlog := s.backlog ++ [s.next], next := s.next + 1}
  | sends {c bytes} (known : c < s.next) (filled : bytes ≠ []) : ClientMoves s (.sends c bytes)
      (s.setPeer c {s.peer c with inbox := (s.peer c).inbox ++ bytes})
  | closes {c} (known : c < s.next) :
      ClientMoves s (.closes c) (s.setPeer c {s.peer c with closed := true})
  | resets {c} (known : c < s.next) :
      ClientMoves s (.resets c) (s.setPeer c {s.peer c with reset := true})

theorem clientMoved {s t : Sys} {a : Act} (taken : clientStep s a = some t) : ClientMoves s a t := by
  cases a with
  | connect =>
    cases taken
    exact .connect
  | sends c bytes =>
    simp only [clientStep] at taken
    split at taken
    · rename_i allowed
      cases taken
      exact .sends allowed.1 allowed.2.2.2
    · cases taken
  | closes c =>
    simp only [clientStep] at taken
    split at taken
    · cases taken
      exact .closes ‹_›
    · cases taken
  | resets c =>
    simp only [clientStep] at taken
    split at taken
    · cases taken
      exact .resets ‹_›
    · cases taken
  | _ => cases taken

theorem reportedIs {s : Sys} {set : List Fd} {i : Nat} {slot : Slot}
    (due : reported s set i = some slot) : slot.val = i := by
  unfold reported at due
  split at due
  · split at due
    · cases due
      rfl
    · cases due
  · cases due

theorem recvTaken {host : Host} {s t : Sys} {count : Nat}
    (taken : serverStep host s (.recv count) = some t) : ∃ (set : List Fd) (slot : Slot) (c : Conn),
      s.pc = .clients set slot ∧ reported s set slot = some slot ∧
        s.fds (s.arrSock slot) = some c ∧ recvStep s set slot c count = some t := by
  simp only [serverStep] at taken
  split at taken
  · rename_i set i pc
    obtain ⟨slot, due, found⟩ := Option.bind_eq_some_iff.mp taken
    obtain ⟨c, live, moved⟩ := Option.bind_eq_some_iff.mp found
    cases reportedIs due
    exact ⟨set, slot, c, pc, due, live, moved⟩
  · cases taken

theorem recvMoved {host : Host} {s t : Sys} {set : List Fd} {slot : Slot} {c count : Nat}
    (pc : s.pc = .clients set slot) (due : reported s set slot = some slot)
    (live : s.fds (s.arrSock slot) = some c) (taken : recvStep s set slot c count = some t) :
    Moves host s (.recv count) t := by
  simp only [recvStep] at taken
  split at taken
  · rename_i reset
    cases taken
    exact .recvFails pc due live reset
  · split at taken
    · rename_i filled
      split at taken
      · rename_i counted
        cases taken
        exact .recvs pc due live filled counted.1
      · cases taken
    · split at taken
      · cases taken
        exact .disconnects pc due live
      · cases taken

theorem serverMoved {host : Host} {s t : Sys} {a : Act} (taken : serverStep host s a = some t) :
    Moves host s a t := by
  cases a with
  | select =>
    simp only [serverStep] at taken
    split at taken
    · rename_i pc
      split at taken
      · cases taken
      · cases taken
        exact .select pc
    · cases taken
  | selectFails =>
    simp only [serverStep] at taken
    split at taken
    · cases taken
      exact .selectFails
    · cases taken
  | accept newsock =>
    simp only [serverStep] at taken
    split at taken
    · rename_i set c rest pc backlog
      split at taken
      · rename_i free
        cases taken
        exact .accept pc backlog free
      · cases taken
    · cases taken
  | acceptFails =>
    simp only [serverStep] at taken
    split at taken
    · rename_i set c rest pc backlog
      split at taken
      · rename_i cause
        cases taken
        exact .acceptFails pc backlog cause
      · cases taken
    · cases taken
  | next =>
    simp only [serverStep] at taken
    split at taken
    · rename_i set i pc
      split at taken
      · rename_i quiet
        cases taken
        exact .next pc quiet
      · cases taken
    · cases taken
  | recv count =>
    obtain ⟨set, slot, c, pc, due, live, moved⟩ := recvTaken taken
    exact recvMoved pc due live moved
  | send =>
    simp only [serverStep] at taken
    split at taken
    · rename_i set i pc
      obtain ⟨c, live, moved⟩ := Option.bind_eq_some_iff.mp taken
      split at moved
      · cases moved
      · rename_i alive
        cases moved
        exact .send pc live (Bool.eq_false_iff.mpr alive)
    · cases taken
  | sendFails =>
    simp only [serverStep] at taken
    split at taken
    · rename_i set i pc
      obtain ⟨c, live, moved⟩ := Option.bind_eq_some_iff.mp taken
      split at moved
      · rename_i reset
        cases moved
        exact .sendFails pc live reset
      · cases moved
    · cases taken
  | sigpipe =>
    simp only [serverStep] at taken
    split at taken
    · rename_i set i pc
      obtain ⟨c, live, moved⟩ := Option.bind_eq_some_iff.mp taken
      split at moved
      · rename_i reset
        cases moved
        exact .sigpipe pc live reset
      · cases moved
    · cases taken
  | connect | sends | closes | resets => cases taken

end OsLabs.SelectServer
