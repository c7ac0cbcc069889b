import OsLabs.InfoFromFile
import OsLabs.ReusedBuffer
import OsLabs.Runs
import OsLabs.TextColumns

/-! server.c and client.c of part1 of lab_08: one client after the other, over a socket
file that outlives the process which bound it. Servers are started and clients come at any
time; every system call is one step, with the code up to the next. A server that ends takes
its connections with it; what it has sent can still be read. -/
namespace OsLabs.SocketServer
open CMemory ReusedBuffer Runs
open ProcInfo (textBytes)
open TextColumns (decimalText)

abbrev Conn := Nat

def maxMsgLen : Nat := 128

/- The number of descriptors a process may have, the connections that may wait, the pid. -/
structure Host where
  limit : Nat
  backlog : Nat
  pid : Nat

structure Args where
  pid : Nat
  ctime : List Byte
  argv1 : Option (List Byte)
  plain : 0 ∉ ctime ++ argv1.getD []

def messageHead (args : Args) : List Byte :=
  textBytes "\nPID: " ++ decimalText args.pid ++ textBytes "\nTime: " ++ args.ctime ++
    textBytes " Message: "

def messageTail (args : Args) : List Byte := args.argv1.getD (textBytes "Tsvetkov IU7-63B\n")

/- The string in buf; undefined where sprintf or strcat writes behind it. -/
def createMessage (args : Args) : Option (List Byte) :=
  if (messageHead args).length < maxMsgLen then
    if (messageHead args).length + (messageTail args).length < maxMsgLen then
      some (messageHead args ++ messageTail args)
    else none
  else none

def answerBytes (host : Host) : List Byte :=
  textBytes "\nServer Answer - PID: " ++ decimalText host.pid ++ [10, 0]

inductive Place where
  | absent
  | connected
  | waiting
  | done (heard : List Byte)
  | dead
  deriving DecidableEq, Repr

def Place.closed : Place → Bool
  | .done _ | .dead => true
  | _ => false

/- `life` numbers the server it is connected to; `inbox` has been sent and not received,
`answer` the other way round. -/
structure Client where
  place : Place
  life : Nat
  message : List Byte
  inbox : List Byte
  answer : List Byte

inductive Pc where
  | accept
  | recv (c : Conn)
  | send (c : Conn)
  | print (c : Conn)
  deriving DecidableEq, Repr

/- Connections wait in `pending`; the sockets that accept gave out are never closed. -/
structure Server where
  pc : Pc
  pending : List Conn
  held : List Conn
  buf : Mem

/- `answered`, `log` and `cleanups` are histories: who has been sent an answer, what has been
printed for whom, how often the socket file has been removed. -/
structure Sys where
  file : Bool
  server : Option Server
  life : Nat
  client : Conn → Client
  answered : List Conn
  log : List (Conn × List Byte)
  cleanups : Nat

def boot : Sys := ⟨false, none, 0, fun _ => ⟨.absent, 0, [], [], []⟩, [], [], 0⟩

inductive Act where
  | starts (stack : Mem)
  | listenFails
  | connects (c : Conn) (args : Args)
  | sends (c : Conn)
  | receives (c : Conn) (k : Nat)
  | killed (c : Conn)
  | accept
  | acceptFails
  | recv (k : Nat)
  | recvFails
  | send
  | sendFails
  | print
  | sigint
  | serverKilled

def Sys.setClient (s : Sys) (c : Conn) (client : Client) : Sys :=
  {s with client := Function.update s.client c client}

def Sys.live (s : Sys) (c : Conn) : Bool := s.server.isSome && decide ((s.client c).life = s.life)

def Sys.stop (s : Sys) : Sys := {s with server := none}

def clientStep (host : Host) (s : Sys) : Act → Option Sys
  | .connects c args =>
      if (s.client c).place = .absent then
        (createMessage args).bind (fun message => match s.server with
          | none => some (s.setClient c ⟨.dead, s.life, message, [], []⟩)
          | some v =>
              if v.pending.length ≤ host.backlog then
                some {s.setClient c ⟨.connected, s.life, message, [], []⟩ with
                  server := some {v with pending := v.pending ++ [c]}}
              else none)
      else none
  | .sends c =>
      let p := s.client c
      if p.place = .connected then
        if s.live c then some (s.setClient c {p with place := .waiting, inbox := p.message ++ [0]})
        else some (s.setClient c {p with place := .dead})
      else none
  | .receives c k =>
      let p := s.client c
      if p.place = .waiting then
        if p.answer ≠ [] then
          if 0 < k ∧ k ≤ p.answer.length then some (s.setClient c {p with place := .done (p.answer.take k)})
          else none
        else if s.live c then none
        else some (s.setClient c {p with place := .dead})
      else none
  | .killed c =>
      let p := s.client c
      if p.place = .connected ∨ p.place = .waiting then some (s.setClient c {p with place := .dead})
      else none
  | _ => none

def serverStep (host : Host) (s : Sys) (v : Server) : Act → Option Sys
  | .accept => match v.pc, v.pending with
      | .accept, c :: rest =>
          if 4 + v.held.length < host.limit then
            some {s with server := some {v with pc := .recv c, pending := rest, held := v.held ++ [c]}}
          else none
      | _, _ => none
  | .acceptFails => if v.pc = .accept then some s.stop else none
  | .recv k => match v.pc with
      | .recv c =>
          let p := s.client c
          if p.inbox ≠ [] then
            if 0 < k ∧ k ≤ maxMsgLen ∧ k ≤ p.inbox.length then
              some {s.setClient c {p with inbox := p.inbox.drop k} with
                server := some {v with pc := .send c, buf := overlay v.buf (p.inbox.take k)}}
            else none
          else if p.place.closed then some {s with server := some {v with pc := .send c}}
          else none
      | _ => none
  | .recvFails => match v.pc with
      | .recv c => some {s with server := some {v with pc := .send c}}
      | _ => none
  | .send => match v.pc with
      | .send c =>
          let p := s.client c
          -- SIGPIPE ends the process before send returns
          if p.place.closed then some s.stop
          else some {s.setClient c {p with answer := answerBytes host} with
            server := some {v with pc := .print c}, answered := s.answered ++ [c]}
      | _ => none
  | .sendFails => match v.pc with
      | .send _ => some s.stop
      | _ => none
  | .print => match v.pc with
      | .print c => (cstring v.buf 0 maxMsgLen).map (fun text =>
          {s with server := some {v with pc := .accept}, log := s.log ++ [(c, text)]})
      | _ => none
  | .sigint => some {s with server := none, file := false, cleanups := s.cleanups + 1}
  | .serverKilled => some s.stop
  | _ => none

/- bind fails while the file is there; a signal call that fails removes it again. -/
def step (host : Host) (s : Sys) : Act → Option Sys
  | .starts stack =>
      if s.file then some s
      else some {s with file := true, server := some ⟨.accept, [], [], stack⟩, life := s.life + 1}
  | .listenFails => if s.file then some s else some {s with file := true}
  | .connects c args => clientStep host s (.connects c args)
  | .sends c => clientStep host s (.sends c)
  | .receives c k => clientStep host s (.receives c k)
  | .killed c => clientStep host s (.killed c)
  | a => s.server.bind (fun v => serverStep host s v a)

inductive Moves (host : Host) (s : Sys) : Act → Sys → Prop where
  | bindFails {a} (whose : (∃ stack, a = .starts stack) ∨ a = .listenFails) (present : s.file = true) :
      Moves host s a s
  | starts {stack} (absent : s.file = false) : Moves host s (.starts stack)
      {s with file := true, server := some ⟨.accept, [], [], stack⟩, life := s.life + 1}
  | listenFails (absent : s.file = false) : Moves host s .listenFails {s with file := true}
  | refused {c args message} (fresh : (s.client c).place = .absent)
      (created : createMessage args = some message) (down : s.server = none) :
      Moves host s (.connects c args) (s.setClient c ⟨.dead, s.life, message, [], []⟩)
  | connects {c args message v} (fresh : (s.client c).place = .absent)
      (created : createMessage args = some message) (up : s.server = some v) :
      Moves host s (.connects c args) {s.setClient c ⟨.connected, s.life, message, [], []⟩ with
        server := some {v with pending := v.pending ++ [c]}}
  | sends {c} (place : (s.client c).place = .connected) : Moves host s (.sends c)
      (s.setClient c {s.client c with place := .waiting, inbox := (s.client c).message ++ [0]})
  | dies {a c}
      (whose : a = .sends c ∨ (∃ k, a = .receives c k ∧ (s.client c).place = .waiting) ∨ a = .killed c)
      (place : (s.client c).place = .connected ∨ (s.client c).place = .waiting) :
      Moves host s a (s.setClient c {s.client c with place := .dead})
  | receives {c k} (place : (s.client c).place = .waiting) (positive : 0 < k)
      (inside : k ≤ (s.client c).answer.length) : Moves host s (.receives c k)
      (s.setClient c {s.client c with place := .done ((s.client c).answer.take k)})
  | accept {v c rest} (up : s.server = some v) (pc : v.pc = .accept) (next : v.pending = c :: rest)
      (room : 4 + v.held.length < host.limit) : Moves host s .accept
      {s with server := some {v with pc := .recv c, pending := rest, held := v.held ++ [c]}}
  | acceptFails {v} (up : s.server = some v) (pc : v.pc = .accept) : Moves host s .acceptFails s.stop
  | recv {v c k} (up : s.server = some v) (pc : v.pc = .recv c) (filled : (s.client c).inbox ≠ []) (positive : 0 < k)
      (inside : k ≤ maxMsgLen ∧ k ≤ (s.client c).inbox.length) : Moves host s (.recv k)
      {s.setClient c {s.client c with inbox := (s.client c).inbox.drop k} with
        server := Option.some {v with pc := .send c, buf := overlay v.buf ((s.client c).inbox.take k)}}
  | recvClosed {v c k} (up : s.server = some v) (pc : v.pc = .recv c)
      (closed : (s.client c).place.closed = true) :
      Moves host s (.recv k) {s with server := some {v with pc := .send c}}
  | recvFails {v c} (up : s.server = some v) (pc : v.pc = .recv c) :
      Moves host s .recvFails {s with server := some {v with pc := .send c}}
  | send {v c} (up : s.server = some v) (pc : v.pc = .send c)
      (reads : (s.client c).place.closed = false) : Moves host s .send
      {s.setClient c {s.client c with answer := answerBytes host} with
        server := some {v with pc := .print c}, answered := s.answered ++ [c]}
  | sigpipe {v c} (up : s.server = some v) (pc : v.pc = .send c)
      (closed : (s.client c).place.closed = true) : Moves host s .send s.stop
  | sendFails {v c} (up : s.server = some v) (pc : v.pc = .send c) : Moves host s .sendFails s.stop
  | print {v c text} (up : s.server = some v) (pc : v.pc = .print c)
      (found : cstring v.buf 0 maxMsgLen = some text) : Moves host s .print
      {s with server := some {v with pc := .accept}, log := s.log ++ [(c, text)]}
  | sigint {v} (up : s.server = some v) :
      Moves host s .sigint {s with server := none, file := false, cleanups := s.cleanups + 1}
  | serverKilled {v} (up : s.server = some v) : Moves host s .serverKilled s.stop

theorem clientMoves {host : Host} {s t : Sys} {a : Act} (taken : clientStep host s a = some t) :
    Moves host s a t := by
  cases a with
  | connects c args =>
    simp only [clientStep] at taken
    split at taken
    · rename_i fresh
      obtain ⟨message, created, taken⟩ := Option.bind_eq_some_iff.mp taken
      split at taken
      · rename_i down
        cases Option.some.inj taken
        exact .refused fresh created down
      · rename_i v up
        split at taken
        · cases Option.some.inj taken
          exact .connects fresh created up
        · contradiction
    · contradiction
  | sends c =>
    simp only [clientStep] at taken
    split at taken
    · rename_i place
      split at taken
      · cases Option.some.inj taken
        exact .sends place
      · cases Option.some.inj taken
        exact .dies (.inl rfl) (.inl place)
    · contradiction
  | receives c k =>
    simp only [clientStep] at taken
    split at taken
    · rename_i place
      split at taken
      · split at taken
        · rename_i count
          cases Option.some.inj taken
          exact .receives place count.1 count.2
        · contradiction
      · split at taken
        · contradiction
        · cases Option.some.inj taken
          exact .dies (.inr (.inl ⟨k, rfl, place⟩)) (.inr place)
    · contradiction
  | killed c =>
    simp only [clientStep] at taken
    split at taken
    · rename_i place
      cases Option.some.inj taken
      exact .dies (.inr (.inr rfl)) place
    · contradiction
  | _ => contradiction

theorem serverMoves {host : Host} {s t : Sys} {v : Server} {a : Act} (up : s.server = some v)
    (taken : serverStep host s v a = some t) : Moves host s a t := by
  cases a with
  | accept =>
    simp only [serverStep] at taken
    split at taken
    · rename_i c rest pc next
      split at taken
      · rename_i room
        cases Option.some.inj taken
        exact .accept up pc next room
      · contradiction
    · contradiction
  | acceptFails =>
    simp only [serverStep] at taken
    split at taken
    · rename_i pc
      cases Option.some.inj taken
      exact .acceptFails up pc
    · contradiction
  | recv k =>
    simp only [serverStep] at taken
    split at taken
    · rename_i c pc
      split at taken
      · rename_i filled
        split at taken
        · rename_i count
          cases Option.some.inj taken
          exact .recv up pc filled count.1 count.2
        · contradiction
      · split at taken
        · rename_i closed
          cases Option.some.inj taken
          exact .recvClosed up pc closed
        · contradiction
    · contradiction
  | recvFails =>
    simp only [serverStep] at taken
    split at taken
    · rename_i c pc
      cases Option.some.inj taken
      exact .recvFails up pc
    · contradiction
  | send =>
    simp only [serverStep] at taken
    split at taken
    · rename_i c pc
      split at taken
      · rename_i closed
        cases Option.some.inj taken
        exact .sigpipe up pc closed
      · rename_i reads
        cases Option.some.inj taken
        exact .send up pc (Bool.eq_false_iff.mpr reads)
    · contradiction
  | sendFails =>
    simp only [serverStep] at taken
    split at taken
    · rename_i c pc
      cases Option.some.inj taken
      exact .sendFails up pc
    · contradiction
  | print =>
    simp only [serverStep] at taken
    split at taken
    · rename_i c pc
      obtain ⟨text, found, same⟩ := Option.map_eq_some_iff.mp taken
      cases same
      exact .print up pc found
    · contradiction
  | sigint =>
    cases Option.some.inj taken
    exact .sigint up
  | serverKilled =>
    cases Option.some.inj taken
    exact .serverKilled up
  | _ => contradiction

theorem stepMoves {host : Host} {s t : Sys} {a : Act} (taken : step host s a = some t) :
    Moves host s a t := by
  cases a with
  | starts stack =>
    simp only [step] at taken
    split at taken
    · rename_i present
      cases Option.some.inj taken
      exact .bindFails (.inl ⟨stack, rfl⟩) present
    · rename_i absent
      cases Option.some.inj taken
      exact .starts (Bool.eq_false_iff.mpr absent)
  | listenFails =>
    simp only [step] at taken
    split at taken
    · rename_i present
      cases Option.some.inj taken
      exact .bindFails (.inr rfl) present
    · rename_i absent
      cases Option.some.inj taken
      exact .listenFails (Bool.eq_false_iff.mpr absent)
  | connects | sends | receives | killed => exact clientMoves taken
  | accept | acceptFails | recv | recvFails | send | sendFails | print | sigint | serverKilled =>
    obtain ⟨v, up, taken⟩ := Option.bind_eq_some_iff.mp taken
    exact serverMoves up taken

end OsLabs.SocketServer
