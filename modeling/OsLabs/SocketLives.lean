import OsLabs.SocketService

/-! The lives of the server of part1. A server that does not end through its signal handler
leaves its socket file, and bind refuses every later one; a server never closes the sockets
it has accepted, and the number of its answers is bounded by that of its descriptors. -/
namespace OsLabs.SocketServer
open Runs

def Stale (s : Sys) : Prop := s.file = true ∧ s.server = none

def Clean (s : Sys) : Act → Prop
  | .acceptFails | .sendFails | .serverKilled => False
  | .listenFails => s.file = true
  | .send => ∀ v ∈ s.server, ∀ c ∈ v.pc.unanswered, (s.client c).place.closed = false
  | _ => True

theorem notStale {host : Host} {s : Sys} (serving : Serving host s) :
    ¬ Stale s ↔ (s.server.isSome = s.file) := by
  unfold Stale
  cases up : s.server with
  | none => cases s.file <;> simp
  | some v =>
    have present := serving.file (by rw [up]; rfl)
    simp [present]

theorem stepStale {host : Host} {s t : Sys} {a : Act} (stale : Stale s) (taken : step host s a = some t) :
    Stale t ∧ t.life = s.life ∧ t.log = s.log ∧ t.answered = s.answered := by
  obtain ⟨present, down⟩ := stale
  cases stepMoves taken with
  | bindFails | refused | sends | dies | receives => exact ⟨⟨present, down⟩, rfl, rfl, rfl⟩
  | starts absent | listenFails absent => rw [present] at absent; contradiction
  | connects _ _ up | accept up | acceptFails up | recv up | recvClosed up | recvFails up | send up
  | sigpipe up | sendFails up | print up | sigint up | serverKilled up =>
    rw [down] at up
    contradiction

theorem stepClean {host : Host} {s t : Sys} {a : Act} (serving : Serving host s) (fresh : ¬ Stale s)
    (taken : step host s a = some t) : Clean s a ∧ ¬ Stale t ∨ ¬ Clean s a ∧ Stale t := by
  have next := stepServing serving taken
  rw [notStale serving] at fresh
  rw [notStale next]
  have present : ∀ v, s.server = some v → s.file = true := fun v up => serving.file (by rw [up]; rfl)
  cases stepMoves taken with
  | @bindFails a whose there =>
    rcases whose with ⟨stack, rfl⟩ | rfl
    · exact .inl ⟨trivial, fresh⟩
    · exact .inl ⟨there, fresh⟩
  | starts => exact .inl ⟨trivial, rfl⟩
  | listenFails absent =>
    refine .inr ⟨fun there => ?_, rfl, ?_⟩
    · rw [Clean, absent] at there
      contradiction
    · rw [absent] at fresh
      exact Option.isNone_iff_eq_none.mp (by simpa using fresh)
  | refused | sends | receives => exact .inl ⟨trivial, fresh⟩
  | dies whose =>
    refine .inl ⟨?_, fresh⟩
    rcases whose with rfl | ⟨k, rfl, _⟩ | rfl <;> trivial
  | connects _ _ up | accept up | recv up | recvClosed up | recvFails up | print up =>
    exact .inl ⟨trivial, (present _ up).symm⟩
  | @send v c up pc reads =>
    refine .inl ⟨fun w mem d server => ?_, (present _ up).symm⟩
    rw [up] at mem
    cases Option.mem_some_iff.mp mem
    rw [pc] at server
    rw [List.mem_singleton.mp server]
    exact reads
  | @sigpipe v c up pc closed =>
    refine .inr ⟨fun clean => ?_, present _ up, rfl⟩
    have reads := clean v up c (by rw [pc]; exact List.mem_singleton.mpr rfl)
    rw [closed] at reads
    contradiction
  | acceptFails up | sendFails up | serverKilled up => exact .inr ⟨id, present _ up, rfl⟩
  | sigint => exact .inl ⟨trivial, rfl⟩

theorem staleForever (host : Host) :
    (∀ labels last, Run (step host) (fun _ _ => True) boot labels last →
      (¬ Stale last ↔ Run (step host) Clean boot labels last)) ∧
    (∀ s labels t, Stale s → Run (step host) (fun _ _ => True) s labels t →
      Stale t ∧ t.life = s.life ∧ t.log = s.log ∧ t.answered = s.answered) := by
  constructor
  · intro labels last run
    exact runSticky (fun s => Serving host s ∧ ¬ Stale s) Stale (fun s inv => inv.2)
      (fun s a u inv _ taken => (stepClean inv.1 inv.2 taken).imp_left
        (fun both => ⟨both.1, stepServing inv.1 taken, both.2⟩))
      (fun s a u stale _ taken => (stepStale stale taken).1) run
      ⟨bootServing host, fun stale => by cases stale.1⟩
  · intro s labels t stale run
    refine runInvariant (fun u => Stale u ∧ u.life = s.life ∧ u.log = s.log ∧ u.answered = s.answered)
      (fun u a w inv _ taken => ?_) run ⟨stale, rfl, rfl, rfl⟩
    obtain ⟨stale, life, log, answered⟩ := inv
    obtain ⟨next, sameLife, sameLog, same⟩ := stepStale stale taken
    exact ⟨next, sameLife.trans life, sameLog.trans log, same.trans answered⟩

def killedServing : List Act := firstServed ++ [.serverKilled]
def neverAgain : List Act := [.starts zeroStack, .connects 2 argsA, .receives 0 4, .starts zeroStack]

theorem killedLeavesFile : ∃ s t, Run (step smallHost) (fun _ _ => True) boot killedServing s ∧ Stale s ∧
    ¬ Run (step smallHost) Clean boot killedServing s ∧
    Run (step smallHost) (fun _ _ => True) s neverAgain t ∧ Stale t ∧ t.life = 1 ∧ t.answered = [0] := by
  obtain ⟨t, both⟩ := checkedRun (step smallHost) (fun _ _ => True) boot (killedServing ++ neverAgain)
    (by decide +kernel)
  obtain ⟨s, first, second⟩ := runSplit both
  have seen : (exec (step smallHost) boot killedServing).map
      (fun s => (s.file, s.server.isNone, s.life, s.answered)) = some (true, true, 1, [0]) := by decide +kernel
  rw [runExec first, Option.map_some, Option.some.injEq] at seen
  simp only [Prod.mk.injEq] at seen
  obtain ⟨file, down, life, answered⟩ := seen
  have stale : Stale s := ⟨file, Option.isNone_iff_eq_none.mp down⟩
  obtain ⟨still, sameLife, _, same⟩ := (staleForever smallHost).2 s neverAgain t stale second
  exact ⟨s, t, first, stale, fun clean => ((staleForever smallHost).1 _ s first).mpr clean stale, second,
    still, sameLife.trans life, same.trans answered⟩

def Act.interrupts : Act → Bool
  | .sigint => true
  | _ => false

structure Bounded (host : Host) (s : Sys) : Prop where
  held : ∀ v, s.server = some v → v.held.length ≤ host.limit - 4 ∧
    s.answered.length + v.pc.unanswered.length + (host.limit - 4) ≤
      s.life * (host.limit - 4) + v.held.length
  answered : s.answered.length ≤ s.life * (host.limit - 4)
  lives : s.life ≤ s.cleanups + 1
  removed : s.file = false → s.life ≤ s.cleanups

theorem bootBounded (host : Host) : Bounded host boot :=
  ⟨nofun, Nat.zero_le _, Nat.zero_le _, fun _ => Nat.le_refl 0⟩

theorem servedBounded {host : Host} {s : Sys} {v : Server} (bounded : Bounded host s)
    (up : s.server = some v) (w : Server) (answered : List Conn)
    (held : w.held.length ≤ host.limit - 4)
    (same : answered.length + w.pc.unanswered.length + v.held.length =
      s.answered.length + v.pc.unanswered.length + w.held.length)
    (file : s.file = false → s.life ≤ s.cleanups) (client : Conn → Client)
    (log : List (Conn × List CMemory.Byte)) :
    Bounded host {s with server := some w, client := client, answered := answered, log := log} := by
  obtain ⟨room, count⟩ := bounded.held v up
  have total : answered.length + w.pc.unanswered.length + (host.limit - 4) ≤
      s.life * (host.limit - 4) + w.held.length := by omega
  refine ⟨fun u same => ?_, ?_, bounded.lives, file⟩
  · cases Option.some.inj same
    exact ⟨held, total⟩
  · show answered.length ≤ s.life * (host.limit - 4)
    omega

theorem stepBounded {host : Host} {s t : Sys} {a : Act} (bounded : Bounded host s)
    (taken : step host s a = some t) : Bounded host t := by
  have stopped : Bounded host s.stop := ⟨nofun, bounded.answered, bounded.lives, bounded.removed⟩
  cases stepMoves taken with
  | bindFails => exact bounded
  | starts absent =>
    have more : (s.life + 1) * (host.limit - 4) = s.life * (host.limit - 4) + (host.limit - 4) :=
      Nat.succ_mul _ _
    have old := bounded.answered
    refine ⟨fun v same => ?_, ?_, Nat.succ_le_succ (bounded.removed absent), nofun⟩
    · cases Option.some.inj same
      refine ⟨Nat.zero_le _, ?_⟩
      simp only [Pc.unanswered, List.length_nil, Nat.add_zero]
      omega
    · simp only
      omega
  | listenFails => exact ⟨bounded.held, bounded.answered, bounded.lives, nofun⟩
  | refused | sends | dies | receives => exact ⟨bounded.held, bounded.answered, bounded.lives, bounded.removed⟩
  | connects _ _ up =>
    refine servedBounded bounded up _ s.answered ?_ ?_ bounded.removed _ s.log
    · exact (bounded.held _ up).1
    · rfl
  | @accept v c rest up pc next room =>
    refine servedBounded bounded up _ s.answered ?_ ?_ bounded.removed s.client s.log
    · simp only [List.length_append, List.length_singleton]
      omega
    · simp only [pc, Pc.unanswered, List.length_append, List.length_singleton, List.length_nil]
      omega
  | recv up pc | recvClosed up pc | recvFails up pc =>
    refine servedBounded bounded up _ s.answered ?_ (by rw [pc]; rfl) bounded.removed _ s.log
    exact (bounded.held _ up).1
  | @send v c up pc =>
    refine servedBounded bounded up _ (s.answered ++ [c]) ?_ ?_ bounded.removed _ s.log
    · exact (bounded.held _ up).1
    · simp only [pc, Pc.unanswered, List.length_append, List.length_singleton, List.length_nil]
  | @print v c text up pc =>
    refine servedBounded bounded up _ s.answered ?_ (by rw [pc]; rfl) bounded.removed _ (s.log ++ [(c, text)])
    exact (bounded.held _ up).1
  | acceptFails | sigpipe | sendFails | serverKilled => exact stopped
  | sigint =>
    exact ⟨nofun, bounded.answered, Nat.le_succ_of_le bounded.lives, fun _ => bounded.lives⟩

theorem stepCleanups {host : Host} {s t : Sys} {a : Act} (taken : step host s a = some t) :
    t.cleanups = s.cleanups + if a.interrupts then 1 else 0 := by
  cases stepMoves taken with
  | bindFails whose => rcases whose with ⟨stack, rfl⟩ | rfl <;> rfl
  | dies whose => rcases whose with rfl | ⟨k, rfl, _⟩ | rfl <;> rfl
  | _ => rfl

theorem runCleanups {host : Host} {s t : Sys} {labels : List Act}
    (run : Run (step host) (fun _ _ => True) s labels t) :
    t.cleanups = s.cleanups + labels.countP Act.interrupts := by
  induction run with
  | nil s => rfl
  | cons meets taken tail ih =>
    rw [ih, stepCleanups taken, List.countP_cons]
    omega

theorem answersBounded (host : Host) (labels : List Act) (last : Sys)
    (run : Run (step host) (fun _ _ => True) boot labels last) :
    last.answered.length ≤ (labels.countP Act.interrupts + 1) * (host.limit - 4) ∧
    ∀ v, last.server = some v → v.held.length ≤ host.limit - 4 := by
  have bounded := runInvariant (Bounded host) (fun _ _ _ bounded _ taken => stepBounded bounded taken) run
    (bootBounded host)
  have count : last.cleanups = labels.countP Act.interrupts := by
    rw [runCleanups run]
    exact Nat.zero_add _
  refine ⟨Nat.le_trans bounded.answered (Nat.mul_le_mul_right _ ?_), fun v up => (bounded.held v up).1⟩
  rw [← count]
  exact bounded.lives

theorem twoAnswers : ∃ last, Run (step smallHost) (fun _ _ => True) boot (firstServed ++ secondServed) last ∧
    last.answered.length = 2 ∧ last.answered.length ≤ (0 + 1) * (6 - 4) := by
  obtain ⟨last, run, two⟩ := checkedEnd (step smallHost) (fun _ _ => True) boot (firstServed ++ secondServed)
    (fun s => s.answered.length) 2 (by decide +kernel)
  exact ⟨last, run, two, (answersBounded smallHost _ last run).1⟩

end OsLabs.SocketServer
