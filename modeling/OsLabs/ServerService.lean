import OsLabs.ServerPass

/-! The select server with clients that leave answers unread. A connection holds `room` of them,
and send waits until the next one fits. -/
namespace OsLabs.SelectServer
open Runs

structure Loaded where
  sys : Sys
  unread : Conn → Nat

def loaded (stack : Buf) : Loaded := ⟨boot stack, fun _ => 0⟩

inductive Deed where
  | act (a : Act)
  | reads (c : Conn)
  deriving DecidableEq, Repr

def Deed.server : Deed → Bool
  | .act a => !a.client
  | .reads _ => false

def Sys.turn (s : Sys) : Option Conn := match s.pc with
  | .accept _ => s.backlog.head?
  | .clients set i => (reported s set i).bind (fun slot => s.fds (s.arrSock slot))
  | .send _ i => s.fds (s.arrSock i)
  | _ => none

section Parts
variable (host : Host) (room : Nat) (s : Loaded)

def Blocked : Act → Prop
  | .send => ∃ c ∈ s.sys.turn, room ≤ s.unread c
  | _ => False

instance : (a : Act) → Decidable (Blocked room s a)
  | .send => inferInstanceAs (Decidable (∃ c ∈ s.sys.turn, room ≤ s.unread c))
  | .connect | .sends _ _ | .closes _ | .resets _ | .select | .selectFails | .accept _ | .acceptFails
  | .next | .recv _ | .sendFails | .sigpipe => isFalse id

def unreadAfter (a : Act) : Conn → Nat := match a, s.sys.turn with
  | .send, some c => Function.update s.unread c (s.unread c + 1)
  | _, _ => s.unread

def serviceStep : Deed → Option Loaded
  | .act a =>
      if Blocked room s a then none
      else (step host s.sys a).map (fun t => ⟨t, unreadAfter s a⟩)
  | .reads c =>
      if 0 < s.unread c then some {s with unread := Function.update s.unread c (s.unread c - 1)}
      else none

/- What main needs where it stands: an entry and a descriptor at accept, room for the answer at recv. -/
def Provided : Pc → Prop
  | .accept _ => (freeSlot s.sys).isSome ∧ ∃ fd < host.limit, freeFd host s.sys fd
  | .clients _ _ => ∀ c ∈ s.sys.turn, s.unread c < room
  | _ => True

def Unharmed : Prop :=
  (∀ c ∈ s.sys.turn, (s.sys.peer c).reset = false) ∧ Provided host room s s.sys.pc

def Calm : Deed → Prop
  | .act a => a.client = false → a ≠ .selectFails ∧ Unharmed host room s
  | .reads _ => True

instance : (pc : Pc) → Decidable (Provided host room s pc)
  | .accept _ => inferInstanceAs (Decidable (_ ∧ ∃ fd < host.limit, freeFd host s.sys fd))
  | .clients _ _ => inferInstanceAs (Decidable (∀ c ∈ s.sys.turn, s.unread c < room))
  | .select | .send _ _ | .returned _ | .killed => isTrue trivial

instance : Decidable (Unharmed host room s) :=
  inferInstanceAs (Decidable ((∀ c ∈ s.sys.turn, (s.sys.peer c).reset = false) ∧ _))

instance : (d : Deed) → Decidable (Calm host room s d)
  | .act a => inferInstanceAs (Decidable (a.client = false → a ≠ .selectFails ∧ Unharmed host room s))
  | .reads _ => isTrue trivial

end Parts

theorem serviceTaken {host : Host} {room : Nat} {s t : Loaded} {a : Act}
    (taken : serviceStep host room s (.act a) = some t) :
    step host s.sys a = some t.sys ∧ t.unread = unreadAfter s a := by
  simp only [serviceStep] at taken
  split at taken
  · cases taken
  · obtain ⟨u, moved, same⟩ := Option.map_eq_some_iff.mp taken
    cases same
    exact ⟨moved, rfl⟩

theorem readsTaken {host : Host} {room : Nat} {s t : Loaded} {c : Conn}
    (taken : serviceStep host room s (.reads c) = some t) :
    t = {s with unread := Function.update s.unread c (s.unread c - 1)} := by
  simp only [serviceStep] at taken
  split at taken
  · exact (Option.some.inj taken).symm
  · cases taken

structure Working (host : Host) (room : Nat) (s : Loaded) : Prop where
  sane : Sane host s.sys
  held : ¬ Leaked s.sys
  alive : ¬ Stopped s.sys
  fits : ∀ set i, s.sys.pc = .send set i → ∀ c ∈ s.sys.turn, s.unread c < room

theorem calmHarmless {host : Host} {room : Nat} {s : Loaded} {a : Act} {t : Sys}
    (calm : Calm host room s (.act a)) (taken : step host s.sys a = some t) : a.fatal = false := by
  by_cases client : a.client = true
  · cases a with
    | connect | sends | closes | resets => rfl
    | _ => cases client
  · obtain ⟨selects, whole, provided⟩ := calm (Bool.eq_false_iff.mpr client)
    rw [step, if_neg client] at taken
    cases serverMoved taken with
    | selectFails => exact absurd rfl selects
    | @acceptFails set c rest pc backlog cause =>
      rw [pc] at provided
      obtain ⟨-, fd, below, free⟩ := provided
      rcases cause with reset | full
      · have alive := whole c (by rw [Sys.turn, pc, backlog]; rfl)
        exact absurd (reset.symm.trans alive) Bool.noConfusion
      · exact absurd free (full fd below)
    | @sendFails set i c pc live reset | @sigpipe set i c pc live reset =>
      have alive := whole c (by rw [Sys.turn, pc]; exact live)
      exact absurd (reset.symm.trans alive) Bool.noConfusion
    | _ => rfl

theorem calmRoomy {host : Host} {room : Nat} {s : Loaded} {a : Act} {t : Sys}
    (calm : Calm host room s (.act a)) (taken : step host s.sys a = some t) : Roomy s.sys a := by
  cases a with
  | accept newsock =>
    obtain ⟨-, -, provided⟩ := calm rfl
    cases serverMoved (a := .accept newsock) taken with
    | accept pc =>
      rw [pc] at provided
      exact provided.1
  | _ => trivial

theorem actFits {host : Host} {room : Nat} {s : Loaded} {a : Act} {t : Sys} (working : Working host room s)
    (calm : Calm host room s (.act a)) (taken : step host s.sys a = some t) :
    ∀ set i, t.pc = .send set i → ∀ c ∈ t.turn, unreadAfter s a c < room := by
  intro set i sending c turn
  rw [Sys.turn, sending] at turn
  by_cases client : a.client = true
  · rw [step, if_pos client] at taken
    have grows := clientGrows taken
    have plain : unreadAfter s a = s.unread := by
      cases a with
      | connect | sends | closes | resets => rfl
      | _ => cases client
    rw [plain]
    refine working.fits set i (grows.pc ▸ sending) c ?_
    rw [Sys.turn, ← grows.pc, sending, ← grows.fds, ← grows.arrSock]
    exact turn
  · obtain ⟨-, -, provided⟩ := calm (Bool.eq_false_iff.mpr client)
    rw [step, if_neg client] at taken
    cases serverMoved taken with
    | select pc | next pc => split at sending <;> cases sending
    | accept => rw [acceptedAt] at sending; cases sending
    | disconnects | send | selectFails | acceptFails | sendFails | sigpipe => cases sending
    | @recvFails others slot d count pc due live | @recvs others slot d count pc due live =>
      cases sending
      rw [pc] at provided
      refine provided c ?_
      rw [Sys.turn, pc]
      simp only [due, Option.bind_some]
      exact turn

theorem stepWorking {host : Host} {room : Nat} {s t : Loaded} {d : Deed} (working : Working host room s)
    (calm : Calm host room s d) (taken : serviceStep host room s d = some t) : Working host room t := by
  cases d with
  | reads c =>
    cases readsTaken taken
    refine ⟨working.sane, working.held, working.alive, fun set i pc e turn => ?_⟩
    have before := working.fits set i pc e turn
    simp only [Function.update_apply]
    split
    · rename_i same
      subst same
      omega
    · exact before
  | act a =>
    obtain ⟨moved, unread⟩ := serviceTaken taken
    refine ⟨stepSane working.sane moved, ?_, ?_, ?_⟩
    · rcases acceptLeaks working.sane.sound working.held moved with ⟨-, held⟩ | ⟨full, -⟩
      · exact held
      · exact absurd (calmRoomy calm moved) full
    · exact stopsOnlyFatal working.alive (calmHarmless calm moved) moved
    · rw [unread]
      exact actFits working calm moved

theorem loadedWorking (host : Host) (room : Nat) (stack : Buf) : Working host room (loaded stack) := by
  refine ⟨bootSane host stack, ?_, ?_, fun set i pc => ?_⟩
  · rintro ⟨fd, c, live, -⟩
    cases live
  · rintro (killed | ⟨code, returned⟩)
    · cases killed
    · cases returned
  · cases pc

theorem turnsOnly {host : Host} {room : Nat} {s : Loaded} (working : Working host room s)
    (busy : s.sys.pc ≠ .select) : ∃ a t, a.client = false ∧ serviceStep host room s (.act a) = some t := by
  obtain ⟨a, t, server, moved⟩ := neverWaits working.sane working.alive busy
  have goes : ¬ Blocked room s a := by
    cases a with
    | send =>
      rintro ⟨c, turn, full⟩
      cases serverMoved (a := .send) moved with
      | send pc => exact absurd full (Nat.not_le.mpr (working.fits _ _ pc c turn))
    | _ => exact id
  refine ⟨a, ⟨t, unreadAfter s a⟩, server, ?_⟩
  rw [serviceStep, if_neg goes, moved]
  rfl

theorem selectReturns {host : Host} {room : Nat} {s : Loaded} {fd : Fd} (pc : s.sys.pc = .select)
    (member : fd ∈ ready host s.sys) : ∃ u, serviceStep host room s (.act .select) = some u := by
  have filled : ready host s.sys ≠ [] := List.ne_nil_of_mem member
  have moved : ∃ t, step host s.sys .select = some t := by
    simp only [step, Act.client, serverStep, pc, if_neg filled]
    exact ⟨_, rfl⟩
  obtain ⟨t, moved⟩ := moved
  refine ⟨⟨t, s.unread⟩, ?_⟩
  rw [serviceStep, if_neg (show ¬ Blocked room s .select from id), moved]
  rfl

theorem selectsAt {host : Host} {s t : Sys} (taken : step host s .select = some t) : s.pc = .select := by
  cases serverMoved (a := .select) taken with
  | select pc => exact pc

theorem deedShortens {host : Host} {room : Nat} {s t : Loaded} {d : Deed} (busy : s.sys.pc ≠ .select)
    (after : Working host room t) (taken : serviceStep host room s d = some t) :
    stepsLeft t.sys.pc + [d].countP Deed.server ≤ stepsLeft s.sys.pc := by
  cases d with
  | reads c =>
    cases readsTaken taken
    exact Nat.le_refl _
  | act a =>
    obtain ⟨moved, -⟩ := serviceTaken taken
    cases client : a.client with
    | true =>
      rw [step, if_pos client] at moved
      rw [(clientGrows moved).pc]
      simp [Deed.server, client]
    | false =>
      have shorter := passShortens busy after.alive client moved
      simpa [Deed.server, client] using Nat.succ_le_of_lt shorter

theorem passReturns {host : Host} {room : Nat} {s t : Loaded} {labels : List Deed}
    (run : Run (serviceStep host room) (Calm host room) s labels t) (working : Working host room s) :
    (∃ before after mid, labels = before ++ after ∧ (∀ d ∈ before, d ≠ .act .select) ∧
      Run (serviceStep host room) (Calm host room) s before mid ∧ mid.sys.pc = .select) ∨
    t.sys.pc ≠ .select ∧ stepsLeft t.sys.pc + labels.countP Deed.server ≤ stepsLeft s.sys.pc := by
  induction run with
  | nil s =>
    by_cases back : s.sys.pc = .select
    · exact .inl ⟨[], [], s, rfl, nofun, .nil s, back⟩
    · exact .inr ⟨back, Nat.le_refl _⟩
  | @cons s d u rest t calm taken tail ih =>
    by_cases back : s.sys.pc = .select
    · exact .inl ⟨[], d :: rest, s, rfl, nofun, .nil s, back⟩
    have next := stepWorking working calm taken
    have inside : d ≠ .act .select := by
      rintro rfl
      exact back (selectsAt (serviceTaken taken).1)
    have fewer := deedShortens back next taken
    rcases ih next with ⟨before, after, mid, rfl, outside, first, returned⟩ | ⟨busy, fewer'⟩
    · refine .inl ⟨d :: before, after, mid, rfl, ?_, .cons calm taken first, returned⟩
      exact List.forall_mem_cons.mpr ⟨inside, outside⟩
    · refine .inr ⟨busy, ?_⟩
      rw [List.countP_cons]
      rw [List.countP_singleton] at fewer
      omega

structure Serving (host : Host) (room : Nat) (s : Loaded) : Prop where
  alive : ¬ Stopped s.sys
  held : AllHeld host s.sys
  moves : s.sys.pc ≠ .select → ∃ a t, a.client = false ∧ serviceStep host room s (.act a) = some t
  wakes : s.sys.pc = .select → s.sys.backlog ≠ [] ∨ (∃ fd, Ripe s.sys fd) →
    ∃ u, serviceStep host room s (.act .select) = some u
  requested : ∀ fd, Ripe s.sys fd → fd ∈ requests host s.sys
  passes : ∀ u rest t, serviceStep host room s (.act .select) = some u →
    Run (serviceStep host room) (Calm host room) u rest t → 2 * maxCountSock + 2 ≤ rest.countP Deed.server →
    ∃ before after mid, rest = before ++ after ∧
      Run (serviceStep host room) (Calm host room) u before mid ∧ mid.sys.pc = .select ∧
      (∀ c ∈ s.sys.backlog.head?, ∃ fd, mid.sys.fds fd = some c) ∧
      ∃ served, List.Forall₂ (Serves host) (requests host s.sys) served ∧
        mid.sys.calls = s.sys.calls ++ served.flatten

theorem heldServes {host : Host} {s : Sys} (sane : Sane host s) (held : AllHeld host s) {fd : Fd}
    (ripe : Ripe s fd) : fd ∈ requests host s ∧ fd ∈ ready host s := by
  obtain ⟨c, live, here⟩ := ripe
  obtain ⟨⟨slot, rfl, -⟩, -⟩ := held fd c live
  exact ⟨requestsMember sane live here, readyMember sane live here⟩

theorem passServes {host : Host} {room : Nat} {s u t : Loaded} {rest : List Deed}
    (working : Working host room s) (taken : serviceStep host room s (.act .select) = some u)
    (run : Run (serviceStep host room) (Calm host room) u rest t) (outside : ∀ d ∈ rest, d ≠ .act .select)
    (back : t.sys.pc = .select) :
    (∀ c ∈ s.sys.backlog.head?, ∃ fd, t.sys.fds fd = some c) ∧
      ∃ served, List.Forall₂ (Serves host) (requests host s.sys) served ∧
        t.sys.calls = s.sys.calls ++ served.flatten := by
  obtain ⟨moved, -⟩ := serviceTaken taken
  have ended : Sane host t.sys ∧ Pass host s.sys (ready host s.sys) t.sys ∧
      ∀ c ∈ s.sys.backlog.head?, Welcomed c (ready host s.sys) t.sys := by
    refine runInvariant (fun v : Loaded => Sane host v.sys ∧ Pass host s.sys (ready host s.sys) v.sys ∧
      ∀ c ∈ s.sys.backlog.head?, Welcomed c (ready host s.sys) v.sys) ?_ (runBoth run outside)
      ⟨stepSane working.sane moved, passBegins moved, fun c waits => welcomeBegins waits moved⟩
    rintro v (a | c) w ⟨sane, pass, welcomed⟩ ⟨-, inside⟩ taken
    · obtain ⟨moved, -⟩ := serviceTaken taken
      have other : a ≠ .select := fun same => inside (congrArg Deed.act same)
      exact ⟨stepSane sane moved, passKept sane pass other moved,
        fun c waits => welcomeKept sane (welcomed c waits) other moved⟩
    · cases readsTaken taken
      exact ⟨sane, pass, welcomed⟩
  obtain ⟨-, pass, welcomed⟩ := ended
  unfold Pass at pass
  rw [back] at pass
  refine ⟨fun c waits => ?_, pass⟩
  have here := welcomed c waits
  unfold Welcomed at here
  rw [back] at here
  exact here

theorem selectCalm {host : Host} {room : Nat} {s : Loaded} (pc : s.sys.pc = .select) :
    Calm host room s (.act .select) := by
  refine fun _ => ⟨nofun, fun c turn => ?_, ?_⟩
  · rw [Sys.turn, pc] at turn
    cases turn
  · rw [pc]
    trivial

theorem stepsBound (pc : Pc) : stepsLeft pc ≤ 2 * maxCountSock + 2 := by
  cases pc <;> simp only [stepsLeft] <;> omega

theorem stepsRemain {s : Sys} (running : ¬ Stopped s) (busy : s.pc ≠ .select) : 0 < stepsLeft s.pc := by
  cases pc : s.pc with
  | select => exact absurd pc busy
  | returned code => exact absurd (.inr ⟨code, pc⟩) running
  | killed => exact absurd (.inl pc) running
  | accept set => exact Nat.succ_pos _
  | clients set i => exact Nat.succ_pos _
  | send set i =>
    have inside := i.isLt
    simp only [stepsLeft]
    omega

theorem serverServes (host : Host) (room : Nat) (stack : Buf) {labels : List Deed} {last : Loaded}
    (run : Run (serviceStep host room) (Calm host room) (loaded stack) labels last) :
    Serving host room last := by
  have working : Working host room last :=
    runInvariant (Working host room) (fun _ _ _ before calm taken => stepWorking before calm taken) run
      (loadedWorking host room stack)
  have held := (heldIff host working.sane.sound).mpr working.held
  refine ⟨working.alive, held, turnsOnly working, fun pc waits => ?_,
    fun fd ripe => (heldServes working.sane held ripe).1, fun u rest t taken after enough => ?_⟩
  · rcases waits with filled | ⟨fd, ripe⟩
    · exact selectReturns pc (backlogReady filled)
    · exact selectReturns pc (heldServes working.sane held ripe).2
  · have next := stepWorking working (selectCalm (selectsAt (serviceTaken taken).1)) taken
    rcases passReturns after next with ⟨before, later, mid, rfl, outside, first, back⟩ | ⟨busy, fewer⟩
    · exact ⟨before, later, mid, rfl, first, back, passServes working taken first outside back⟩
    · have ended : Working host room t :=
        runInvariant (Working host room) (fun _ _ _ before calm taken => stepWorking before calm taken) after next
      have longest := stepsBound u.sys.pc
      have remain := stepsRemain ended.alive busy
      omega

def visits : List Act :=
  arrival 4 ++ arrival 5 ++ [.sends 1 [53, 0], .sends 0 [55, 0], .select, .recv 2, .send, .closes 1,
    .recv 2, .send] ++ List.replicate (maxCountSock - 1) .next ++ [.select, .next, .recv 1] ++
    List.replicate (maxCountSock - 1) .next

theorem visitsServed : ∃ last,
    Run (serviceStep someHost 4) (Calm someHost 4) (loaded fun _ => 0) (visits.map .act) last ∧
    last.sys.calls = [.recv 4 (some [55, 0]), .send 4 (bufSend someHost), .recv 5 (some [53, 0]),
      .send 5 (bufSend someHost), .recv 5 (some []), .close 5] ∧ last.sys.pc = .select ∧
    Serving someHost 4 last := by
  obtain ⟨last, run, seen⟩ := checkedEnd (serviceStep someHost 4) (Calm someHost 4) (loaded fun _ => 0) (visits.map .act)
    (fun s => (s.sys.calls, s.sys.pc))
    ([.recv 4 (some [55, 0]), .send 4 (bufSend someHost), .recv 5 (some [53, 0]),
      .send 5 (bufSend someHost), .recv 5 (some []), .close 5], .select) (by decide +kernel)
  obtain ⟨calls, pc⟩ := Prod.mk.inj seen
  exact ⟨last, run, calls, pc, serverServes someHost 4 _ run⟩

def deadAnswered : List Act := arrival 4 ++ [.resets 0, .select, .recv 0, .sigpipe]

def givenUp : List Act := [.connect, .resets 0, .select, .acceptFails]

def Unstopped (acts : List Act) : Prop := ∀ host room stack last,
  Run (serviceStep host room) (fun _ _ => True) (loaded stack) (acts.map .act) last → ¬ Stopped last.sys

theorem clientStopsServer : ¬ Unstopped deadAnswered ∧ ¬ Unstopped givenUp := by
  refine ⟨fun always => ?_, fun always => ?_⟩
  · obtain ⟨last, run, stopped⟩ := checkedEnd (serviceStep someHost 4) (fun _ _ => True) (loaded fun _ => 0)
      (deadAnswered.map .act) (fun s => s.sys.pc) .killed (by decide +kernel)
    exact always _ _ _ _ run (.inl stopped)
  · obtain ⟨last, run, stopped⟩ := checkedEnd (serviceStep someHost 4) (fun _ _ => True) (loaded fun _ => 0)
      (givenUp.map .act) (fun s => s.sys.pc) (.returned (-1)) (by decide +kernel)
    exact always _ _ _ _ run (.inr ⟨-1, stopped⟩)

end OsLabs.SelectServer
