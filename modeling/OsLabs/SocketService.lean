import OsLabs.SocketServer

/-! What holds of the server of part1 across all its lives: clients are answered one after
the other in the order they came, at most once each, and nothing is printed for a client
that has no answer. -/
namespace OsLabs.SocketServer
open CMemory ReusedBuffer Runs

def Pc.unanswered : Pc → List Conn
  | .recv c | .send c => [c]
  | _ => []

def Pc.unprinted : Pc → List Conn
  | .print c => [c]
  | _ => []

def Sys.unprinted (s : Sys) : List Conn := match s.server with
  | some v => v.pc.unprinted
  | none => []

def Server.line (v : Server) : List Conn := v.held ++ v.pending

/- The line of the server that runs: those it has answered, the one it serves, those that
wait. Clients of earlier servers are not in it. -/
structure Lined (s : Sys) (v : Server) : Prop where
  apart : v.line.Nodup
  own : ∀ c ∈ v.line, (s.client c).place ≠ .absent ∧ (s.client c).life = s.life
  answered : ∃ before done, s.answered = before ++ done ∧ v.held = done ++ v.pc.unanswered ∧
    ∀ c ∈ before, (s.client c).life < s.life

structure Serving (host : Host) (s : Sys) : Prop where
  file : s.server.isSome = true → s.file = true
  lined : ∀ v, s.server = some v → Lined s v
  answered : s.answered.Nodup
  known : ∀ c ∈ s.answered, (s.client c).place ≠ .absent ∧ (s.client c).life ≤ s.life
  sent : ∀ c, (s.client c).answer = [] ∨ (s.client c).answer = answerBytes host ∧ c ∈ s.answered
  heard : ∀ c heard, (s.client c).place = .done heard →
    heard ≠ [] ∧ heard <+: answerBytes host ∧ c ∈ s.answered
  printed : (s.log.map Prod.fst ++ s.unprinted).Sublist s.answered

theorem bootServing (host : Host) : Serving host boot :=
  ⟨fun up => Bool.noConfusion up, nofun, List.nodup_nil, nofun, fun _ => .inl rfl, nofun,
    List.Sublist.slnil⟩

structure Kept (old new : Client) : Prop where
  life : new.life = old.life
  place : old.place ≠ .absent → new.place ≠ .absent

theorem setClientKept {s : Sys} {c : Conn} {client : Client} (kept : Kept (s.client c) client) (d : Conn) :
    Kept (s.client d) ((s.setClient c client).client d) := by
  by_cases here : d = c
  · subst here
    simpa only [Sys.setClient, Function.update_self] using kept
  · simp only [Sys.setClient, Function.update_of_ne here]
    exact ⟨rfl, id⟩

theorem keptLined {s t : Sys} {v : Server} (lined : Lined s v)
    (kept : ∀ c, (s.client c).place ≠ .absent → Kept (s.client c) (t.client c))
    (known : ∀ c ∈ s.answered, (s.client c).place ≠ .absent)
    (life : t.life = s.life) (answered : t.answered = s.answered) : Lined t v := by
  refine ⟨lined.apart, fun c mem => ?_, ?_⟩
  · obtain ⟨came, own⟩ := lined.own c mem
    exact ⟨(kept c came).place came, by rw [(kept c came).life, own, life]⟩
  · obtain ⟨before, done, split, held, older⟩ := lined.answered
    refine ⟨before, done, answered.trans split, held, fun c mem => ?_⟩
    have came := known c (by rw [split]; exact List.mem_append_left _ mem)
    rw [(kept c came).life, life]
    exact older c mem

theorem clientServing {host : Host} {s : Sys} {c : Conn} {client : Client} (serving : Serving host s)
    (kept : (s.client c).place ≠ .absent → Kept (s.client c) client)
    (sent : client.answer = [] ∨ client.answer = (s.client c).answer)
    (heard : ∀ heard, client.place = .done heard →
      heard ≠ [] ∧ heard <+: answerBytes host ∧ c ∈ s.answered) :
    Serving host (s.setClient c client) := by
  have all : ∀ d, (s.client d).place ≠ .absent → Kept (s.client d) ((s.setClient c client).client d) := by
    intro d came
    by_cases here : d = c
    · subst here
      simpa only [Sys.setClient, Function.update_self] using kept came
    · simp only [Sys.setClient, Function.update_of_ne here]
      exact ⟨rfl, id⟩
  refine ⟨serving.file, fun v up => ?_, serving.answered, fun d mem => ?_, fun d => ?_, fun d text place => ?_,
    serving.printed⟩
  · exact keptLined (serving.lined v up) all (fun d mem => (serving.known d mem).1) rfl rfl
  · obtain ⟨came, life⟩ := serving.known d mem
    exact ⟨(all d came).place came, by rw [(all d came).life]; exact life⟩
  · by_cases here : d = c
    · subst here
      simp only [Sys.setClient, Function.update_self]
      rcases sent with nothing | same
      · exact .inl nothing
      · rw [same]
        exact serving.sent d
    · simp only [Sys.setClient, Function.update_of_ne here]
      exact serving.sent d
  · by_cases here : d = c
    · subst here
      simp only [Sys.setClient, Function.update_self] at place
      exact heard text place
    · simp only [Sys.setClient, Function.update_of_ne here] at place
      exact serving.heard d text place

theorem serverServing {host : Host} {s : Sys} {v : Server} (serving : Serving host s)
    (up : s.server = some v) (w : Server) (log : List (Conn × List Byte)) (line : w.line = v.line)
    (held : ∀ done, v.held = done ++ v.pc.unanswered → w.held = done ++ w.pc.unanswered)
    (printed : log.map Prod.fst ++ w.pc.unprinted = s.log.map Prod.fst ++ v.pc.unprinted) :
    Serving host {s with server := some w, log := log} := by
  have lined := serving.lined v up
  refine ⟨fun _ => serving.file (by rw [up]; rfl), fun u same => ?_, serving.answered, serving.known, serving.sent,
    serving.heard, ?_⟩
  · cases Option.some.inj same
    obtain ⟨before, done, split, all, older⟩ := lined.answered
    exact ⟨line ▸ lined.apart, fun c mem => lined.own c (line ▸ mem), before, done, split, held done all, older⟩
  · have before := serving.printed
    simp only [Sys.unprinted, up] at before
    simp only [Sys.unprinted, printed]
    exact before

theorem stopServing {host : Host} {s : Sys} (serving : Serving host s) (file : Bool) (cleanups : Nat) :
    Serving host {s with server := none, file := file, cleanups := cleanups} :=
  ⟨fun up => Bool.noConfusion up, nofun, serving.answered, serving.known, serving.sent, serving.heard,
    (by simpa [Sys.unprinted] using (List.sublist_append_left _ _).trans serving.printed)⟩

theorem startsServing {host : Host} {s : Sys} (serving : Serving host s) (absent : s.file = false)
    (stack : Mem) :
    Serving host {s with file := true, server := some ⟨.accept, [], [], stack⟩, life := s.life + 1} := by
  have down : s.server = none := by
    cases up : s.server with
    | none => rfl
    | some v =>
      have present := serving.file (by rw [up]; rfl)
      rw [absent] at present
      contradiction
  refine ⟨fun _ => rfl, fun v same => ?_, serving.answered, fun c mem => ?_, serving.sent, serving.heard, ?_⟩
  · cases Option.some.inj same
    refine ⟨List.nodup_nil, nofun, s.answered, [], (List.append_nil _).symm, rfl, fun c mem => ?_⟩
    exact Nat.lt_succ_of_le (serving.known c mem).2
  · exact ⟨(serving.known c mem).1, Nat.le_succ_of_le (serving.known c mem).2⟩
  · have before := serving.printed
    simp only [Sys.unprinted, down] at before
    exact before

theorem connectsServing {host : Host} {s : Sys} {v : Server} {c : Conn} (serving : Serving host s)
    (up : s.server = some v) (fresh : (s.client c).place = .absent) (message : List Byte) :
    Serving host {s.setClient c ⟨.connected, s.life, message, [], []⟩ with
      server := some {v with pending := v.pending ++ [c]}} := by
  have next := @clientServing host s c ⟨.connected, s.life, message, [], []⟩ serving
    (fun came => absurd fresh came) (.inl rfl) nofun
  have lined := next.lined v up
  have absent : c ∉ v.line := fun mem => ((serving.lined v up).own c mem).1 fresh
  refine ⟨fun _ => next.file (by rw [Sys.setClient, up]; rfl), fun w same => ?_, next.answered, next.known,
    next.sent, next.heard, ?_⟩
  · cases Option.some.inj same
    have line : ({v with pending := v.pending ++ [c]} : Server).line = v.line ++ [c] :=
      (List.append_assoc _ _ _).symm
    refine ⟨?_, fun d mem => ?_, lined.answered⟩
    · rw [line]
      exact List.nodup_append.mpr ⟨lined.apart, List.pairwise_singleton _ _,
        fun d mem e last same => absent (by rw [List.mem_singleton.mp last] at same; exact same ▸ mem)⟩
    · rw [line, List.mem_append, List.mem_singleton] at mem
      rcases mem with old | rfl
      · exact lined.own d old
      · simp [Sys.setClient]
  · have before := serving.printed
    simp only [Sys.unprinted, up] at before
    exact before

theorem receivesServing {host : Host} {s : Sys} {c : Conn} {k : Nat} (serving : Serving host s)
    (positive : 0 < k) (inside : k ≤ (s.client c).answer.length) :
    Serving host (s.setClient c {s.client c with place := .done ((s.client c).answer.take k)}) := by
  refine clientServing serving (fun _ => ⟨rfl, nofun⟩) (.inr rfl) fun heard same => ?_
  cases same
  rcases serving.sent c with nothing | ⟨whole, mem⟩
  · rw [nothing, List.length_nil] at inside
    omega
  · refine ⟨fun empty => ?_, whole ▸ List.take_prefix k _, mem⟩
    rcases List.take_eq_nil_iff.mp empty with zero | nothing
    · omega
    · rw [nothing, List.length_nil] at inside
      omega

theorem servedNew {s : Sys} {v : Server} {c : Conn} (lined : Lined s v) (pc : v.pc = .send c) :
    c ∈ v.line ∧ c ∉ s.answered := by
  obtain ⟨before, done, split, held, older⟩ := lined.answered
  rw [pc] at held
  have served : c ∈ v.held := by
    rw [held]
    exact List.mem_append_right _ (List.mem_singleton.mpr rfl)
  have mine : c ∈ v.line := List.mem_append_left _ served
  refine ⟨mine, ?_⟩
  rw [split, List.mem_append]
  rintro (old | twice)
  · exact absurd (lined.own c mine).2 (Nat.ne_of_lt (older c old))
  · have apart := (List.nodup_append.mp lined.apart).1
    rw [held] at apart
    exact (List.nodup_append.mp apart).2.2 c twice c (List.mem_singleton.mpr rfl) rfl

theorem sendServing {host : Host} {s : Sys} {v : Server} {c : Conn} (serving : Serving host s)
    (up : s.server = some v) (pc : v.pc = .send c) :
    Serving host {s.setClient c {s.client c with answer := answerBytes host} with
      server := some {v with pc := .print c}, answered := s.answered ++ [c]} := by
  have lined := serving.lined v up
  obtain ⟨mine, new⟩ := servedNew lined pc
  obtain ⟨came, life⟩ := lined.own c mine
  obtain ⟨before, done, split, held, older⟩ := lined.answered
  rw [pc] at held
  have kept := @setClientKept s c {s.client c with answer := answerBytes host} ⟨rfl, id⟩
  have here : ∀ d, ((s.setClient c {s.client c with answer := answerBytes host}).client d).place =
      (s.client d).place := by
    intro d
    by_cases same : d = c
    · subst same
      simp only [Sys.setClient, Function.update_self]
    · simp only [Sys.setClient, Function.update_of_ne same]
  refine ⟨fun _ => serving.file (by rw [up]; rfl), fun w same => ?_, ?_, fun d mem => ?_, fun d => ?_,
    fun d heard place => ?_, ?_⟩
  · cases Option.some.inj same
    refine ⟨lined.apart, fun d mem => ?_, before, done ++ [c], ?_, ?_, fun d mem => ?_⟩
    · obtain ⟨came, own⟩ := lined.own d mem
      exact ⟨(kept d).place came, (kept d).life.trans own⟩
    · rw [split, List.append_assoc]
    · exact held.trans (List.append_nil _).symm
    · exact Nat.lt_of_le_of_lt (Nat.le_of_eq (kept d).life) (older d mem)
  · exact List.nodup_append.mpr ⟨serving.answered, List.pairwise_singleton _ _,
      fun d mem e last same => new (by rw [List.mem_singleton.mp last] at same; exact same ▸ mem)⟩
  · have known : (s.client d).place ≠ .absent ∧ (s.client d).life ≤ s.life := by
      rcases List.mem_append.mp mem with old | last
      · exact serving.known d old
      · rw [List.mem_singleton.mp last]
        exact ⟨came, Nat.le_of_eq life⟩
    exact ⟨(kept d).place known.1, Nat.le_trans (Nat.le_of_eq (kept d).life) known.2⟩
  · by_cases same : d = c
    · subst same
      simp only [Sys.setClient, Function.update_self]
      exact .inr ⟨trivial, List.mem_append_right _ (List.mem_singleton.mpr rfl)⟩
    · simp only [Sys.setClient, Function.update_of_ne same]
      exact (serving.sent d).imp_right (fun both => ⟨both.1, List.mem_append_left _ both.2⟩)
  · obtain ⟨short, cut, mem⟩ := serving.heard d heard ((here d).symm.trans place)
    exact ⟨short, cut, List.mem_append_left _ mem⟩
  · have earlier := serving.printed
    simp only [Sys.unprinted, up, pc, Pc.unprinted, List.append_nil] at earlier
    simp only [Sys.unprinted, Pc.unprinted]
    exact earlier.append (List.Sublist.refl _)

theorem stepServing {host : Host} {s t : Sys} {a : Act} (serving : Serving host s)
    (taken : step host s a = some t) : Serving host t := by
  cases stepMoves taken with
  | bindFails => exact serving
  | starts absent => exact startsServing serving absent _
  | listenFails =>
    exact ⟨fun _ => rfl, fun v up => keptLined (serving.lined v up) (fun _ _ => ⟨rfl, id⟩)
      (fun c mem => (serving.known c mem).1) rfl rfl, serving.answered, serving.known, serving.sent,
      serving.heard, serving.printed⟩
  | refused fresh => exact clientServing serving (fun came => absurd fresh came) (.inl rfl) nofun
  | connects fresh created up => exact connectsServing serving up fresh _
  | sends => exact clientServing serving (fun _ => ⟨rfl, nofun⟩) (.inr rfl) nofun
  | dies => exact clientServing serving (fun _ => ⟨rfl, nofun⟩) (.inr rfl) nofun
  | receives place positive inside => exact receivesServing serving positive inside
  | @accept v c rest up pc next room =>
    refine serverServing serving up _ s.log ?_ (fun done all => ?_) ?_
    · simp only [Server.line, next, List.append_assoc, List.singleton_append]
    · rw [pc] at all
      rw [all]
      exact congrArg (· ++ [c]) (List.append_nil done)
    · rw [pc]
      rfl
  | acceptFails => exact stopServing serving s.file s.cleanups
  | @recv v c k up pc =>
    have next := @clientServing host s c {s.client c with inbox := (s.client c).inbox.drop k} serving
      (fun _ => ⟨rfl, id⟩) (.inr rfl) (fun heard place => serving.heard c heard place)
    exact serverServing next up _ s.log rfl (fun done all => by rw [all, pc]; rfl) (by rw [pc]; rfl)
  | recvClosed up pc =>
    exact serverServing serving up _ s.log rfl (fun done all => by rw [all, pc]; rfl) (by rw [pc]; rfl)
  | recvFails up pc =>
    exact serverServing serving up _ s.log rfl (fun done all => by rw [all, pc]; rfl) (by rw [pc]; rfl)
  | send up pc => exact sendServing serving up pc
  | sigpipe => exact stopServing serving s.file s.cleanups
  | sendFails => exact stopServing serving s.file s.cleanups
  | @print v c text up pc found =>
    refine serverServing serving up _ (s.log ++ [(c, text)]) rfl (fun done all => by rw [all, pc]; rfl) ?_
    rw [pc, List.map_append]
    simp [Pc.unprinted]
  | sigint => exact stopServing serving false _
  | serverKilled => exact stopServing serving s.file s.cleanups

theorem stepLine {host : Host} {s t : Sys} {a : Act} (serving : Serving host s)
    (taken : step host s a = some t) :
    t.server = none ∧ t.life = s.life ∨ s.server = none ∧ t.life = s.life + 1 ∨
      t.life = s.life ∧ ∃ v w, s.server = some v ∧ t.server = some w ∧ v.line <+: w.line := by
  have same : t.server = s.server → t.life = s.life →
      t.server = none ∧ t.life = s.life ∨ s.server = none ∧ t.life = s.life + 1 ∨
        t.life = s.life ∧ ∃ v w, s.server = some v ∧ t.server = some w ∧ v.line <+: w.line := by
    intro server life
    cases up : s.server with
    | none => exact .inl ⟨server.trans up, life⟩
    | some v => exact .inr (.inr ⟨life, v, v, rfl, server.trans up, List.prefix_rfl⟩)
  have moved : ∀ v w, s.server = some v → t.server = some w → t.life = s.life → v.line = w.line →
      t.server = none ∧ t.life = s.life ∨ s.server = none ∧ t.life = s.life + 1 ∨
        t.life = s.life ∧ ∃ v w, s.server = some v ∧ t.server = some w ∧ v.line <+: w.line := by
    intro v w before after life line
    exact .inr (.inr ⟨life, v, w, before, after, line ▸ List.prefix_rfl⟩)
  cases stepMoves taken with
  | bindFails | listenFails | refused | sends | dies | receives => exact same rfl rfl
  | starts absent =>
    refine .inr (.inl ⟨?_, rfl⟩)
    cases up : s.server with
    | none => rfl
    | some v =>
      have present := serving.file (by rw [up]; rfl)
      rw [absent] at present
      contradiction
  | @connects c args message v fresh created up =>
    exact .inr (.inr ⟨rfl, v, _, up, rfl, [c], List.append_assoc _ _ _⟩)
  | accept up pc next =>
    exact moved _ _ up rfl rfl (by simp only [Server.line, next, List.append_assoc, List.singleton_append])
  | recv up | recvClosed up | recvFails up | send up | print up => exact moved _ _ up rfl rfl rfl
  | acceptFails | sigpipe | sendFails | sigint | serverKilled => exact .inl ⟨rfl, rfl⟩

theorem servesInOrder (host : Host) (early late : List Act) (s t : Sys)
    (first : Run (step host) (fun _ _ => True) boot early s)
    (second : Run (step host) (fun _ _ => True) s late t) :
    t.answered.Nodup ∧
    (t.log.map Prod.fst).Sublist t.answered ∧
    (∀ c heard, (t.client c).place = .done heard →
      heard ≠ [] ∧ heard <+: answerBytes host ∧ c ∈ t.answered) ∧
    (∀ w, t.server = some w → w.line.Nodup ∧ ∃ before done, t.answered = before ++ done ∧
      w.held = done ++ w.pc.unanswered ∧ ∀ c ∈ before, (t.client c).life < t.life) ∧
    (∀ v w, s.server = some v → t.server = some w → s.life = t.life → v.line <+: w.line) := by
  have before : Serving host s :=
    runInvariant (Serving host) (fun _ _ _ serving _ taken => stepServing serving taken) first
      (bootServing host)
  have after : Serving host t :=
    runInvariant (Serving host) (fun _ _ _ serving _ taken => stepServing serving taken) second before
  refine ⟨after.answered, (List.sublist_append_left _ _).trans after.printed, after.heard, fun w up => ?_,
    fun v w up still life => ?_⟩
  · exact ⟨(after.lined w up).apart, (after.lined w up).answered⟩
  · -- as long as the life is that of `s`, the line of `s` is a prefix of the present one
    have grows : Serving host t ∧ (s.life < t.life ∨ s.life = t.life ∧
        ∀ w, t.server = some w → v.line <+: w.line) := by
      refine runInvariant (fun u => Serving host u ∧ (s.life < u.life ∨ s.life = u.life ∧
        ∀ w, u.server = some w → v.line <+: w.line)) (fun u a x inv _ taken => ?_) second
        ⟨before, .inr ⟨rfl, fun w same => ?_⟩⟩
      · obtain ⟨serving, inv⟩ := inv
        refine ⟨stepServing serving taken, ?_⟩
        rcases stepLine serving taken with ⟨down, life⟩ | ⟨_, life⟩ | ⟨life, y, z, was, is, line⟩
        · rcases inv with later | ⟨now, _⟩
          · exact .inl (life ▸ later)
          · exact .inr ⟨now.trans life.symm, fun w up => by rw [down] at up; cases up⟩
        · exact .inl (by omega)
        · rcases inv with later | ⟨now, kept⟩
          · exact .inl (life ▸ later)
          · refine .inr ⟨now.trans life.symm, fun w up => ?_⟩
            cases Option.some.inj (is.symm.trans up)
            exact (kept y was).trans line
      · cases Option.some.inj (up.symm.trans same)
        exact List.prefix_rfl
    rcases grows.2 with later | ⟨_, kept⟩
    · exact absurd life (Nat.ne_of_lt later)
    · exact kept w still

def smallHost : Host := ⟨6, 1, 7⟩

def argsA : Args := ⟨41, [49, 50, 10], some [97], by decide⟩
def argsNone : Args := ⟨42, [49, 50, 10], none, by decide⟩

def zeroStack : Mem := fun _ => 0

def sentBytes (args : Args) : Nat := ((createMessage args).getD []).length + 1

def firstServed : List Act :=
  [.starts zeroStack, .connects 0 argsA, .connects 1 argsNone, .sends 0, .accept, .recv (sentBytes argsA), .send]
def secondServed : List Act :=
  [.sends 1, .print, .receives 0 4, .accept, .recv (sentBytes argsNone), .send, .print]

theorem firstThenSecond : ∃ s t, Run (step smallHost) (fun _ _ => True) boot firstServed s ∧
    Run (step smallHost) (fun _ _ => True) s secondServed t ∧ t.answered.Nodup ∧
    (t.log.map Prod.fst).Sublist t.answered := by
  obtain ⟨t, both⟩ := checkedRun (step smallHost) (fun _ _ => True) boot (firstServed ++ secondServed)
    (by decide +kernel)
  obtain ⟨s, first, second⟩ := runSplit both
  obtain ⟨once, printed, _⟩ := servesInOrder smallHost firstServed secondServed s t first second
  exact ⟨s, t, first, second, once, printed⟩

end OsLabs.SocketServer
