import OsLabs.SocketLives

/-! What the server of part1 prints, and what one silent client does to the others. -/
namespace OsLabs.SocketServer
open CMemory ReusedBuffer Runs
open ProcInfo (textBytes)
open TextColumns (decimalText decimalPlain)

theorem headPlain (args : Args) : (0 : Byte) ∉ messageHead args ++ messageTail args := by
  have texts : ∀ text ∈ ["\nPID: ", "\nTime: ", " Message: ", "Tsvetkov IU7-63B\n"], (0 : Byte) ∉ textBytes text := by
    decide +kernel
  have given := args.plain
  simp only [List.mem_append, not_or] at given
  simp only [messageHead, messageTail, List.mem_append, not_or]
  refine ⟨⟨⟨⟨⟨texts _ (by simp), decimalPlain _⟩, texts _ (by simp)⟩, given.1⟩, texts _ (by simp)⟩, ?_⟩
  cases argv1 : args.argv1 with
  | none => exact texts _ (by simp)
  | some text =>
    rw [argv1] at given
    exact given.2

theorem createdText {args : Args} {message : List Byte} (created : createMessage args = some message) :
    0 ∉ message ∧ message.length < maxMsgLen := by
  unfold createMessage at created
  split at created
  · split at created
    · rename_i fits
      cases Option.some.inj created
      exact ⟨headPlain args, by rw [List.length_append]; exact fits⟩
    · contradiction
  · contradiction

def Whole (s : Sys) : Act → Prop
  | .recv k => ∀ v ∈ s.server, ∀ c ∈ v.pc.unanswered,
      (s.client c).inbox = [] ∨ (s.client c).inbox.length ≤ k
  | .recvFails => False
  | _ => True

instance (s : Sys) : (a : Act) → Decidable (Whole s a)
  | .recv k => inferInstanceAs (Decidable (∀ v ∈ s.server, ∀ c ∈ v.pc.unanswered,
      (s.client c).inbox = [] ∨ (s.client c).inbox.length ≤ k))
  | .recvFails => isFalse id
  | .starts _ | .listenFails | .connects _ _ | .sends _ | .receives _ _ | .killed _ | .accept
  | .acceptFails | .send | .sendFails | .print | .sigint | .serverKilled => isTrue trivial

def Heard (s : Sys) (v : Server) : Pc → Prop
  | .send c => (s.client c).place.closed = true ∨ Holds v.buf 0 ((s.client c).message ++ [0])
  | .print c => Holds v.buf 0 ((s.client c).message ++ [0])
  | _ => True

structure Spoken (labels : List Act) (s : Sys) : Prop where
  came : ∀ c, (s.client c).place ≠ .absent →
    ∃ args, Act.connects c args ∈ labels ∧ createMessage args = some (s.client c).message
  inbox : ∀ c, (s.client c).inbox = [] ∨ (s.client c).inbox = (s.client c).message ++ [0]
  heard : ∀ v, s.server = some v → Heard s v v.pc
  log : ∀ e ∈ s.log, e.2 = (s.client e.1).message

structure Stays (old new : Client) : Prop where
  place : new.place ≠ .absent
  message : new.message = old.message
  closed : old.place.closed = true → new.place.closed = true

theorem stepStays {host : Host} {s t : Sys} {a : Act} (taken : step host s a = some t) {c : Conn}
    (came : (s.client c).place ≠ .absent) : Stays (s.client c) (t.client c) := by
  have same : Stays (s.client c) (s.client c) := ⟨came, rfl, id⟩
  have one : ∀ d client, (d = c → Stays (s.client c) client) →
      Stays (s.client c) ((s.setClient d client).client c) := by
    intro d client stays
    by_cases here : c = d
    · subst here
      simpa only [Sys.setClient, Function.update_self] using stays rfl
    · simpa only [Sys.setClient, Function.update_of_ne here] using same
  cases stepMoves taken with
  | refused fresh | connects fresh => exact one _ _ fun here => absurd (here ▸ fresh) came
  | sends place =>
    refine one _ _ fun here => ⟨(fun gone => by cases gone), by rw [here], fun closed => ?_⟩
    rw [← here, place] at closed
    contradiction
  | dies => exact one _ _ fun here => ⟨(fun gone => by cases gone), by rw [here], fun _ => rfl⟩
  | receives => exact one _ _ fun here => ⟨(fun gone => by cases gone), by rw [here], fun _ => rfl⟩
  | recv | send => exact one _ _ fun here => by subst here; exact ⟨came, rfl, id⟩
  | _ => exact same

theorem staysHeard {s t : Sys} {v w : Server} {pc : Pc} (buf : w.buf = v.buf)
    (stays : ∀ c, (s.client c).place ≠ .absent → Stays (s.client c) (t.client c))
    (came : ∀ c, pc = .send c ∨ pc = .print c → (s.client c).place ≠ .absent)
    (heard : Heard s v pc) : Heard t w pc := by
  cases pc with
  | accept | recv => trivial
  | send c =>
    obtain ⟨_, message, closed⟩ := stays c (came c (.inl rfl))
    simp only [Heard] at heard ⊢
    rw [message, buf]
    exact heard.imp_left closed
  | print c =>
    obtain ⟨_, message, _⟩ := stays c (came c (.inr rfl))
    simp only [Heard] at heard ⊢
    rw [message, buf]
    exact heard

theorem servedCame {host : Host} {s : Sys} {v : Server} (serving : Serving host s) (up : s.server = some v)
    {c : Conn} (served : v.pc = .recv c ∨ v.pc = .send c ∨ v.pc = .print c) :
    (s.client c).place ≠ .absent := by
  have lined := serving.lined v up
  obtain ⟨before, done, split, held, _⟩ := lined.answered
  have unanswered : v.pc.unanswered = [c] → (s.client c).place ≠ .absent := by
    intro mine
    refine (lined.own c (List.mem_append_left _ ?_)).1
    rw [held, mine]
    exact List.mem_append_right _ (List.mem_singleton.mpr rfl)
  rcases served with pc | pc | pc
  · exact unanswered (by rw [pc]; rfl)
  · exact unanswered (by rw [pc]; rfl)
  · refine (serving.known c (serving.printed.subset ?_)).1
    simp only [Sys.unprinted, up, pc, Pc.unprinted]
    exact List.mem_append_right _ (List.mem_singleton.mpr rfl)

theorem stepArrives {host : Host} {s t : Sys} {a : Act} (taken : step host s a = some t) {d : Conn}
    (fresh : (s.client d).place = .absent) (came : (t.client d).place ≠ .absent) :
    ∃ args, a = .connects d args ∧ createMessage args = some (t.client d).message := by
  have other : ∀ c client, d ≠ c → (s.setClient c client).client d = s.client d := by
    intro c client here
    simp only [Sys.setClient, Function.update_of_ne here]
  have known : ∀ c client, (s.client c).place ≠ .absent →
      ((s.setClient c client).client d).place = .absent := by
    intro c client arrived
    rw [other c client (fun here => arrived (here ▸ fresh))]
    exact fresh
  cases stepMoves taken with
  | @refused c args message _ created | @connects c args message v _ created =>
    by_cases here : d = c
    · subst here
      refine ⟨args, rfl, created.trans (congrArg some ?_)⟩
      simp only [Sys.setClient, Function.update_self]
    · exact absurd (other c _ here ▸ fresh) came
  | @sends c place => exact absurd (known c _ (by rw [place]; exact fun gone => by cases gone)) came
  | @receives c k place => exact absurd (known c _ (by rw [place]; exact fun gone => by cases gone)) came
  | @dies a c _ place =>
    refine absurd (known c _ ?_) came
    rcases place with place | place <;> rw [place] <;> exact fun gone => by cases gone
  | @recv v c | @send v c =>
    by_cases here : d = c
    · subst here
      simp only [Sys.setClient, Function.update_self] at came
      exact absurd fresh came
    · exact absurd (other c _ here ▸ fresh) came
  | _ => exact absurd fresh came

theorem stepInbox {host : Host} {s t : Sys} {a : Act} (whole : Whole s a) (taken : step host s a = some t)
    (inbox : ∀ c, (s.client c).inbox = [] ∨ (s.client c).inbox = (s.client c).message ++ [0]) (d : Conn) :
    (t.client d).inbox = [] ∨ (t.client d).inbox = (t.client d).message ++ [0] := by
  have one : ∀ c client, (client.inbox = [] ∨ client.inbox = client.message ++ [0]) →
      ((s.setClient c client).client d).inbox = [] ∨
        ((s.setClient c client).client d).inbox = ((s.setClient c client).client d).message ++ [0] := by
    intro c client own
    by_cases here : d = c
    · subst here
      simpa only [Sys.setClient, Function.update_self] using own
    · simpa only [Sys.setClient, Function.update_of_ne here] using inbox d
  cases stepMoves taken with
  | refused | connects => exact one _ _ (.inl rfl)
  | sends => exact one _ _ (.inr rfl)
  | @dies a c => exact one _ _ (inbox c)
  | @receives c => exact one _ _ (inbox c)
  | @recv v c k up pc some =>
    have all := whole v up c (by rw [pc]; exact List.mem_singleton.mpr rfl)
    exact one _ _ (.inl (List.drop_eq_nil_iff.mpr (all.resolve_left some)))
  | @send v c => exact one _ _ (inbox c)
  | _ => exact inbox d

theorem stepHeard {host : Host} {s t : Sys} {w : Server} {a : Act} {labels : List Act}
    (serving : Serving host s) (spoken : Spoken labels s) (whole : Whole s a)
    (taken : step host s a = some t) (up' : t.server = some w) : Heard t w w.pc := by
  have stays : ∀ c, (s.client c).place ≠ .absent → Stays (s.client c) (t.client c) :=
    fun c came => stepStays taken came
  have same : t.server = s.server → Heard t w w.pc := by
    intro still
    rw [still] at up'
    exact staysHeard rfl stays (fun c served => servedCame serving up' (.inr served)) (spoken.heard w up')
  cases stepMoves taken with
  | bindFails | listenFails | refused | sends | dies | receives => exact same rfl
  | starts | accept | print =>
    cases Option.some.inj up'
    trivial
  | @connects c args message v _ _ up =>
    cases Option.some.inj up'
    exact staysHeard rfl stays (fun c served => servedCame serving up (.inr served)) (spoken.heard v up)
  | @recv v c k up pc some positive inside =>
    cases Option.some.inj up'
    have all := whole v up c (by rw [pc]; exact List.mem_singleton.mpr rfl)
    have text : (s.client c).inbox.take k = (s.client c).message ++ [0] := by
      rw [List.take_of_length_le (all.resolve_left some)]
      exact (spoken.inbox c).resolve_left some
    refine .inr ?_
    rw [(stays c (servedCame serving up (.inl pc))).message, ← text]
    exact overlayHolds _ _
  | @recvClosed v c k up pc closed =>
    cases Option.some.inj up'
    exact .inl closed
  | recvFails => exact absurd whole id
  | @send v c up pc reads =>
    cases Option.some.inj up'
    have heard := spoken.heard v up
    rw [pc] at heard
    have held := heard.resolve_left (fun closed => by rw [reads] at closed; contradiction)
    show Holds v.buf 0 _
    rw [(stays c (servedCame serving up (.inr (.inl pc)))).message]
    exact held
  | acceptFails | sigpipe | sendFails | sigint | serverKilled => cases up'

theorem stepSpoken {host : Host} {labels : List Act} {s t : Sys} {a : Act} (serving : Serving host s)
    (spoken : Spoken labels s) (whole : Whole s a) (mem : a ∈ labels) (taken : step host s a = some t) :
    Spoken labels t := by
  have stays : ∀ c, (s.client c).place ≠ .absent → Stays (s.client c) (t.client c) :=
    fun c came => stepStays taken came
  have logged : ∀ e ∈ s.log, e.2 = (t.client e.1).message := by
    intro e inside
    have answered := serving.printed.subset (List.mem_append_left _ (List.mem_map_of_mem inside))
    rw [(stays e.1 (serving.known e.1 answered).1).message]
    exact spoken.log e inside
  refine ⟨fun c came => ?_, stepInbox whole taken spoken.inbox,
    fun w up => stepHeard serving spoken whole taken up, ?_⟩
  · by_cases fresh : (s.client c).place = .absent
    · obtain ⟨args, rfl, created⟩ := stepArrives taken fresh came
      exact ⟨args, mem, created⟩
    · rw [(stays c fresh).message]
      exact spoken.came c fresh
  · cases stepMoves taken with
    | @print v c text up pc found =>
      intro e inside
      rcases List.mem_append.mp inside with old | last
      · exact logged e old
      · rw [List.mem_singleton.mp last]
        have heard := spoken.heard v up
        rw [pc] at heard
        obtain ⟨args, _, created⟩ := spoken.came c (servedCame serving up (.inr (.inr pc)))
        obtain ⟨clean, short⟩ := createdText created
        exact Option.some.inj (found.symm.trans (cstringOfHolds heard clean short))
    | _ => exact logged

theorem printsMessages (host : Host) (labels : List Act) (last : Sys)
    (run : Run (step host) Whole boot labels last) :
    (last.log.map Prod.fst).Nodup ∧
    ∀ c text, (c, text) ∈ last.log → ∃ args, Act.connects c args ∈ labels ∧ createMessage args = some text := by
  have inv : Serving host last ∧ Spoken labels last := by
    refine runInvariant (fun s => Serving host s ∧ Spoken labels s) (fun s a u inv both taken => ?_)
      (runBoth run fun a mem => mem) ⟨bootServing host, nofun, fun _ => .inl rfl, nofun, nofun⟩
    exact ⟨stepServing inv.1 taken, stepSpoken inv.1 inv.2 both.1 both.2 taken⟩
  obtain ⟨serving, spoken⟩ := inv
  have printed := (List.sublist_append_left _ _).trans serving.printed
  refine ⟨serving.answered.sublist printed, fun c text mem => ?_⟩
  have came := (serving.known c (printed.subset (List.mem_map_of_mem mem))).1
  obtain ⟨args, connects, created⟩ := spoken.came c came
  exact ⟨args, connects, created.trans (congrArg some (spoken.log _ mem).symm)⟩

theorem bothPrinted : ∃ last, Run (step smallHost) Whole boot (firstServed ++ secondServed) last ∧
    (last.log.map Prod.fst).Nodup ∧ ∀ c text, (c, text) ∈ last.log →
      ∃ args, Act.connects c args ∈ firstServed ++ secondServed ∧ createMessage args = some text := by
  obtain ⟨last, run⟩ := checkedRun (step smallHost) Whole boot (firstServed ++ secondServed) (by decide +kernel)
  exact ⟨last, run, printsMessages smallHost _ last run⟩

def Elsewhere (c : Conn) : Act → Prop
  | .sends d | .killed d => d ≠ c
  | .recvFails | .sigint | .serverKilled => False
  | _ => True

structure Blocked (c : Conn) (s : Sys) : Prop where
  server : ∃ v, s.server = some v ∧ v.pc = .recv c
  inbox : (s.client c).inbox = []
  place : (s.client c).place = .connected

theorem stepBlocked {host : Host} {s t : Sys} {a : Act} {c : Conn} (serving : Serving host s)
    (blocked : Blocked c s) (elsewhere : Elsewhere c a) (taken : step host s a = some t) :
    Blocked c t ∧ t.answered = s.answered ∧ t.log = s.log := by
  obtain ⟨⟨v, up, pc⟩, inbox, place⟩ := blocked
  have other : ∀ d client, d ≠ c → Blocked c (s.setClient d client) := by
    intro d client here
    refine ⟨⟨v, up, pc⟩, ?_, ?_⟩
    · simpa only [Sys.setClient, Function.update_of_ne (Ne.symm here)] using inbox
    · simpa only [Sys.setClient, Function.update_of_ne (Ne.symm here)] using place
  have stands : ∀ {w : Server}, s.server = some w → w = v := fun is => Option.some.inj (is.symm.trans up)
  cases stepMoves taken with
  | bindFails | listenFails => exact ⟨⟨⟨v, up, pc⟩, inbox, place⟩, rfl, rfl⟩
  | starts absent =>
    rw [serving.file (by rw [up]; rfl)] at absent
    contradiction
  | refused _ _ down => rw [up] at down; cases down
  | @connects d args message w fresh created is =>
    have apart : d ≠ c := by
      rintro rfl
      rw [place] at fresh
      cases fresh
    obtain ⟨_, inbox, place⟩ := other d ⟨.connected, s.life, message, [], []⟩ apart
    exact ⟨⟨⟨_, rfl, by rw [stands is]; exact pc⟩, inbox, place⟩, rfl, rfl⟩
  | sends => exact ⟨other _ _ elsewhere, rfl, rfl⟩
  | @dies a d whose here =>
    refine ⟨other _ _ ?_, rfl, rfl⟩
    rcases whose with rfl | ⟨k, rfl, waiting⟩ | rfl
    · exact elsewhere
    · rintro rfl
      rw [place] at waiting
      cases waiting
    · exact elsewhere
  | @receives d k here =>
    refine ⟨other _ _ ?_, rfl, rfl⟩
    rintro rfl
    rw [place] at here
    cases here
  | accept is here | acceptFails is here | send is here | sigpipe is here | sendFails is here | print is here =>
    rw [stands is, pc] at here
    cases here
  | recv is here filled =>
    rw [stands is, pc] at here
    cases here
    exact absurd inbox filled
  | recvClosed is here closed =>
    rw [stands is, pc] at here
    cases here
    rw [place] at closed
    contradiction
  | recvFails | sigint | serverKilled => exact absurd elsewhere id

theorem silentClientBlocks (host : Host) (early late : List Act) (s t : Sys) (c : Conn)
    (first : Run (step host) (fun _ _ => True) boot early s) (blocked : Blocked c s)
    (second : Run (step host) (fun _ a => Elsewhere c a) s late t) :
    Blocked c t ∧ t.log = s.log ∧ t.answered = s.answered ∧
    ∀ d heard, (t.client d).place = .done heard → d ∈ s.answered := by
  have before := runInvariant (Serving host) (fun _ _ _ serving _ taken => stepServing serving taken) first
    (bootServing host)
  have after : Serving host t ∧ Blocked c t ∧ t.answered = s.answered ∧ t.log = s.log := by
    refine runInvariant (fun u => Serving host u ∧ Blocked c u ∧ u.answered = s.answered ∧ u.log = s.log)
      (fun u a w inv elsewhere taken => ?_) second ⟨before, blocked, rfl, rfl⟩
    obtain ⟨serving, blocked, answered, log⟩ := inv
    obtain ⟨still, same, quiet⟩ := stepBlocked serving blocked elsewhere taken
    exact ⟨stepServing serving taken, still, same.trans answered, quiet.trans log⟩
  obtain ⟨serving, still, answered, log⟩ := after
  exact ⟨still, log, answered, fun d heard place => answered ▸ (serving.heard d heard place).2.2⟩

def acceptedSilent : List Act := [.starts zeroStack, .connects 0 argsA, .accept]
def sentInVain : List Act := [.connects 1 argsNone, .sends 1]

theorem zeroBlocksOne : ∃ s t, Run (step smallHost) (fun _ _ => True) boot acceptedSilent s ∧
    Run (step smallHost) (fun _ a => Elsewhere 0 a) s sentInVain t ∧ Blocked 0 t ∧ t.answered = [] ∧
    ∀ d heard, (t.client d).place ≠ .done heard := by
  obtain ⟨t, both⟩ := checkedRun (step smallHost) (fun _ _ => True) boot (acceptedSilent ++ sentInVain)
    (by decide +kernel)
  obtain ⟨s, first, second⟩ := runSplit both
  have seen : (exec (step smallHost) boot acceptedSilent).map
      (fun s => (s.server.map Server.pc, (s.client 0).inbox, (s.client 0).place, s.answered)) =
      some (some (.recv 0), [], .connected, []) := by decide +kernel
  rw [runExec first, Option.map_some, Option.some.injEq] at seen
  simp only [Prod.mk.injEq] at seen
  obtain ⟨server, inbox, place, unanswered⟩ := seen
  have blocked : Blocked 0 s := ⟨Option.map_eq_some_iff.mp server, inbox, place⟩
  have late : Run (step smallHost) (fun _ a => Elsewhere 0 a) s sentInVain t := by
    refine (runLabels second).mpr fun a mem => ?_
    rcases List.mem_cons.mp mem with rfl | mem
    · trivial
    · rw [List.mem_singleton.mp mem]
      exact Nat.one_ne_zero
  obtain ⟨still, _, same, answered⟩ :=
    silentClientBlocks smallHost acceptedSilent sentInVain s t 0 first blocked late
  refine ⟨s, t, first, late, still, same.trans unanswered, fun d heard done => ?_⟩
  have among := answered d heard done
  rw [unanswered] at among
  exact List.not_mem_nil among

end OsLabs.SocketServer
