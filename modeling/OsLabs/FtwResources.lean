import OsLabs.FtwCalls

/-! What ftw holds on to: directory streams and nodes, over every run of OsLabs.FtwCalls, whatever
the calls answer. -/
namespace OsLabs.FtwResources
open Runs FtwCalls
open Ftw (dotdot)

/- `asked` counts the calls of create_node, which come for the start directory, for each directory
entered and for each entry read; `refused` counts the mallocs that fail. push makes a node of its
own, which pop frees; pop copies it once more. -/
structure Account where
  opened : Nat
  closed : Nat
  asked : Nat
  created : Nat
  pushed : Nat
  copied : Nat
  freed : Nat
  refused : Nat
  deriving DecidableEq, Repr

def noAccount : Account := ⟨0, 0, 0, 0, 0, 0, 0, 0⟩

def Account.live (a : Account) : Nat := a.created + a.pushed + a.copied - a.freed

/- closedir gives the stream back whatever it returns. -/
def charge (pc : Pc) (reply : Reply) (a : Account) : Account :=
  match pc, reply with
  | .getcwd, .path _ => {a with asked := a.asked + 1}
  | .chdir _ depth, .done => if depth + 1 < 2^31 then {a with asked := a.asked + 1} else a
  | .readdir _, .entry name => if name = dot ∨ name = dotdot then a else {a with asked := a.asked + 1}
  | .create _ _ _, .done => {a with created := a.created + 1}
  | .create _ _ _, .fails _ => {a with refused := a.refused + 1}
  | .push _ _, .done => {a with pushed := a.pushed + 1}
  | .push _ _, .fails _ => {a with refused := a.refused + 1}
  | .pop, .done => {a with copied := a.copied + 1, freed := a.freed + 1}
  | .pop, .fails _ => {a with freed := a.freed + 1, refused := a.refused + 1}
  | .opendir _ _, .done => {a with opened := a.opened + 1}
  | .closedir _, _ => {a with closed := a.closed + 1}
  | _, _ => a

def bookStep (b : State × Account) (reply : Reply) : Option (State × Account) :=
  (step b.1 reply).map fun u => (u, charge b.1.pc reply b.2)

def Next.streams : Next → Nat
  | .loop => 0
  | .entries _ => 1

def streams : Pc → Nat
  | .create _ _ next | .push _ next => Next.streams next
  | .chdir _ _ | .readdir _ | .closedir _ => 1
  | _ => 0

def creating : Pc → Nat
  | .create _ _ _ => 1
  | _ => 0

def pushing : Pc → Nat
  | .push _ _ => 1
  | .undefined .strcpyOverflow => 1
  | _ => 0

def statting : Pc → Nat
  | .lstat _ _ => 1
  | _ => 0

def early : Pc → Bool
  | .chdirStart | .getcwd | .create _ _ .loop | .push _ .loop => true
  | _ => false

def crashed : Pc → Bool
  | .undefined _ => true
  | _ => false

def ends : Pc → Bool
  | .printStat | .returned _ => true
  | _ => false

structure Booked (s : State) (a : Account) : Prop where
  streams : crashed s.pc = false → a.opened = a.closed + streams s.pc
  crash : a.closed ≤ a.opened ∧ a.opened ≤ a.closed + 1
  stack : a.pushed = a.freed + s.stk.length
  asked : a.created + creating s.pc ≤ a.asked ∧ a.asked ≤ a.created + creating s.pc + a.refused
  pushed : a.pushed + pushing s.pc ≤ a.created ∧ a.created ≤ a.pushed + pushing s.pc + a.refused
  copied : a.copied ≤ a.freed ∧ a.freed ≤ a.copied + a.refused
  shown : s.shown.length + statting s.pc ≤ a.copied + (if early s.pc then 0 else 1)
  empty : ends s.pc = true ∨ early s.pc = true → s.stk = []

structure Loops (t u : State) (stats : Nat) : Prop where
  stk : u.stk = t.stk
  shown : u.shown = t.shown
  streams : streams u.pc = 0
  creating : creating u.pc = 0
  pushing : pushing u.pc = 0
  statting : statting u.pc ≤ stats
  early : early u.pc = false
  empty : ends u.pc = true → u.stk = []

theorem loopTestLoops (t : State) (elem : Option Ftw.Node) :
    Loops t (loopTest t elem) (if elem.isSome then 1 else 0) := by
  unfold loopTest
  split
  · rename_i nothing
    exact ⟨rfl, rfl, rfl, rfl, rfl, Nat.zero_le _, rfl, fun _ => List.isEmpty_iff.mp nothing⟩
  · cases elem with
    | none => exact ⟨rfl, rfl, rfl, rfl, rfl, Nat.zero_le _, rfl, fun stops => Bool.noConfusion stops⟩
    | some elem =>
      simp only
      split
      · exact ⟨rfl, rfl, rfl, rfl, rfl, Nat.zero_le _, rfl, fun stops => Bool.noConfusion stops⟩
      · exact ⟨rfl, rfl, rfl, rfl, rfl, Nat.le_refl _, rfl, fun stops => Bool.noConfusion stops⟩

theorem afterDoPathLoops (t : State) : Loops t (afterDoPath t) 0 := by
  unfold afterDoPath
  split
  · exact loopTestLoops t none
  · exact ⟨rfl, rfl, rfl, rfl, rfl, Nat.zero_le _, rfl, fun stops => Bool.noConfusion stops⟩

theorem linkLastLength (stk : List Ftw.Node) (tmp : Ftw.Node) :
    (Ftw.linkLast stk tmp).length = stk.length + 1 := by
  rw [Ftw.linkLastAppend, List.length_append]
  rfl

theorem unlinkLastLength (head : Ftw.Node) (rest : List Ftw.Node) :
    (Ftw.unlinkLast head rest).1.length = rest.length := by
  have split := congrArg List.length (LinkedStack.unlinkLastSplit head rest)
  simp only [List.length_cons, List.length_append, List.length_nil] at split
  omega

theorem loopsBooked {t u : State} {a : Account} {stats : Nat} (loops : Loops t u stats)
    (closed : a.opened = a.closed) (stack : a.pushed = a.freed + t.stk.length)
    (asked : a.created ≤ a.asked ∧ a.asked ≤ a.created + a.refused)
    (pushed : a.pushed ≤ a.created ∧ a.created ≤ a.pushed + a.refused)
    (copied : a.copied ≤ a.freed ∧ a.freed ≤ a.copied + a.refused)
    (shown : t.shown.length + stats ≤ a.copied + 1) : Booked u a where
  streams := fun _ => by rw [loops.streams, closed]; rfl
  crash := by omega
  stack := by rw [loops.stk, stack]
  asked := by rw [loops.creating]; exact asked
  pushed := by rw [loops.pushing]; exact pushed
  copied := copied
  shown := by
    have few := loops.statting
    rw [loops.shown, loops.early, if_neg Bool.false_ne_true]
    omega
  empty := fun stops => by
    rcases stops with stops | first
    · exact loops.empty stops
    · rw [loops.early] at first
      cases first

theorem startBooked : Booked start noAccount where
  streams := fun _ => rfl
  crash := by decide
  stack := rfl
  asked := by decide
  pushed := by decide
  copied := by decide
  shown := by decide
  empty := fun _ => rfl

theorem lstatBooked {s u : State} {a : Account} {fullPath : Ftw.Name} {depth : Int} {reply : Reply}
    (here : s.pc = .lstat fullPath depth) (booked : Booked s a)
    (taken : lstatReply s fullPath depth reply = some u) : Booked u a := by
  obtain ⟨streams, crash, stack, asked, pushed, copied, shown, empty⟩ := booked
  rw [here] at streams asked pushed shown
  cases reply with
  | fails e =>
    cases taken
    exact loopsBooked (afterDoPathLoops _) (streams rfl) stack asked pushed copied (by
      simp only [statting, early, Bool.false_eq_true, if_false] at shown
      exact Nat.le_of_succ_le shown)
  | mode mode =>
    simp only [lstatReply] at taken
    split at taken
    · simp only [statting, early, Bool.false_eq_true, if_false] at shown
      cases mode with
      | file kind =>
        cases taken
        refine loopsBooked (afterDoPathLoops _) (streams rfl) stack asked pushed copied ?_
        simp only [List.length_append, List.length_singleton]
        exact shown
      | dir =>
        cases taken
        refine ⟨fun _ => streams rfl, crash, stack, asked, pushed, copied, ?_, fun stops => ?_⟩
        · simp only [List.length_append, List.length_singleton]
          exact shown
        · rcases stops with stops | stops <;> cases stops
    · cases taken
      refine ⟨fun fine => Bool.noConfusion fine, crash, stack, asked, pushed, copied, ?_, fun stops => ?_⟩
      · simp only [statting, early, Bool.false_eq_true, if_false] at shown ⊢
        omega
      · rcases stops with stops | stops <;> cases stops
  | _ => cases taken

theorem movesBooked {s u : State} {a b : Account} (booked : Booked s a) (late : early s.pc = false)
    (stk : u.stk = s.stk) (shown : u.shown = s.shown) (stops : ends u.pc = false) (later : early u.pc = false)
    (stats : statting u.pc = 0) (streamed : b.opened = b.closed + streams u.pc ∧ streams u.pc ≤ 1)
    (nodes : b.pushed = a.pushed ∧ b.copied = a.copied ∧ b.freed = a.freed)
    (asked : b.created + creating u.pc ≤ b.asked ∧ b.asked ≤ b.created + creating u.pc + b.refused)
    (pushed : b.pushed + pushing u.pc ≤ b.created ∧ b.created ≤ b.pushed + pushing u.pc + b.refused)
    (refused : a.refused ≤ b.refused) : Booked u b where
  streams := fun _ => streamed.1
  crash := by omega
  stack := by
    have before := booked.stack
    rw [stk]
    omega
  asked := asked
  pushed := pushed
  copied := by
    have before := booked.copied
    omega
  shown := by
    have before := booked.shown
    rw [late] at before
    rw [shown, later, stats]
    omega
  empty := fun ended => by
    rw [stops, later] at ended
    rcases ended with ended | ended <;> cases ended

theorem readdirBooked {s u : State} {a : Account} {depth : Int} {reply : Reply} (here : s.pc = .readdir depth)
    (booked : Booked s a) (taken : readdirReply s depth reply = some u) :
    Booked u (charge (.readdir depth) reply a) := by
  have streams := booked.streams (by rw [here]; rfl)
  have asked := booked.asked
  have pushed := booked.pushed
  have late : early s.pc = false := by rw [here]; rfl
  rw [here] at streams asked pushed
  cases reply with
  | fails e =>
    cases taken
    exact movesBooked booked late rfl rfl rfl rfl rfl ⟨streams, Nat.le_refl _⟩ ⟨rfl, rfl, rfl⟩ asked pushed
      (Nat.le_refl _)
  | atEnd =>
    cases taken
    exact movesBooked booked late rfl rfl rfl rfl rfl ⟨streams, Nat.le_refl _⟩ ⟨rfl, rfl, rfl⟩ asked pushed
      (Nat.le_refl _)
  | entry name =>
    simp only [readdirReply] at taken
    simp only [charge]
    split at taken
    · rename_i dots
      cases taken
      rwa [if_pos dots]
    · rename_i other
      cases taken
      rw [if_neg other]
      refine movesBooked booked late rfl rfl rfl rfl rfl ⟨streams, Nat.le_refl _⟩ ⟨rfl, rfl, rfl⟩ ?_ pushed
        (Nat.le_refl _)
      simp only [creating] at asked ⊢
      omega
  | _ => cases taken

theorem createBooked {s u : State} {a : Account} {fileName : Ftw.Name} {depth : Int} {next : Next} {reply : Reply}
    (here : s.pc = .create fileName depth next) (booked : Booked s a)
    (taken : createReply s fileName depth next reply = some u) :
    Booked u (charge (.create fileName depth next) reply a) := by
  obtain ⟨streams, crash, stack, asked, pushed, copied, shown, empty⟩ := booked
  rw [here] at streams asked pushed shown empty
  simp only [creating, pushing, statting] at asked pushed shown
  have few : s.shown.length ≤ a.copied + 1 := by split at shown <;> omega
  cases reply with
  | fails e =>
    cases taken
    refine ⟨fun fine => Bool.noConfusion fine, crash, stack, ?_, ?_, ?_, few, fun stops => ?_⟩
    · simp only [charge, creating]
      omega
    · simp only [charge, pushing]
      omega
    · simp only [charge]
      omega
    · rcases stops with stops | stops <;> cases stops
  | done =>
    simp only [createReply] at taken
    split at taken
    · cases taken
      refine ⟨fun _ => streams rfl, crash, stack, ?_, ?_, copied, ?_, fun stops => ?_⟩
      · simp only [charge, creating]
        omega
      · simp only [charge, pushing]
        omega
      · cases next <;> exact shown
      · refine empty ?_
        cases next with
        | loop => exact .inr rfl
        | entries depth => rcases stops with stops | stops <;> cases stops
    · cases taken
      refine ⟨fun fine => Bool.noConfusion fine, crash, stack, ?_, ?_, copied, few, fun stops => ?_⟩
      · simp only [charge, creating]
        omega
      · simp only [charge, pushing]
        omega
      · rcases stops with stops | stops <;> cases stops
  | _ => cases taken

theorem pushBooked {s u : State} {a : Account} {elem : Ftw.Node} {next : Next} {reply : Reply}
    (here : s.pc = .push elem next) (booked : Booked s a) (taken : pushReply s elem next reply = some u) :
    Booked u (charge (.push elem next) reply a) := by
  obtain ⟨streams, crash, stack, asked, pushed, copied, shown, empty⟩ := booked
  have streams := streams (by rw [here]; rfl)
  rw [here] at streams asked pushed shown empty
  simp only [creating, pushing, statting] at asked pushed shown
  cases next with
  | loop =>
    have few : s.shown.length + 1 ≤ a.copied + 1 := Nat.succ_le_succ shown
    cases reply with
    | fails e =>
      cases taken
      have loops : Loops (s.fail e) (loopTest (s.fail e) (some elem)) 1 := loopTestLoops _ _
      refine loopsBooked loops streams stack ?_ ?_ ?_ few
      · simp only [charge]
        omega
      · simp only [charge]
        omega
      · simp only [charge]
        omega
    | done =>
      cases taken
      let linked : State := {s with stk := Ftw.linkLast s.stk elem}
      have loops : Loops linked (loopTest linked (some elem)) 1 := loopTestLoops _ _
      refine loopsBooked loops streams ?_ asked ?_ copied few
      · simp only [charge, linked, linkLastLength]
        omega
      · simp only [charge]
        omega
    | _ => cases taken
  | entries depth' =>
    cases reply with
    | fails e =>
      cases taken
      refine ⟨fun _ => streams, crash, stack, ?_, ?_, ?_, shown, fun stops => ?_⟩
      · simp only [charge, creating, afterPush]
        omega
      · simp only [charge, pushing, afterPush]
        omega
      · simp only [charge]
        omega
      · rcases stops with stops | stops <;> cases stops
    | done =>
      cases taken
      refine ⟨fun _ => streams, crash, ?_, asked, ?_, copied, shown, fun stops => ?_⟩
      · simp only [charge, afterPush, linkLastLength]
        omega
      · simp only [charge, pushing, afterPush]
        omega
      · rcases stops with stops | stops <;> cases stops
    | _ => cases taken

theorem popBooked {s u : State} {a : Account} {reply : Reply} (here : s.pc = .pop) (booked : Booked s a)
    (taken : popReply s reply = some u) : Booked u (charge .pop reply a) := by
  obtain ⟨streams, crash, stack, asked, pushed, copied, shown, empty⟩ := booked
  have streams := streams (by rw [here]; rfl)
  rw [here] at streams asked pushed shown
  simp only [creating, pushing, statting, early, Bool.false_eq_true, if_false] at asked pushed shown
  cases reply with
  | fails e =>
    simp only [popReply] at taken
    split at taken
    · cases taken
    · rename_i head rest same
      cases taken
      rw [same, List.length_cons] at stack
      refine loopsBooked (loopTestLoops _ none) streams ?_ ?_ ?_ ?_ (Nat.le_trans shown ?_)
      · simp only [charge, unlinkLastLength]
        omega
      · simp only [charge]
        omega
      · simp only [charge]
        omega
      · simp only [charge]
        omega
      · exact Nat.le_refl _
  | done =>
    simp only [popReply] at taken
    split at taken
    · cases taken
    · rename_i head rest same
      cases taken
      rw [same, List.length_cons] at stack
      refine loopsBooked (loopTestLoops _ (some _)) streams ?_ asked pushed ?_ ?_
      · simp only [charge, unlinkLastLength]
        omega
      · simp only [charge]
        omega
      · simp only [charge, Option.isSome_some, if_true]
        omega
  | _ => cases taken

theorem opendirBooked {s u : State} {a : Account} {fullPath : Ftw.Name} {depth : Int} {reply : Reply}
    (here : s.pc = .opendir fullPath depth) (booked : Booked s a)
    (taken : opendirReply s fullPath depth reply = some u) :
    Booked u (charge (.opendir fullPath depth) reply a) := by
  have late : early s.pc = false := by rw [here]; rfl
  have kept := booked
  obtain ⟨streams, crash, stack, asked, pushed, copied, shown, empty⟩ := booked
  have closed : a.opened = a.closed := streams (by rw [here]; rfl) |>.trans (by rw [here]; rfl)
  rw [here] at asked pushed shown
  cases reply with
  | fails e =>
    cases taken
    exact loopsBooked (afterDoPathLoops _) closed stack asked pushed copied shown
  | done =>
    cases taken
    exact movesBooked kept late rfl rfl rfl rfl rfl ⟨congrArg (· + 1) closed, Nat.le_refl _⟩ ⟨rfl, rfl, rfl⟩
      asked pushed (Nat.le_refl _)
  | _ => cases taken

theorem chdirBooked {s u : State} {a : Account} {fullPath : Ftw.Name} {depth : Int} {reply : Reply}
    (here : s.pc = .chdir fullPath depth) (booked : Booked s a) (taken : chdirReply s depth reply = some u) :
    Booked u (charge (.chdir fullPath depth) reply a) := by
  have late : early s.pc = false := by rw [here]; rfl
  have streamed := booked.streams (by rw [here]; rfl)
  have asked := booked.asked
  have pushed := booked.pushed
  rw [here] at streamed asked pushed
  cases reply with
  | fails e =>
    cases taken
    exact movesBooked booked late rfl rfl rfl rfl rfl ⟨streamed, Nat.le_refl _⟩ ⟨rfl, rfl, rfl⟩ asked pushed
      (Nat.le_refl _)
  | done =>
    simp only [chdirReply] at taken
    simp only [charge]
    split at taken
    · rename_i room
      cases taken
      rw [if_pos room]
      refine movesBooked booked late rfl rfl rfl rfl rfl ⟨streamed, Nat.le_refl _⟩ ⟨rfl, rfl, rfl⟩ ?_ pushed
        (Nat.le_refl _)
      simp only [creating] at asked ⊢
      omega
    · rename_i deep
      cases taken
      rw [if_neg deep]
      have shown := booked.shown
      rw [here] at shown
      exact ⟨fun fine => Bool.noConfusion fine, booked.crash, booked.stack, asked, pushed, booked.copied, shown,
        fun stops => by rcases stops with stops | stops <;> cases stops⟩
  | _ => cases taken

theorem closedirBooked {s u : State} {a : Account} {entered : Bool} {reply : Reply}
    (here : s.pc = .closedir entered) (booked : Booked s a) (taken : closedirReply s entered reply = some u) :
    Booked u (charge (.closedir entered) reply a) := by
  obtain ⟨streams, crash, stack, asked, pushed, copied, shown, empty⟩ := booked
  have closed := streams (by rw [here]; rfl)
  rw [here] at closed asked pushed shown
  have loops : ∀ t : State, t.stk = s.stk → t.shown = s.shown → Loops s (afterDoPath t) 0 := by
    intro t stk listed
    have after := afterDoPathLoops t
    exact ⟨after.stk.trans stk, after.shown.trans listed, after.streams, after.creating, after.pushing,
      after.statting, after.early, after.empty⟩
  simp only [closedirReply] at taken
  cases reply with
  | fails e | done =>
    cases taken
    refine loopsBooked (loops _ ?_ ?_) closed stack asked pushed copied shown
    · cases entered <;> rfl
    · cases entered <;> rfl
  | _ => cases taken

theorem quietBooked {s u : State} {a : Account} (booked : Booked s a) {asks : Nat} (fine : crashed s.pc = false)
    (stk : u.stk = s.stk) (shown : u.shown = s.shown) (unchanged : streams s.pc = 0 ∧ streams u.pc = 0)
    (creates : creating u.pc = creating s.pc + asks) (pushes : pushing u.pc = pushing s.pc)
    (stats : statting u.pc = 0) (first : early u.pc = true → early s.pc = true)
    (empty : ends u.pc = true ∨ early u.pc = true → s.stk = []) : Booked u {a with asked := a.asked + asks} where
  streams := fun _ => by
    have before := booked.streams fine
    rw [unchanged.1] at before
    rw [unchanged.2]
    exact before
  crash := booked.crash
  stack := by rw [stk]; exact booked.stack
  asked := by
    have before := booked.asked
    rw [creates]
    dsimp only
    omega
  pushed := by rw [pushes]; exact booked.pushed
  copied := booked.copied
  shown := by
    have before := booked.shown
    rw [shown, stats]
    dsimp only
    cases mine : early u.pc with
    | true =>
      rw [first mine] at before
      rw [if_pos rfl] at before ⊢
      omega
    | false =>
      rw [if_neg Bool.false_ne_true]
      split at before <;> omega
  empty := fun stops => stk.trans (empty stops)

structure Starting (pc : Pc) : Prop where
  fine : crashed pc = false
  early : early pc = true
  streams : streams pc = 0
  creating : creating pc = 0
  pushing : pushing pc = 0

theorem earlyBooked {s u : State} {a : Account} (booked : Booked s a) (first : Starting s.pc) {asks : Nat}
    (stk : u.stk = s.stk) (shown : u.shown = s.shown) (shut : streams u.pc = 0)
    (creates : creating u.pc = asks) (pushes : pushing u.pc = 0) (stats : statting u.pc = 0) :
    Booked u {a with asked := a.asked + asks} :=
  quietBooked booked first.fine stk shown ⟨first.streams, shut⟩
    (by rw [first.creating, creates, Nat.zero_add]) (pushes.trans first.pushing.symm) stats
    (fun _ => first.early) fun _ => booked.empty (.inr first.early)

theorem printStatBooked {s u : State} {a : Account} {reply : Reply} (here : s.pc = .printStat)
    (booked : Booked s a) (taken : printStatReply s reply = some u) : Booked u (charge .printStat reply a) := by
  have fine : crashed s.pc = false := by rw [here]; rfl
  have nothing : s.stk = [] := booked.empty (.inl (by rw [here]; rfl))
  have shut : streams s.pc = 0 ∧ creating s.pc = 0 ∧ pushing s.pc = 0 := by rw [here]; exact ⟨rfl, rfl, rfl⟩
  cases reply with
  | done =>
    simp only [printStatReply] at taken
    split at taken <;> cases taken
    · exact @quietBooked _ _ _ booked 0 fine rfl rfl ⟨shut.1, rfl⟩ shut.2.1.symm shut.2.2.symm rfl
        (fun first => Bool.noConfusion first) fun _ => nothing
    · exact @quietBooked _ _ _ booked 0 fine rfl rfl ⟨shut.1, rfl⟩ shut.2.1.symm shut.2.2.symm rfl
        (fun first => Bool.noConfusion first) fun _ => nothing
  | _ => cases taken

theorem stepBooked {s u : State} {a : Account} {reply : Reply} (booked : Booked s a)
    (taken : step s reply = some u) : Booked u (charge s.pc reply a) := by
  cases here : s.pc with
  | create fileName depth next =>
    simp only [step, here] at taken
    exact createBooked here booked taken
  | push elem next =>
    simp only [step, here] at taken
    exact pushBooked here booked taken
  | lstat fullPath depth =>
    simp only [step, here] at taken
    exact lstatBooked here booked taken
  | opendir fullPath depth =>
    simp only [step, here] at taken
    exact opendirBooked here booked taken
  | chdir fullPath depth =>
    simp only [step, here] at taken
    exact chdirBooked here booked taken
  | readdir depth =>
    simp only [step, here] at taken
    exact readdirBooked here booked taken
  | closedir entered =>
    simp only [step, here] at taken
    exact closedirBooked here booked taken
  | pop =>
    simp only [step, here] at taken
    exact popBooked here booked taken
  | returned ret =>
    simp only [step, here] at taken
    cases taken
  | undefined fault =>
    simp only [step, here] at taken
    cases taken
  | chdirUp fullPath =>
    simp only [step, here] at taken
    obtain ⟨streams, crash, stack, asked, pushed, copied, shown, empty⟩ := booked
    have closed := streams (by rw [here]; rfl)
    rw [here] at closed asked pushed shown
    cases reply <;> cases taken
    · exact loopsBooked (afterDoPathLoops _) closed stack asked pushed copied shown
    · exact loopsBooked (afterDoPathLoops _) closed stack asked pushed copied shown
  | chdirStart =>
    simp only [step, here] at taken
    have first : Starting s.pc := by rw [here]; exact ⟨rfl, rfl, rfl, rfl, rfl⟩
    cases reply <;> cases taken
    · exact @earlyBooked _ _ _ booked first 0 rfl rfl rfl rfl rfl rfl
    · exact @earlyBooked _ _ _ booked first 0 rfl rfl rfl rfl rfl rfl
  | getcwd =>
    simp only [step, here] at taken
    have first : Starting s.pc := by rw [here]; exact ⟨rfl, rfl, rfl, rfl, rfl⟩
    cases reply <;> cases taken
    · exact @earlyBooked _ _ _ booked first 0 rfl rfl rfl rfl rfl rfl
    · exact @earlyBooked _ _ _ booked first 1 rfl rfl rfl rfl rfl rfl
  | printStat =>
    simp only [step, here] at taken
    exact printStatBooked here booked taken

theorem bookRun {s t : State} {replies : List Reply} (run : Run step (fun _ _ => True) s replies t)
    (a : Account) : ∃ b, Run bookStep (fun _ _ => True) (s, a) replies (t, b) := by
  induction run generalizing a with
  | nil s => exact ⟨a, .nil _⟩
  | @cons s reply u rest t _ taken tail ih =>
    obtain ⟨b, later⟩ := ih (charge s.pc reply a)
    exact ⟨b, .cons trivial (by rw [bookStep, taken]; rfl) later⟩

structure Leaks (s : State) (a : Account) : Prop where
  streams : a.closed ≤ a.opened ∧ a.opened ≤ a.closed + 1
  nodes : a.live = a.created + a.copied + s.stk.length
  returns : ∀ ret, s.pc = .returned ret →
    a.opened = a.closed ∧ a.live = a.created + a.copied ∧ 2 * (s.shown.length - 1) ≤ a.live
  every : ∀ ret, s.pc = .returned ret → a.refused = 0 → a.live = 2 * a.asked

theorem ftwLeaks {replies : List Reply} {last : State} (run : Run step (fun _ _ => True) start replies last) :
    ∃ a, Run bookStep (fun _ _ => True) (start, noAccount) replies (last, a) ∧ Leaks last a := by
  obtain ⟨a, books⟩ := bookRun run noAccount
  refine ⟨a, books, ?_⟩
  have booked : Booked last a :=
    runInvariant (fun b : State × Account => Booked b.1 b.2) (fun b reply c before _ taken => by
      obtain ⟨u, moved, rfl⟩ := Option.map_eq_some_iff.mp taken
      exact stepBooked before moved) books startBooked
  obtain ⟨streams, crash, stack, asked, pushed, copied, shown, empty⟩ := booked
  refine ⟨crash, ?_, fun ret here => ?_, fun ret here unfailing => ?_⟩
  · simp only [Account.live]
    omega
  · have nothing := empty (.inl (by rw [here]; rfl))
    have closed := streams (by rw [here]; rfl)
    rw [here] at closed asked pushed shown
    simp only [creating, pushing, statting, early, Bool.false_eq_true, if_false] at asked pushed shown
    rw [nothing] at stack
    refine ⟨closed, ?_, ?_⟩
    · simp only [Account.live, List.length_nil] at stack ⊢
      omega
    · simp only [Account.live, List.length_nil] at stack ⊢
      omega
  · have nothing := empty (.inl (by rw [here]; rfl))
    rw [here] at asked pushed
    simp only [creating, pushing] at asked pushed
    rw [nothing] at stack
    simp only [Account.live, List.length_nil] at stack ⊢
    omega

def oneFile : List Reply :=
  [.done, .path [47], .done, .done, .mode .dir, .done, .done, .done, .done, .entry [97], .done, .done, .atEnd,
   .done, .done, .mode (.file .reg), .done, .done, .done, .done]

theorem oneFileLeaks : ∃ last, Run step (fun _ _ => True) start oneFile last ∧
    ∃ a, Run bookStep (fun _ _ => True) (start, noAccount) oneFile (last, a) ∧ Leaks last a := by
  obtain ⟨last, run⟩ := checkedRun step (fun _ _ => True) start oneFile (by decide +kernel)
  exact ⟨last, run, ftwLeaks run⟩

end OsLabs.FtwResources
