import OsLabs.FtwTotals
import OsLabs.LinkedStack

/-! ftw as a machine that makes one call of the C library at a time and takes any answer: the
walks over every tree, with every pattern of failing calls. In the walk of the other modules
chdir("..") and closedir succeed; here no call need. -/
namespace OsLabs.FtwCalls
open CInteger Runs
open Ftw (Name Errno FileKind Mode Node Stats FtwType Message maxName dotdot linkLast unlinkLast
  incStat sumStat findPercent)

/- What a call answers. `atEnd` is readdir's NULL without an error. -/
inductive Reply where
  | fails (errno : Errno)
  | done
  | path (cwd : Name)
  | mode (mode : Mode)
  | entry (name : Name)
  | atEnd

/- What C leaves undefined: a NULL node, a name too long for its array, an int or a long that
is counted beyond its range, a division by zero. -/
inductive Fault where
  | nullNode
  | strcpyOverflow
  | counting
  | division
  deriving DecidableEq, Repr

inductive Next where
  | loop
  | entries (depth : Int)

/- The call that is made next, with the variables still needed. create and push stand for the
malloc in them, pop for the one in it. -/
inductive Pc where
  | chdirStart
  | getcwd
  | create (fileName : Name) (depth : Int) (next : Next)
  | push (elem : Node) (next : Next)
  | chdirUp (fullPath : Name)
  | lstat (fullPath : Name) (depth : Int)
  | opendir (fullPath : Name) (depth : Int)
  | chdir (fullPath : Name) (depth : Int)
  | readdir (depth : Int)
  | closedir (entered : Bool)
  | pop
  | printStat
  | returned (ret : Int)
  | undefined (fault : Fault)

structure Listed where
  failed : Bool
  reported : Bool
  deriving DecidableEq, Repr

structure State where
  pc : Pc
  stk : List Node
  errno : Nat
  stats : Stats
  out : List Message
  shown : List (Name × FtwType × Int)
  listed : List Listed
  rows : List (Int × Int)

def start : State := ⟨.chdirStart, [], 0, ⟨0, 0, 0, 0, 0, 0, 0, 0⟩, [], [], [], []⟩

def dot : Name := [46]

def noMemory : Errno := ⟨Ftw.enomem, by decide⟩

def State.fail (s : State) (e : Errno) : State := {s with errno := e.code}

def loopTest (s : State) (elem : Option Node) : State :=
  if s.stk.isEmpty then {s with pc := .printStat}
  else match elem with
    | none => {s with pc := .undefined .nullNode}
    | some elem =>
        let depth := toInt elem.depth
        {s with pc := if depth < 0 then .chdirUp elem.fileName else .lstat elem.fileName depth}

def afterDoPath (s : State) : State :=
  match s.stk with
  | [] => loopTest s none
  | _ :: _ => {s with pc := .pop}

def afterPush (s : State) (elem : Node) : Next → State
  | .loop => loopTest s (some elem)
  | .entries depth => {s with pc := .readdir depth}

def createReply (s : State) (fileName : Name) (depth : Int) (next : Next) :
    Reply → Option State
  | .fails e => some {s.fail e with pc := .undefined .nullNode}
  | .done =>
      if fits : fileName.length < maxName then some {s with pc := .push ⟨fileName, depth, fits⟩ next}
      else some {s with pc := .undefined .strcpyOverflow}
  | _ => none

def pushReply (s : State) (elem : Node) (next : Next) : Reply → Option State
  | .fails e => some (afterPush (s.fail e) elem next)
  | .done => some (afterPush {s with stk := linkLast s.stk elem} elem next)
  | _ => none

def increment (stats : Stats) : Mode → Stats
  | .file kind => incStat kind stats
  | .dir => {stats with ndir := toLong (stats.ndir + 1)}

def ftwType : Mode → FtwType
  | .file _ => .file
  | .dir => .dir

def lstatReply (s : State) (fullPath : Name) (depth : Int) : Reply → Option State
  | .fails e => some (afterDoPath (s.fail e))
  | .mode mode =>
      if s.stats.counter mode + 1 < 2^63 then
        let s : State := {s with
          stats := increment s.stats mode,
          shown := s.shown ++ [(fullPath, ftwType mode, depth)]}
        match mode with
        | .file _ => some (afterDoPath s)
        | .dir => some {s with pc := .opendir fullPath depth}
      else some {s with pc := .undefined .counting}
  | _ => none

def opendirReply (s : State) (fullPath : Name) (depth : Int) : Reply → Option State
  | .fails e => some (afterDoPath {s.fail e with out := s.out ++ [.cannotOpen]})
  | .done => some {s with pc := .chdir fullPath depth}
  | _ => none

def chdirReply (s : State) (depth : Int) : Reply → Option State
  | .fails e => some {s.fail e with pc := .closedir false}
  | .done =>
      if depth + 1 < 2^31 then some {s with pc := .create dotdot (-1) (.entries (depth + 1))}
      else some {s with pc := .undefined .counting}
  | _ => none

def endListing (s : State) (failed : Bool) : State :=
  let reported := decide (s.errno ≠ 0)
  {s with
    pc := .closedir true,
    out := if reported then s.out ++ [.notAllRead] else s.out,
    listed := s.listed ++ [⟨failed, reported⟩]}

def readdirReply (s : State) (depth : Int) : Reply → Option State
  | .fails e => some (endListing (s.fail e) true)
  | .atEnd => some (endListing s false)
  | .entry name =>
      if name = dot ∨ name = dotdot then some s
      else some {s with pc := .create name depth (.entries depth)}
  | _ => none

/- The message about chdir comes behind closedir; the value of doPath is not looked at. -/
def closedirReply (s : State) (entered : Bool) (reply : Reply) : Option State :=
  let s := if entered then s else {s with out := s.out ++ [.cannotEnter]}
  match reply with
  | .fails e => some (afterDoPath (s.fail e))
  | .done => some (afterDoPath s)
  | _ => none

/- The last node goes also when its copy cannot be made. -/
def popReply (s : State) : Reply → Option State
  | .fails e => match s.stk with
    | [] => none
    | head :: rest => some (loopTest {s.fail e with stk := (unlinkLast head rest).1} none)
  | .done => match s.stk with
    | [] => none
    | head :: rest =>
        let (kept, last) := unlinkLast head rest
        some (loopTest {s with stk := kept} (some last))
  | _ => none

def printStatReply (s : State) : Reply → Option State
  | .done =>
      let s := {s with stats := sumStat s.stats}
      match Ftw.printStat s.stats with
      | .error _ => some {s with pc := .undefined .division}
      | .ok rows => some {s with pc := .returned 0, rows := rows}
  | _ => none

def step (s : State) (reply : Reply) : Option State :=
  match s.pc with
  | .chdirStart => match reply with
    | .fails e => some {s.fail e with pc := .returned (-1), out := s.out ++ [.noDirectory]}
    | .done => some {s with pc := .getcwd}
    | _ => none
  | .getcwd => match reply with
    | .fails e => some {s.fail e with pc := .returned (-1), out := s.out ++ [.noPath]}
    | .path cwd => some {s with pc := .create cwd 0 .loop}
    | _ => none
  | .create fileName depth next => createReply s fileName depth next reply
  | .push elem next => pushReply s elem next reply
  | .chdirUp _ => match reply with
    | .fails e => some (afterDoPath (s.fail e))
    | .done => some (afterDoPath s)
    | _ => none
  | .lstat fullPath depth => lstatReply s fullPath depth reply
  | .opendir fullPath depth => opendirReply s fullPath depth reply
  | .chdir _ depth => chdirReply s depth reply
  | .readdir depth => readdirReply s depth reply
  | .closedir entered => closedirReply s entered reply
  | .pop => popReply s reply
  | .printStat => printStatReply s reply
  | .returned _ => none
  | .undefined _ => none

def Reply.failed : Reply → Bool
  | .fails _ => true
  | _ => false

structure Same (s u : State) : Prop where
  errno : u.errno = s.errno
  stats : u.stats = s.stats
  listed : u.listed = s.listed

theorem loopTestSame {s t : State} (same : Same s t) (elem : Option Node) :
    Same s (loopTest t elem) := by
  have kept : Same t (loopTest t elem) := by
    unfold loopTest
    split
    · exact ⟨rfl, rfl, rfl⟩
    · split <;> exact ⟨rfl, rfl, rfl⟩
  exact ⟨kept.errno.trans same.errno, kept.stats.trans same.stats, kept.listed.trans same.listed⟩

theorem afterDoPathSame {s t : State} (same : Same s t) : Same s (afterDoPath t) := by
  unfold afterDoPath
  split
  · exact loopTestSame same none
  · exact ⟨same.errno, same.stats, same.listed⟩

theorem afterPushSame {s t : State} (same : Same s t) (elem : Node) (next : Next) :
    Same s (afterPush t elem next) := by
  cases next with
  | loop => exact loopTestSame same (some elem)
  | entries depth => exact ⟨same.errno, same.stats, same.listed⟩

theorem loopTestNull (s : State) (elem : Option Node) :
    (loopTest s elem).pc = .undefined .nullNode ↔ elem = none ∧ s.stk ≠ [] := by
  unfold loopTest
  cases s.stk with
  | nil => simp
  | cons head rest =>
    cases elem with
    | none => simp
    | some elem =>
      simp only [List.isEmpty_cons, Bool.false_eq_true, if_false, reduceCtorEq, false_and, iff_false]
      split <;> exact Pc.noConfusion

theorem afterDoPathFine (s : State) : (afterDoPath s).pc ≠ .undefined .nullNode := by
  unfold afterDoPath
  split
  · rename_i empty
    rw [ne_eq, loopTestNull, empty]
    simp
  · exact Pc.noConfusion

theorem afterPushFine (s : State) (elem : Node) (next : Next) :
    (afterPush s elem next).pc ≠ .undefined .nullNode := by
  cases next with
  | loop => simp [afterPush, loopTestNull]
  | entries depth => exact Pc.noConfusion

theorem unlinkLastNil (head : Node) (rest : List Node) : (unlinkLast head rest).1 = [] ↔ rest = [] := by
  cases rest with
  | nil => exact iff_of_true rfl rfl
  | cons next rest => exact iff_of_false (List.cons_ne_nil _ _) (List.cons_ne_nil _ _)

def allocates (s : State) (reply : Reply) : Bool :=
  match s.pc with
  | .create _ _ _ => !reply.failed
  | .pop => !reply.failed || s.stk.length == 1
  | _ => true

abbrev Allocates (s : State) (reply : Reply) : Prop := allocates s reply = true

theorem lstatFine {s u : State} {fullPath : Name} {depth : Int} {reply : Reply}
    (taken : lstatReply s fullPath depth reply = some u) : u.pc ≠ .undefined .nullNode := by
  cases reply with
  | fails e => cases taken; exact afterDoPathFine _
  | mode mode =>
    simp only [lstatReply] at taken
    split at taken
    · cases mode with
      | file kind => cases taken; exact afterDoPathFine _
      | dir => cases taken; exact Pc.noConfusion
    · cases taken
      simp
  | _ => cases taken

theorem readdirFine {s u : State} {depth : Int} {reply : Reply} (here : s.pc = .readdir depth)
    (taken : readdirReply s depth reply = some u) : u.pc ≠ .undefined .nullNode := by
  cases reply with
  | entry name =>
    simp only [readdirReply] at taken
    split at taken <;> cases taken
    · rw [here]
      exact Pc.noConfusion
    · exact Pc.noConfusion
  | fails e => cases taken; exact Pc.noConfusion
  | atEnd => cases taken; exact Pc.noConfusion
  | _ => cases taken

theorem chdirFine {s u : State} {depth : Int} {reply : Reply}
    (taken : chdirReply s depth reply = some u) : u.pc ≠ .undefined .nullNode := by
  cases reply with
  | fails e => cases taken; exact Pc.noConfusion
  | done =>
    simp only [chdirReply] at taken
    split at taken <;> cases taken
    · exact Pc.noConfusion
    · simp
  | _ => cases taken

theorem printStatFine {s u : State} {reply : Reply} (taken : printStatReply s reply = some u) :
    u.pc ≠ .undefined .nullNode := by
  cases reply with
  | done =>
    simp only [printStatReply] at taken
    split at taken <;> cases taken
    · simp
    · exact Pc.noConfusion
  | _ => cases taken

theorem createNull {s u : State} {fileName : Name} {depth : Int} {next : Next} {reply : Reply}
    (taken : createReply s fileName depth next reply = some u) :
    u.pc = .undefined .nullNode ↔ reply.failed = true := by
  cases reply with
  | fails e => cases taken; exact iff_of_true rfl rfl
  | done =>
    simp only [createReply] at taken
    split at taken <;> cases taken <;> simp [Reply.failed]
  | _ => cases taken

theorem popNull {s u : State} {reply : Reply} (taken : popReply s reply = some u) :
    u.pc = .undefined .nullNode ↔ reply.failed = true ∧ s.stk.length ≠ 1 := by
  cases reply with
  | fails e =>
    simp only [popReply] at taken
    split at taken
    · cases taken
    · rename_i head rest same
      cases taken
      rw [loopTestNull, same]
      simp [unlinkLastNil, Reply.failed]
  | done =>
    simp only [popReply] at taken
    split at taken
    · cases taken
    · cases taken
      rw [loopTestNull]
      simp [Reply.failed]
  | _ => cases taken

theorem stepNull {s u : State} {reply : Reply} (taken : step s reply = some u) :
    u.pc = .undefined .nullNode ↔ ¬ Allocates s reply := by
  obtain ⟨pc, stk, errno, stats, out, shown, listed, rows⟩ := s
  have fine : u.pc ≠ .undefined .nullNode → (u.pc = .undefined .nullNode ↔ ¬ true = true) :=
    fun other => iff_of_false other (not_not_intro rfl)
  cases pc with
  | create fileName depth next =>
    refine (createNull taken).trans ?_
    simp [Allocates, allocates]
  | pop =>
    refine (popNull taken).trans ?_
    simp [Allocates, allocates]
  | lstat fullPath depth => exact fine (lstatFine taken)
  | readdir depth => exact fine (readdirFine rfl taken)
  | printStat => exact fine (printStatFine taken)
  | chdirStart => cases reply <;> cases taken <;> exact fine Pc.noConfusion
  | getcwd => cases reply <;> cases taken <;> exact fine Pc.noConfusion
  | push elem next => cases reply <;> cases taken <;> exact fine (afterPushFine _ _ _)
  | chdirUp fullPath => cases reply <;> cases taken <;> exact fine (afterDoPathFine _)
  | opendir fullPath depth =>
    cases reply <;> cases taken
    · exact fine (afterDoPathFine _)
    · exact fine Pc.noConfusion
  | chdir fullPath depth => exact fine (chdirFine taken)
  | closedir entered => cases reply <;> cases taken <;> exact fine (afterDoPathFine _)
  | returned ret => cases taken
  | undefined fault => cases taken

theorem stepUndefined {s u : State} {fault : Fault} (here : s.pc = .undefined fault) (reply : Reply) :
    step s reply ≠ some u := by
  simp [step, here]

theorem nullNodeRun {s t : State} {replies : List Reply} (fine : s.pc ≠ .undefined .nullNode)
    (run : Run step (fun _ _ => True) s replies t) :
    t.pc ≠ .undefined .nullNode ↔ Run step Allocates s replies t := by
  refine runSticky (fun s => s.pc ≠ .undefined .nullNode) (fun s => s.pc = .undefined .nullNode)
    (fun _ other => other) (fun s reply u _ _ taken => ?_)
    (fun s reply u null _ taken => absurd taken (stepUndefined null reply)) run fine
  by_cases allocates : Allocates s reply
  · exact .inl ⟨allocates, fun null => (stepNull taken).mp null allocates⟩
  · exact .inr ⟨allocates, (stepNull taken).mpr allocates⟩

def Reply.counts (mode : Mode) : Reply → Bool
  | .mode other => other == mode
  | _ => false

theorem incrementCounter {stats : Stats} {mode : Mode} (natural : 0 ≤ stats.counter mode)
    (room : stats.counter mode + 1 < 2^63) (other : Mode) :
    (increment stats mode).counter other =
      stats.counter other + if mode = other then 1 else 0 := by
  by_cases same : mode = other
  · subst same
    rw [if_pos rfl, ← toLongExact (x := stats.counter mode + 1) (by omega) room]
    rcases mode with (kind | -)
    · cases kind <;> rfl
    · rfl
  · rw [if_neg same, Int.add_zero]
    rcases mode with (kind | -) <;> rcases other with (kind' | -)
    · cases kind <;> cases kind' <;> first | rfl | exact absurd rfl same
    · cases kind <;> rfl
    · cases kind' <;> rfl
    · exact absurd rfl same

theorem sumStatCounter (stats : Stats) (mode : Mode) : (sumStat stats).counter mode =
    stats.counter mode := by
  rcases mode with (kind | -)
  · cases kind <;> rfl
  · rfl

def Natural (s : State) : Prop := ∀ mode, 0 ≤ s.stats.counter mode

def Reply.errno (before : Nat) : Reply → Nat
  | .fails e => e.code
  | _ => before

def ended (s : State) (reply : Reply) : List Listed :=
  match s.pc, reply with
  | .readdir _, .fails e => [⟨true, decide (e.code ≠ 0)⟩]
  | .readdir _, .atEnd => [⟨false, decide (s.errno ≠ 0)⟩]
  | _, _ => []

structure Effect (s : State) (reply : Reply) (u : State) : Prop where
  errno : u.errno = reply.errno s.errno
  counted : Natural s → u.pc ≠ .undefined .counting → ∀ mode,
    u.stats.counter mode = s.stats.counter mode + if reply.counts mode then 1 else 0
  listed : u.listed = s.listed ++ ended s reply

theorem failing {s u : State} {e : Errno} (same : Same (s.fail e) u) (quiet : ended s (.fails e) = []) :
    Effect s (.fails e) u where
  errno := same.errno
  counted _ _ mode := by
    rw [same.stats]
    exact (Int.add_zero _).symm
  listed := by rw [same.listed, quiet, List.append_nil]; rfl

theorem quietly {s u : State} {reply : Reply} (same : Same s u) (errno : reply.errno s.errno = s.errno)
    (counts : ∀ mode, reply.counts mode = false) (quiet : ended s reply = []) : Effect s reply u where
  errno := same.errno.trans errno.symm
  counted _ _ mode := by rw [same.stats, counts, if_neg Bool.false_ne_true, Int.add_zero]
  listed := by rw [same.listed, quiet, List.append_nil]

theorem passing {s u : State} (same : Same s u) : Effect s .done u := by
  refine quietly same rfl (fun _ => rfl) ?_
  obtain ⟨pc, stk, errno, stats, out, shown, listed, rows⟩ := s
  cases pc <;> rfl

theorem lstatEffect {s u : State} {fullPath : Name} {depth : Int} (here : s.pc = .lstat fullPath depth)
    {reply : Reply} (taken : lstatReply s fullPath depth reply = some u) : Effect s reply u := by
  have quiet : ended s reply = [] := by
    unfold ended
    rw [here]
  cases reply with
  | fails e => cases taken; exact failing (afterDoPathSame ⟨rfl, rfl, rfl⟩) quiet
  | mode found =>
    simp only [lstatReply] at taken
    split at taken
    · rename_i room
      have counter : Natural s → ∀ mode, (increment s.stats found).counter mode =
          s.stats.counter mode + if (Reply.mode found).counts mode then 1 else 0 := by
        intro natural mode
        rw [incrementCounter (natural found) room mode]
        simp [Reply.counts]
      cases found with
      | file kind =>
        cases taken
        have same := @afterDoPathSame {s with
          stats := increment s.stats (.file kind),
          shown := s.shown ++ [(fullPath, .file, depth)]} _ ⟨rfl, rfl, rfl⟩
        refine ⟨same.errno, fun natural _ mode => ?_, ?_⟩
        · exact (congrArg (Stats.counter · mode) same.stats).trans (counter natural mode)
        · rw [quiet, List.append_nil]
          exact same.listed
      | dir =>
        cases taken
        refine ⟨rfl, fun natural _ mode => counter natural mode, ?_⟩
        rw [quiet, List.append_nil]
    · cases taken
      refine ⟨rfl, fun _ goes => absurd rfl goes, ?_⟩
      rw [quiet, List.append_nil]
  | _ => cases taken

theorem stepEffect {s u : State} {reply : Reply} (taken : step s reply = some u) :
    Effect s reply u := by
  obtain ⟨pc, stk, errno, stats, out, shown, listed, rows⟩ := s
  cases pc with
  | lstat fullPath depth => exact lstatEffect rfl taken
  | chdirStart =>
    cases reply <;> cases taken
    · exact failing ⟨rfl, rfl, rfl⟩ rfl
    · exact passing ⟨rfl, rfl, rfl⟩
  | getcwd =>
    cases reply <;> cases taken
    · exact failing ⟨rfl, rfl, rfl⟩ rfl
    · exact quietly ⟨rfl, rfl, rfl⟩ rfl (fun _ => rfl) rfl
  | create fileName depth next =>
    cases reply with
    | fails e => cases taken; exact failing ⟨rfl, rfl, rfl⟩ rfl
    | done =>
      simp only [step, createReply] at taken
      split at taken <;> cases taken <;> exact passing ⟨rfl, rfl, rfl⟩
    | _ => cases taken
  | push elem next =>
    cases reply <;> cases taken
    · exact failing (afterPushSame ⟨rfl, rfl, rfl⟩ _ _) rfl
    · refine passing (afterPushSame ?_ _ _)
      exact ⟨rfl, rfl, rfl⟩
  | chdirUp fullPath =>
    cases reply <;> cases taken
    · exact failing (afterDoPathSame ⟨rfl, rfl, rfl⟩) rfl
    · exact passing (afterDoPathSame ⟨rfl, rfl, rfl⟩)
  | opendir fullPath depth =>
    cases reply <;> cases taken
    · exact failing (afterDoPathSame ⟨rfl, rfl, rfl⟩) rfl
    · exact passing ⟨rfl, rfl, rfl⟩
  | chdir fullPath depth =>
    cases reply with
    | fails e => cases taken; exact failing ⟨rfl, rfl, rfl⟩ rfl
    | done =>
      simp only [step, chdirReply] at taken
      split at taken <;> cases taken <;> exact passing ⟨rfl, rfl, rfl⟩
    | _ => cases taken
  | readdir depth =>
    cases reply with
    | entry name =>
      simp only [step, readdirReply] at taken
      split at taken <;> cases taken <;> exact quietly ⟨rfl, rfl, rfl⟩ rfl (fun _ => rfl) rfl
    | fails e => cases taken; exact ⟨rfl, fun _ _ mode => (Int.add_zero _).symm, rfl⟩
    | atEnd => cases taken; exact ⟨rfl, fun _ _ mode => (Int.add_zero _).symm, rfl⟩
    | _ => cases taken
  | closedir entered =>
    cases entered <;> cases reply <;> cases taken
    · exact failing (afterDoPathSame ⟨rfl, rfl, rfl⟩) rfl
    · exact passing (afterDoPathSame ⟨rfl, rfl, rfl⟩)
    · exact failing (afterDoPathSame ⟨rfl, rfl, rfl⟩) rfl
    · exact passing (afterDoPathSame ⟨rfl, rfl, rfl⟩)
  | pop =>
    cases stk with
    | nil => cases reply <;> cases taken
    | cons head rest =>
      cases reply <;> cases taken
      · refine failing (loopTestSame ?_ _) rfl
        exact ⟨rfl, rfl, rfl⟩
      · refine passing (loopTestSame ?_ _)
        exact ⟨rfl, rfl, rfl⟩
  | printStat =>
    cases reply with
    | done =>
      simp only [step, printStatReply] at taken
      have sum := sumStatCounter stats
      split at taken <;> cases taken <;>
        exact ⟨rfl, fun _ _ mode => (sum mode).trans (Int.add_zero _).symm, (List.append_nil _).symm⟩
    | _ => cases taken
  | returned ret => cases taken
  | undefined fault => cases taken

end OsLabs.FtwCalls
