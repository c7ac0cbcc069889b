import OsLabs.FtwCalls

/-! A walk over a tree that stands still is a run of the machine: the tree and the oracle for
malloc give the answers. The machine stops where a counter or a depth leaves its range, where
the walk wraps it round. -/
namespace OsLabs.FtwAnswers
open CInteger WhileLoop Runs FtwCalls
open Ftw (Name Errno Mode Node FtwType Ub Env Listing Tree Turn FileSystem ValidName maxName dotdot
  linkLast unlinkLast sumStat)

def shown : Ftw.Call → Option (Name × FtwType × Int)
  | .lstat _ _ _ => none
  | .func _ name type depth => some (name, type, depth)

def embed (pc : Pc) (s : Ftw.State) (listed : List Listed) : State :=
  ⟨pc, s.stk, s.errno, s.stats, s.out.map Prod.fst, s.calls.filterMap shown, listed, []⟩

def fault : Ub → Fault
  | .nullNode => .nullNode
  | .strcpyOverflow => .strcpyOverflow
  | .division => .division

def Ends {α : Type} (goal : α → State → Prop) : Except Ub α → State → Prop
  | .ok a, u => goal a u
  | .error ub, u => u.pc = .undefined (fault ub)

def Arrives (goal : State → Prop) : State → Prop :=
  Reaches step fun u => u.pc = .undefined .counting ∨ goal u

theorem arrivesHere {goal : State → Prop} {s : State} (here : goal s) : Arrives goal s :=
  reachesHere (.inr here)

theorem arrivesStep {goal : State → Prop} {s u : State} (reply : Reply)
    (taken : step s reply = some u) (later : Arrives goal u) : Arrives goal s :=
  reachesStep taken later

theorem arrivesTrans {goal between : State → Prop} {s : State} (first : Arrives between s)
    (second : ∀ u, between u → Arrives goal u) : Arrives goal s := by
  refine reachesTrans first fun u there => ?_
  rcases there with counting | there
  · exact reachesHere (.inl counting)
  · exact second u there

theorem arrivesAfter {α : Type} {between : α → State → Prop} {goal : State → Prop} {s : State}
    {result : Except Ub α} (first : Arrives (Ends between result) s)
    (fails : ∀ ub, result = .error ub → ∀ u : State, u.pc = .undefined (fault ub) → goal u)
    (goes : ∀ a, result = .ok a → ∀ u, between a u → Arrives goal u) : Arrives goal s := by
  refine arrivesTrans first fun u there => ?_
  cases result with
  | error ub => exact arrivesHere (fails ub rfl u there)
  | ok a => exact goes a rfl u there

theorem findAll {p : Name → Prop} {name : Name} {tree : Tree} : ∀ {content : Listing},
    content.All p → content.find name = some tree → tree.All p
  | .nil, _, here => by cases here
  | .fails _, _, here => by cases here
  | .dots _ rest, all, here => @findAll p name tree rest all here
  | .entry other t rest, ⟨_, inner, later⟩, here => by
    rw [Listing.find] at here
    split at here
    · cases here
      exact inner
    · exact findAll later here

theorem percentError {part all : Int} {ub : Ub} (failed : Ftw.findPercent part all = .error ub) :
    ub = .division := by
  simp only [Ftw.findPercent] at failed
  split at failed <;> cases failed
  rfl

theorem printStatError {stats : Ftw.Stats} {ub : Ub} (failed : Ftw.printStat stats = .error ub) :
    ub = .division := by
  simp only [Ftw.printStat] at failed
  generalize [stats.nreg, stats.ndir, stats.nblk, stats.nchr, stats.nfifo, stats.nslink,
    stats.nsock] = rows at failed
  induction rows with
  | nil => cases failed
  | cons part rest ih =>
    rw [List.foldr_cons] at failed
    split at failed
    · cases failed
    · rename_i found
      cases failed
      exact percentError found
    · rename_i later _
      cases failed
      exact ih later

section Files
variable {env : Env} (fs : FileSystem env)
include fs

theorem dirAtValid : ∀ (path : List Name) {content : Listing}, env.dirAt path = some content →
    content.All ValidName
  | [], _, here => by cases here; exact fs.valid
  | name :: path, content, here => by
    obtain ⟨up, above, inner⟩ := Option.bind_eq_some_iff.mp here
    obtain ⟨tree, found, has⟩ := Option.bind_eq_some_iff.mp inner
    have all := findAll (dirAtValid path above) found
    cases tree with
    | file lstat kind => cases has
    | dir lstat opendir chdir inside => cases has; exact all

theorem opendirValid {cwd : Ftw.Cwd} {name : Name} {content : Listing}
    (opened : env.opendirAt cwd name = .ok content) : content.All ValidName := by
  have valid : ∀ tree, env.resolve cwd name = some tree → tree.All ValidName := by
    intro tree found
    unfold Env.resolve at found
    split at found
    · cases found
      exact fs.valid
    · cases cwd with
      | elsewhere => cases found
      | inside path =>
        obtain ⟨up, above, inner⟩ := Option.bind_eq_some_iff.mp found
        exact findAll (dirAtValid fs path above) inner
  unfold Env.opendirAt at opened
  split at opened
  · cases opened
  · cases opened
  · rename_i found
    cases opened
    exact valid _ found
  · cases opened

end Files

section Parts
variable (env : Env)

theorem createPushArrives (s : Ftw.State) (name : Name) (depth : Int) (next : Next)
    (listed : List Listed) : Arrives
      (Ends (fun r u => ∃ pc, u = afterPush (embed pc r.2 listed) r.1 next)
        (Ftw.createPush env s name depth)) (embed (.create name depth next) s listed) := by
  unfold Ftw.createPush
  by_cases fits : name.length < maxName
  · rw [dif_pos fits]
    cases first : env.malloc s.mallocs with
    | false =>
      simp only [Ftw.createNode, first, Bool.false_eq_true, if_false]
      exact arrivesStep (.fails noMemory) rfl (arrivesHere rfl)
    | true =>
      simp only [Ftw.createNode, first, if_true]
      refine arrivesStep .done (dif_pos fits) ?_
      cases second : env.malloc (s.mallocs + 1) with
      | false =>
        simp only [Ftw.push, Ftw.createNode, second, Bool.false_eq_true, if_false]
        exact arrivesStep (.fails noMemory) rfl (arrivesHere ⟨_, rfl⟩)
      | true =>
        simp only [Ftw.push, Ftw.createNode, second, if_true]
        exact arrivesStep .done rfl (arrivesHere ⟨_, rfl⟩)
  · rw [dif_neg fits]
    exact arrivesStep .done (dif_neg fits) (arrivesHere rfl)

def reported (s : Ftw.State) : Ftw.State :=
  if s.errno ≠ 0 then {s with out := s.out ++ [(.notAllRead, s.cwd)]} else s

theorem endListingEmbed (pc : Pc) (s : Ftw.State) (listed : List Listed) (failed : Bool) :
    ∃ log, endListing (embed pc s listed) failed = embed (.closedir true) (reported s) log := by
  refine ⟨listed ++ [⟨failed, decide (s.errno ≠ 0)⟩], ?_⟩
  unfold reported
  by_cases dirty : s.errno ≠ 0
  · simp [endListing, embed, dirty]
  · simp [endListing, embed, dirty]

theorem readEntriesArrives (depth : Int) : ∀ (content : Listing), content.All ValidName →
    ∀ (s : Ftw.State) (listed : List Listed), Arrives
      (Ends (fun t u => ∃ log, u = embed (.closedir true) (reported t) log)
        (Ftw.readEntries env depth content s)) (embed (.readdir depth) s listed)
  | .nil, _, s, listed =>
    arrivesStep .atEnd rfl (arrivesHere (endListingEmbed _ s listed false))
  | .fails e, _, s, listed =>
    arrivesStep (.fails e) rfl
      (arrivesHere (endListingEmbed (.readdir depth) {s with errno := e.code} listed true))
  | .dots _ rest, valid, s, listed =>
    arrivesStep (.entry dot) rfl (readEntriesArrives depth rest valid s listed)
  | .entry name tree rest, ⟨⟨_, other, more, _⟩, _, later⟩, s, listed => by
    refine arrivesStep (.entry name) (if_neg (not_or.mpr ⟨other, more⟩)) ?_
    refine arrivesAfter (createPushArrives env s name depth _ listed) (fun ub failed u there => ?_)
      (fun r created u there => ?_)
    · rw [Ftw.readEntries, failed]
      exact there
    · obtain ⟨pc, rfl⟩ := there
      rw [Ftw.readEntries, created]
      exact readEntriesArrives depth rest later r.2 listed

def Done (t : Ftw.State) (u : State) : Prop := ∃ pc log, u = afterDoPath (embed pc t log)

theorem readDirectoryArrives (s : Ftw.State) {content : Listing} (valid : content.All ValidName)
    (depth : Int) (listed : List Listed) : Arrives
      (Ends (fun r => Done r.2) (Ftw.readDirectory env s content depth))
      (embed (.create dotdot (-1) (.entries depth)) s listed) := by
  refine arrivesAfter (createPushArrives env s dotdot (-1) _ listed) (fun ub failed u there => ?_)
    (fun r created u there => ?_)
  · rw [Ftw.readDirectory, failed]
    exact there
  · obtain ⟨pc, rfl⟩ := there
    refine arrivesAfter (readEntriesArrives env depth content valid r.2 listed)
      (fun ub failed u there => ?_) (fun t read u there => ?_)
    · simp only [Ftw.readDirectory, created, failed]
      exact there
    · obtain ⟨log, rfl⟩ := there
      have ends : Ftw.readDirectory env s content depth = .ok (0, reported t) := by
        simp only [Ftw.readDirectory, created, read, reported]
        split <;> rfl
      rw [ends]
      exact arrivesStep .done rfl (arrivesHere ⟨_, _, rfl⟩)

theorem lstatCode {cwd : Ftw.Cwd} {name : Name} {code : Nat}
    (failed : env.lstatAt cwd name = .error code) : code ≠ 0 := by
  unfold Ftw.Env.lstatAt at failed
  split at failed <;> cases failed
  · exact show 2 ≠ 0 by decide
  · exact Errno.nonzero _
  · exact Errno.nonzero _

theorem opendirCode {cwd : Ftw.Cwd} {name : Name} {code : Nat}
    (failed : env.opendirAt cwd name = .error code) : code ≠ 0 := by
  unfold Ftw.Env.opendirAt at failed
  split at failed <;> cases failed
  · exact show 2 ≠ 0 by decide
  · exact show 20 ≠ 0 by decide
  · exact Errno.nonzero _

theorem chdirCode {cwd : Ftw.Cwd} {name : Name} {code : Nat}
    (failed : env.chdirAt cwd name = .error code) : code ≠ 0 := by
  unfold Ftw.Env.chdirAt at failed
  split at failed
  · split at failed <;> cases failed
  · split at failed
    · cases failed
      exact show 2 ≠ 0 by decide
    · cases failed
      exact show 20 ≠ 0 by decide
    · cases failed
      exact Errno.nonzero _
    · split at failed
      · cases failed
      · split at failed <;> cases failed

def told (s : Ftw.State) (name : Name) (mode : Mode) (depth : Int) : Ftw.State :=
  {s with
    stats := increment s.stats mode,
    calls := s.calls ++ [.lstat s.cwd name (some mode), .func s.cwd name (ftwType mode) depth]}

theorem embedTold (pc : Pc) (s : Ftw.State) (name : Name) (mode : Mode) (depth : Int)
    (listed : List Listed) : embed pc (told s name mode depth) listed =
      {embed pc s listed with
        stats := increment s.stats mode,
        shown := s.calls.filterMap shown ++ [(name, ftwType mode, depth)]} := by
  simp only [embed, told, List.filterMap_append]
  rfl

variable (fs : FileSystem env)
include fs

theorem enterArrives {s : Ftw.State} {fullPath : Name} {depth : Int} (natural : ¬ depth < 0)
    (deep : depth < 2^31) (said : env.lstatAt s.cwd fullPath = .ok .dir) (listed : List Listed) :
    Arrives (Ends (fun r => Done r.2) (Ftw.doPath env s fullPath depth))
      (embed (.opendir fullPath depth) (told s fullPath .dir depth) listed) := by
  cases opened : env.opendirAt s.cwd fullPath with
  | error code =>
    simp only [Ftw.doPath, if_neg natural, said, opened]
    refine arrivesStep (.fails ⟨code, opendirCode env opened⟩) rfl
      (arrivesHere ⟨.opendir fullPath depth, listed, ?_⟩)
    simp [embed, told, State.fail, increment, ftwType]
  | ok content =>
    refine arrivesStep .done rfl ?_
    cases entered : env.chdirAt s.cwd fullPath with
    | error code =>
      simp only [Ftw.doPath, if_neg natural, said, opened, entered]
      refine arrivesStep (.fails ⟨code, chdirCode env entered⟩) rfl ?_
      refine arrivesStep .done rfl (arrivesHere ⟨.closedir false, listed, ?_⟩)
      simp [embed, told, State.fail, increment, ftwType]
    | ok cwd =>
      have path : Ftw.doPath env s fullPath depth =
          Ftw.readDirectory env {told s fullPath .dir depth with cwd := cwd} content
            (toInt (depth + 1)) := by
        simp only [Ftw.doPath, if_neg natural, said, opened, entered]
        rfl
      rw [path]
      by_cases room : depth + 1 < 2^31
      · rw [toIntExact (by omega) room]
        exact arrivesStep .done (if_pos room)
          (readDirectoryArrives env {told s fullPath .dir depth with cwd := cwd}
            (opendirValid fs opened) (depth + 1) listed)
      · exact reachesStep (a := .done) (if_neg room) (reachesHere (.inl rfl))

theorem doPathArrives (s : Ftw.State) (fullPath : Name) {depth : Int} (deep : depth < 2^31)
    (listed : List Listed) : Arrives (Ends (fun r => Done r.2) (Ftw.doPath env s fullPath depth))
      (embed (if depth < 0 then .chdirUp fullPath else .lstat fullPath depth) s listed) := by
  by_cases negative : depth < 0
  · rw [if_pos negative, Ftw.doPath, if_pos negative]
    cases up : env.chdirAt s.cwd fullPath with
    | error code =>
      exact arrivesStep (.fails ⟨code, chdirCode env up⟩) rfl
        (arrivesHere ⟨.chdirUp fullPath, listed, rfl⟩)
    | ok cwd => exact arrivesStep .done rfl (arrivesHere ⟨.chdirUp fullPath, listed, rfl⟩)
  · rw [if_neg negative]
    cases said : env.lstatAt s.cwd fullPath with
    | error code =>
      simp only [Ftw.doPath, if_neg negative, said]
      refine arrivesStep (.fails ⟨code, lstatCode env said⟩) rfl
        (arrivesHere ⟨.lstat fullPath depth, listed, ?_⟩)
      simp only [embed, List.filterMap_append]
      rw [show [Ftw.Call.lstat s.cwd fullPath none].filterMap shown = [] from rfl, List.append_nil]
      rfl
    | ok mode =>
      by_cases room : s.stats.counter mode + 1 < 2^63
      · cases mode with
        | file kind =>
          simp only [Ftw.doPath, if_neg negative, said]
          refine arrivesStep (.mode (.file kind)) (if_pos room)
            (arrivesHere ⟨.lstat fullPath depth, listed, ?_⟩)
          exact congrArg afterDoPath (embedTold _ s fullPath (.file kind) depth listed).symm
        | dir =>
          refine arrivesStep (.mode .dir) (if_pos room) ?_
          have enters := enterArrives env fs negative deep said listed
          rw [embedTold] at enters
          exact enters
      · exact reachesStep (a := .mode mode) (if_neg room) (reachesHere (.inl rfl))

def AtLoop (t : Turn) (u : State) : Prop := ∃ pc log, u = loopTest (embed pc t.2 log) t.1

omit fs in
theorem poppedArrives (s : Ftw.State) {u : State} (done : Done s u) :
    Arrives (AtLoop (Ftw.popped env s)) u := by
  obtain ⟨pc, log, rfl⟩ := done
  unfold Ftw.popped Ftw.pop
  cases stk : s.stk with
  | nil =>
    refine arrivesHere ⟨pc, log, ?_⟩
    have empty : (embed pc s log).stk = [] := stk
    rw [afterDoPath, empty]
  | cons head rest =>
    have pops : afterDoPath (embed pc s log) = embed .pop s log := by
      simp only [afterDoPath, embed, stk]
    rw [pops]
    cases allocated : env.malloc s.mallocs with
    | true =>
      simp only [Ftw.createNode, allocated, if_true]
      refine arrivesStep .done ?_ (arrivesHere ⟨.pop, log, rfl⟩)
      simp only [step, embed, popReply, stk]
    | false =>
      simp only [Ftw.createNode, allocated, Bool.false_eq_true, if_false]
      refine arrivesStep (.fails noMemory) ?_ (arrivesHere ⟨.pop, log, rfl⟩)
      simp only [step, embed, popReply, stk]
      rfl

theorem turnArrives {t : Turn} {u : State} (more : Ftw.isEmpty t.2 = false) (here : AtLoop t u) :
    Arrives (Ends AtLoop (Ftw.turn env t)) u := by
  obtain ⟨pc, log, rfl⟩ := here
  obtain ⟨elem, s⟩ := t
  have filled : (embed pc s log).stk.isEmpty = false := more
  cases elem with
  | none =>
    refine arrivesHere ?_
    rw [loopTest, filled]
    rfl
  | some elem =>
    have begins : loopTest (embed pc s log) (some elem) =
        embed (if toInt elem.depth < 0 then .chdirUp elem.fileName
          else .lstat elem.fileName (toInt elem.depth)) s log := by
      rw [loopTest, filled]
      rfl
    rw [begins]
    refine arrivesAfter (doPathArrives env fs s elem.fileName (toIntRange elem.depth).2 log)
      (fun ub failed u there => ?_) (fun r did u there => ?_)
    · rw [Ftw.turn, failed]
      exact there
    · rw [Ftw.turn, did]
      exact poppedArrives env r.2 there

theorem walkArrives {fuel : Nat} {t : Turn} {result : Except Ub Turn}
    (ended : Ftw.walkLoop env fuel t = some result) {u : State} (here : Arrives (AtLoop t) u) :
    Arrives (Ends (fun t u => Ftw.isEmpty t.2 = true ∧ AtLoop t u) result) u := by
  have goes : ∀ t : Turn, Arrives (AtLoop t) u → Ftw.isEmpty t.2 = false →
      Arrives (Ends AtLoop (Ftw.turn env t)) u :=
    fun t reached more => arrivesTrans reached fun w there => turnArrives env fs more there
  have kept : ∀ t v : Turn, Arrives (AtLoop t) u → Ftw.isEmpty t.2 = false →
      Ftw.turn env t = .ok v → Arrives (AtLoop v) u := by
    intro t v reached more taken
    have next := goes t reached more
    rw [taken] at next
    exact next
  cases result with
  | ok v =>
    have last := whileInvariant (fun t => Arrives (AtLoop t) u) kept here ended
    have empty := whileDone ended
    exact arrivesTrans last fun w there => arrivesHere ⟨empty, there⟩
  | error ub =>
    obtain ⟨v, reached, more, taken⟩ :=
      whileFails (fun t => Arrives (AtLoop t) u) kept here ended
    have next := goes v reached more
    rw [taken] at next
    exact next

def Returns (r : Int × Ftw.State × List (Int × Int)) (u : State) : Prop :=
  ∃ log, u = {embed (.returned r.1) r.2.1 log with rows := r.2.2}

omit fs in
theorem startArrives : Arrives (Ends (fun r u => match r with
      | .inl (ret, s) => Returns (ret, s, []) u
      | .inr t => AtLoop t u) (Ftw.ftwStart env)) start := by
  unfold Ftw.ftwStart
  cases env.chdirStart with
  | some e => exact arrivesStep (.fails e) rfl (arrivesHere ⟨[], rfl⟩)
  | none =>
    refine arrivesStep .done rfl ?_
    cases env.getcwd with
    | some e => exact arrivesStep (.fails e) rfl (arrivesHere ⟨[], rfl⟩)
    | none =>
      refine arrivesStep (.path env.absolute) rfl ?_
      refine arrivesAfter (createPushArrives env {Ftw.start with cwd := .inside []} env.absolute 0
        .loop []) (fun ub failed u there => ?_) (fun r created u there => ?_)
      · simp only [failed]
        exact there
      · obtain ⟨pc, rfl⟩ := there
        simp only [created]
        exact arrivesHere ⟨pc, [], rfl⟩

omit fs in
theorem printArrives {t : Turn} {u : State} (empty : Ftw.isEmpty t.2 = true) (here : AtLoop t u) :
    Arrives (Ends Returns (match Ftw.printStat (sumStat t.2.stats) with
      | .error ub => .error ub
      | .ok rows => .ok (0, {t.2 with stats := sumStat t.2.stats}, rows))) u := by
  obtain ⟨pc, log, rfl⟩ := here
  have prints : loopTest (embed pc t.2 log) t.1 = embed .printStat t.2 log := by
    exact if_pos empty
  rw [prints]
  cases table : Ftw.printStat (sumStat t.2.stats) with
  | error ub =>
    obtain rfl := printStatError table
    refine arrivesStep (u := {embed (.undefined .division) t.2 log with
      stats := sumStat t.2.stats}) .done ?_ (arrivesHere rfl)
    simp only [step, embed, printStatReply, table]
  | ok rows =>
    refine arrivesStep .done ?_ (arrivesHere ⟨log, rfl⟩)
    simp only [step, embed, printStatReply, table]

end Parts

theorem ftwAnswers {env : Env} (fs : FileSystem env) {fuel : Nat}
    {result : Except Ub (Int × Ftw.State × List (Int × Int))}
    (ended : Ftw.ftw env fuel = some result) :
    ∃ replies u, Run step (fun _ _ => True) start replies u ∧
      (u.pc = .undefined .counting ∨ Ends Returns result u) := by
  change Arrives (Ends Returns result) start
  unfold Ftw.ftw at ended
  refine arrivesAfter (startArrives env) (fun ub failed u there => ?_) (fun r begun u there => ?_)
  · rw [failed] at ended
    cases ended
    exact there
  · rw [begun] at ended
    cases r with
    | inl refused =>
      cases ended
      exact arrivesHere there
    | inr t =>
      obtain ⟨walked, looped, same⟩ := Option.map_eq_some_iff.mp ended
      obtain rfl := same
      refine arrivesAfter (walkArrives env fs looped (arrivesHere there))
        (fun ub failed u there => ?_) (fun t walked u there => ?_)
      · rw [failed]
        exact there
      · rw [walked]
        exact printArrives there.1 there.2

end OsLabs.FtwAnswers
