import OsLabs.FtwWalk

/-! The loop of ftw makes the calls of the recursive walk. What is on the stack above a
non-empty base is worked off before the base is touched, and the marker ".." under the
entries of a directory brings the working directory back. -/
namespace OsLabs.Ftw
open CMemory CInteger WhileLoop

def ValidName (name : Name) : Prop :=
  name ≠ [] ∧ name ≠ [46] ∧ name ≠ dotdot ∧ 47 ∉ name ∧ 0 ∉ name

structure FileSystem (env : Env) : Prop where
  absolute : env.absolute.head? = some 47
  valid : env.content.All ValidName
  nodup : env.content.names.Nodup
  distinct : env.content.Distinct

def ShortName (name : Name) : Prop := name.length < maxName

structure Fits (env : Env) : Prop where
  names : env.content.All ShortName
  absolute : ShortName env.absolute
  malloc : ∀ n, env.malloc n = true

def Attempt.calls (a : Attempt) : List Call :=
  .lstat (.inside a.path) a.name a.mode :: match a.mode with
    | none => []
    | some (.file _) => [.func (.inside a.path) a.name .file a.depth]
    | some .dir => [.func (.inside a.path) a.name .dir a.depth]

def Attempt.count (stats : Stats) (a : Attempt) : Stats :=
  match a.mode with
  | none => stats
  | some (.file kind) => incStat kind stats
  | some .dir => {stats with ndir := toLong (stats.ndir + 1)}

structure Walked (base : List Node) (s t : State) (attempts : List Attempt) : Prop where
  stk : t.stk = base
  cwd : t.cwd = s.cwd
  calls : t.calls = s.calls ++ attempts.flatMap Attempt.calls
  stats : t.stats = attempts.foldl Attempt.count s.stats

def Node.view (n : Node) : Name × Int := (n.fileName, n.depth)

def Walks (env : Env) : Turn → Turn → Prop := Leads (fun t : Turn => isEmpty t.2) (turn env)

def ListingWalks (env : Env) (content : Listing) (path : List Name) (depth : Nat) : Prop :=
  ∀ (s : State) (base new : List Node), s.stk = base ++ new → base ≠ [] →
    new.map Node.view = content.names.map (fun name => (name, (depth : Int))) →
    s.cwd = .inside path →
    ∃ t, Walks env (popped env s) (popped env t) ∧ Walked base s t (content.walk path depth)

theorem linkLastAppend (stk : List Node) (tmp : Node) : linkLast stk tmp = stk ++ [tmp] := by
  induction stk with
  | nil => rfl
  | cons head rest ih => rw [linkLast, ih]; rfl

theorem unlinkLastAppend (head : Node) (rest : List Node) (last : Node) :
    unlinkLast head (rest ++ [last]) = (head :: rest, last) := by
  induction rest generalizing head with
  | nil => rfl
  | cons next rest ih => rw [List.cons_append, unlinkLast, ih]

def above : List Name → Cwd
  | _ :: path => .inside path
  | [] => .elsewhere

theorem markerTurn {env : Env} {s : State} {marker : Node} (view : marker.view = (dotdot, -1))
    {path : List Name} (cwd : s.cwd = .inside path) :
    turn env (some marker, s) = .ok (popped env {s with cwd := above path}) := by
  obtain ⟨name, depth⟩ := Prod.mk.inj view
  have negative : toInt (-1) = -1 := toIntExact (by decide) (by decide)
  have up : env.chdirAt (.inside path) dotdot = .ok (above path) := by
    cases path with
    | nil => simp only [Env.chdirAt, if_true, above]
    | cons name path => simp only [Env.chdirAt, if_true, above]
  simp only [turn, name, depth, negative, doPath, cwd, up]
  rfl

section Steps
variable {env : Env} (allocates : ∀ n, env.malloc n = true)
include allocates

theorem poppedLast {s : State} {base : List Node} {n : Node} (stk : s.stk = base ++ [n]) :
    popped env s = (some n, {s with mallocs := s.mallocs + 1, stk := base}) := by
  unfold popped pop
  rw [stk]
  cases base with
  | nil => simp only [List.nil_append, unlinkLast, createNode, allocates, if_true]
  | cons head rest =>
    simp only [List.cons_append, unlinkLastAppend, createNode, allocates, if_true]

theorem createPushed (s : State) {name : Name} (short : ShortName name) (depth : Int) :
    createPush env s name depth = .ok (⟨name, depth, short⟩,
      {s with mallocs := s.mallocs + 1 + 1, stk := s.stk ++ [⟨name, depth, short⟩]}) := by
  have fits : name.length < maxName := short
  simp only [createPush, dif_pos fits, createNode, allocates, if_true, push, linkLastAppend]

structure Reads (s t : State) (new : List Node) : Prop where
  stk : t.stk = s.stk ++ new
  cwd : t.cwd = s.cwd
  calls : t.calls = s.calls
  stats : t.stats = s.stats

theorem entriesRead (depth : Int) : ∀ (content : Listing), content.All ShortName → ∀ s : State,
    ∃ t new, readEntries env depth content s = .ok t ∧ Reads s t new ∧
      new.map Node.view = content.names.map (fun name => (name, depth))
  | .nil, _, s => ⟨s, [], rfl, ⟨(List.append_nil _).symm, rfl, rfl, rfl⟩, rfl⟩
  | .fails e, _, s =>
      ⟨{s with errno := e.code}, [], rfl, ⟨(List.append_nil _).symm, rfl, rfl, rfl⟩, rfl⟩
  | .dots _ rest, short, s => entriesRead depth rest short s
  | .entry name tree rest, short, s => by
    obtain ⟨here, -, later⟩ := short
    obtain ⟨t, new, read, reads, view⟩ := entriesRead depth rest later
      {s with mallocs := s.mallocs + 1 + 1, stk := s.stk ++ [⟨name, depth, here⟩]}
    refine ⟨t, ⟨name, depth, here⟩ :: new, ?_, ⟨?_, reads.cwd, reads.calls, reads.stats⟩, ?_⟩
    · simp only [readEntries, createPushed allocates s here depth, read]
    · simp only [reads.stk, List.append_assoc, List.cons_append, List.nil_append]
    · rw [List.map_cons, view]
      rfl

theorem directoryRead (content : Listing) (short : content.All ShortName) (s : State) (depth : Int) :
    ∃ t new marker, readDirectory env s content depth = .ok (0, t) ∧ Reads s t (marker :: new) ∧
      marker.view = (dotdot, -1) ∧
      new.map Node.view = content.names.map (fun name => (name, depth)) := by
  have two : ShortName dotdot := by unfold ShortName; decide
  obtain ⟨t, new, read, reads, view⟩ := entriesRead allocates depth content short
    {s with mallocs := s.mallocs + 1 + 1, stk := s.stk ++ [⟨dotdot, -1, two⟩]}
  have stk : t.stk = s.stk ++ ⟨dotdot, -1, two⟩ :: new := by
    rw [reads.stk, List.append_assoc]
    rfl
  by_cases failed : t.errno ≠ 0
  · refine ⟨{t with out := t.out ++ [(.notAllRead, t.cwd)]}, new, ⟨dotdot, -1, two⟩, ?_,
      ⟨stk, reads.cwd, reads.calls, reads.stats⟩, rfl, view⟩
    simp only [readDirectory, createPushed allocates s two, read, if_pos failed]
  · refine ⟨t, new, ⟨dotdot, -1, two⟩, ?_, ⟨stk, reads.cwd, reads.calls, reads.stats⟩, rfl, view⟩
    simp only [readDirectory, createPushed allocates s two, read, if_neg failed]

theorem directoryWalks {content : Listing} {path : List Name} {depth : Nat} {s : State}
    (short : content.All ShortName) (walks : ListingWalks env content path (depth + 1))
    (deep : ∀ a ∈ content.walk path (depth + 1), a.depth < 2^31) (cwd : s.cwd = .inside path)
    (filled : s.stk ≠ []) :
    ∃ read t, readDirectory env s content (toInt (depth + 1)) = .ok (0, read) ∧
      Walks env (popped env read) (popped env t) ∧ t.cwd = above path ∧
      Walked s.stk {s with cwd := above path} t (content.walk path (depth + 1)) := by
  obtain ⟨read, new, marker, done, reads, mark, view⟩ :=
    directoryRead allocates content short s (toInt (depth + 1))
  have depths : new.map Node.view =
      content.names.map (fun name => (name, ((depth + 1 : Nat) : Int))) := by
    rw [view]
    refine List.map_congr_left fun name mem => ?_
    obtain ⟨tree, here⟩ := nameHas mem
    have first : (⟨path, name, tree.mode, depth + 1⟩ : Attempt) ∈ tree.walk path name (depth + 1) := by
      rw [walkTree]
      exact List.mem_cons_self
    have bound : depth + 1 < 2^31 := deep _ (hasWalk path (depth + 1) here first)
    rw [toIntExact (by omega) (by omega)]
    rfl
  have stk : read.stk = (s.stk ++ [marker]) ++ new := by
    rw [reads.stk, List.append_assoc]
    rfl
  obtain ⟨t, leads, walked⟩ := walks read (s.stk ++ [marker]) new stk (by simp) depths
    (by rw [reads.cwd, cwd])
  have returns := poppedLast allocates walked.stk
  have inside : t.cwd = .inside path := by rw [walked.cwd, reads.cwd, cwd]
  have more : isEmpty {t with mallocs := t.mallocs + 1, stk := s.stk} = false := by
    unfold isEmpty
    cases start : s.stk with
    | nil => exact absurd start filled
    | cons _ _ => rfl
  -- the marker is popped and leads back
  refine ⟨read, {t with mallocs := t.mallocs + 1, stk := s.stk, cwd := above path}, done,
    leadsTrans leads ?_, rfl, rfl, rfl, ?_, ?_⟩
  · rw [returns]
    exact leadsStep more (markerTurn mark inside)
  · exact walked.calls.trans (by rw [reads.calls])
  · exact walked.stats.trans (by rw [reads.stats])

end Steps

structure Lies (env : Env) (path : List Name) (name : Name) (tree : Tree) : Prop where
  found : ((env.dirAt path).bind fun l => l.find name) = some tree
  valid : ValidName name

theorem liesResolve {env : Env} (fs : FileSystem env) {path : List Name} {name : Name} {tree : Tree}
    (lies : Lies env path name tree) : env.resolve (.inside path) name = some tree := by
  have relative : name ≠ env.absolute := by
    rintro rfl
    exact lies.valid.2.2.2.1 (List.mem_of_mem_head? fs.absolute)
  rw [Env.resolve, if_neg relative]
  exact lies.found

theorem liesInside {env : Env} {path : List Name} {name : Name} {lstat opendir chdir : Option Errno}
    {content : Listing} (lies : Lies env path name (.dir lstat opendir chdir content))
    (valid : content.All ValidName) (nodup : content.names.Nodup) (child : Name) (tree : Tree)
    (here : content.Has child tree) : Lies env (name :: path) child tree := by
  refine ⟨?_, (hasAll valid here).1⟩
  have down : env.dirAt (name :: path) = some content := by
    obtain ⟨above, place, find⟩ := Option.bind_eq_some_iff.mp lies.found
    simp only [Env.dirAt, place, Option.bind_some, find, Tree.content]
  rw [down]
  exact hasFind nodup here

theorem liesChdir {env : Env} (fs : FileSystem env) {path : List Name} {name : Name}
    {lstat opendir : Option Errno} {content : Listing}
    (lies : Lies env path name (.dir lstat opendir none content)) :
    env.chdirAt (.inside path) name = .ok (.inside (name :: path)) := by
  have relative : name ≠ env.absolute := by
    rintro rfl
    exact lies.valid.2.2.2.1 (List.mem_of_mem_head? fs.absolute)
  simp only [Env.chdirAt, if_neg lies.valid.2.2.1, liesResolve fs lies, if_neg relative]

theorem turnPath {env : Env} {elem : Node} {s t : State} {name : Name} {depth : Nat} {ret : Int}
    (view : elem.view = (name, (depth : Int))) (bound : depth < 2^31)
    (path : doPath env s name depth = .ok (ret, t)) : turn env (some elem, s) = .ok (popped env t) := by
  obtain ⟨same, deep⟩ := Prod.mk.inj view
  simp only [turn, same, deep, toIntExact (x := (depth : Int)) (by omega) (by omega), path]

theorem emptyFilled {s : State} (filled : s.stk ≠ []) : isEmpty s = false := by
  unfold isEmpty
  cases start : s.stk with
  | nil => exact absurd start filled
  | cons _ _ => rfl

theorem lstatFails {env : Env} {cwd : Cwd} {name : Name} {tree : Tree}
    (resolve : env.resolve cwd name = some tree) (mode : tree.mode = none) :
    ∃ code, env.lstatAt cwd name = .error code := by
  unfold Env.lstatAt
  rw [resolve]
  cases tree with
  | file lstat kind =>
    cases lstat with
    | none => cases mode
    | some e => exact ⟨e.code, rfl⟩
  | dir lstat opendir chdir content =>
    cases lstat with
    | none => cases mode
    | some e => exact ⟨e.code, rfl⟩

theorem lstatSays {env : Env} {cwd : Cwd} {name : Name} {tree : Tree} {m : Mode}
    (resolve : env.resolve cwd name = some tree) (mode : tree.mode = some m) :
    env.lstatAt cwd name = .ok m := by
  unfold Env.lstatAt
  rw [resolve]
  cases tree with
  | file lstat kind =>
    cases lstat with
    | none => cases mode; rfl
    | some e => cases mode
  | dir lstat opendir chdir content =>
    cases lstat with
    | none => cases mode; rfl
    | some e => cases mode

theorem doPathLeaf {env : Env} {s : State} {path : List Name} {name : Name} {tree : Tree}
    (depth : Nat) (cwd : s.cwd = .inside path) (resolve : env.resolve (.inside path) name = some tree)
    (down : name ≠ dotdot) (leaf : tree.entered = none) :
    ∃ ret t, doPath env s name depth = .ok (ret, t) ∧
      Walked s.stk s t [⟨path, name, tree.mode, depth⟩] := by
  have natural : ¬ (depth : Int) < 0 := Int.not_lt.mpr (Int.natCast_nonneg depth)
  cases mode : tree.mode with
  | none =>
    obtain ⟨code, failed⟩ := lstatFails resolve mode
    refine ⟨-1, {s with errno := code, calls := s.calls ++ [.lstat s.cwd name none]}, ?_,
      rfl, rfl, ?_, rfl⟩
    · simp only [doPath, if_neg natural, cwd, failed]
    · rw [cwd]
      rfl
  | some m =>
    have said := lstatSays resolve mode
    cases m with
    | file kind =>
      refine ⟨0, {s with stats := incStat kind s.stats, calls := s.calls ++
        [.lstat s.cwd name (some (.file kind)), .func s.cwd name .file depth]}, ?_, rfl, rfl, ?_, rfl⟩
      · simp only [doPath, if_neg natural, cwd, said]
      · rw [cwd]
        rfl
    | dir =>
      obtain ⟨opendir, chdir, content, rfl⟩ := modeDir mode
      let t : State := {s with
        stats := {s.stats with ndir := toLong (s.stats.ndir + 1)},
        calls := s.calls ++ [.lstat s.cwd name (some .dir), .func s.cwd name .dir depth]}
      have walked : ∀ code out, Walked s.stk s {t with errno := code, out := out}
          [⟨path, name, some .dir, depth⟩] := by
        refine fun code out => ⟨rfl, rfl, ?_, rfl⟩
        simp only [t, cwd]
        rfl
      cases opendir with
      | some e =>
        have shut : env.opendirAt (.inside path) name = .error e.code := by
          rw [Env.opendirAt, resolve]
        refine ⟨-1, _, ?_, walked e.code (s.out ++ [(.cannotOpen, s.cwd)])⟩
        simp only [doPath, if_neg natural, cwd, said, shut, t]
      | none =>
        have opened : env.opendirAt (.inside path) name = .ok content := by
          rw [Env.opendirAt, resolve]
        cases chdir with
        | some e =>
          have barred : env.chdirAt (.inside path) name = .error e.code := by
            simp only [Env.chdirAt, if_neg down, resolve]
          refine ⟨-1, _, ?_, walked e.code (s.out ++ [(.cannotEnter, s.cwd)])⟩
          simp only [doPath, if_neg natural, cwd, said, opened, barred, t]
        | none => cases leaf

structure Inside (env : Env) (path inner : List Name) (name : Name) (depth : Nat)
    (content : Listing) : Prop where
  short : content.All ShortName
  chdir : env.chdirAt (.inside path) name = .ok (.inside inner)
  walks : ListingWalks env content inner (depth + 1)
  deep : ∀ a ∈ content.walk inner (depth + 1), a.depth < 2^31

def visit (path inner : List Name) (name : Name) (depth : Nat) (tree : Tree) : List Attempt :=
  ⟨path, name, tree.mode, depth⟩ ::
    (tree.entered.map fun content => content.walk inner (depth + 1)).getD []

theorem visitWalks {env : Env} (allocates : ∀ n, env.malloc n = true) {tree : Tree} {elem : Node}
    {s : State} {path inner : List Name} {name : Name} {depth : Nat}
    (view : elem.view = (name, (depth : Int))) (bound : depth < 2^31) (cwd : s.cwd = .inside path)
    (filled : s.stk ≠ []) (resolve : env.resolve (.inside path) name = some tree)
    (down : name ≠ dotdot)
    (inside : ∀ content, tree.entered = some content → Inside env path inner name depth content) :
    ∃ t, Walks env (some elem, s) (popped env t) ∧ (t.cwd = s.cwd ∨ t.cwd = above inner) ∧
      Walked s.stk {s with cwd := t.cwd} t (visit path inner name depth tree) := by
  have more := emptyFilled filled
  cases goes : tree.entered with
  | none =>
    obtain ⟨ret, t, did, walked⟩ := doPathLeaf depth cwd resolve down goes
    refine ⟨t, leadsStep more (turnPath view bound did), .inl walked.cwd, walked.stk, rfl, ?_, ?_⟩
    · rw [visit, goes]
      exact walked.calls
    · rw [visit, goes]
      exact walked.stats
  | some content =>
    cases enteredDir goes
    obtain ⟨short, chdir, walks, deep⟩ := inside content goes
    have said : env.lstatAt (.inside path) name = .ok .dir := lstatSays resolve rfl
    have opened : env.opendirAt (.inside path) name = .ok content := by rw [Env.opendirAt, resolve]
    have natural : ¬ (depth : Int) < 0 := Int.not_lt.mpr (Int.natCast_nonneg depth)
    obtain ⟨read, t, did, leads, back, walked⟩ := directoryWalks allocates (s := {s with
      stats := {s.stats with ndir := toLong (s.stats.ndir + 1)},
      calls := s.calls ++ [.lstat s.cwd name (some .dir), .func s.cwd name .dir depth],
      cwd := .inside inner}) short walks deep rfl filled
    have path' : doPath env s name depth = .ok (0, read) := by
      simp only [doPath, if_neg natural, cwd, said, opened, chdir]
      rw [← did, cwd]
    refine ⟨t, leadsTrans (leadsStep more (turnPath view bound path')) leads, .inr back, walked.stk,
      rfl, walked.calls.trans ?_, walked.stats⟩
    rw [visit, goes, cwd, List.flatMap_cons, ← List.append_assoc]
    rfl

theorem visitTree (path : List Name) (name : Name) (depth : Nat) (tree : Tree) :
    tree.walk path name depth = visit path (name :: path) name depth tree :=
  walkTree path name depth tree

section Induction
variable {env : Env}

theorem childWalks (fs : FileSystem env) (allocates : ∀ n, env.malloc n = true) {tree : Tree}
    {path : List Name} {name : Name} {depth : Nat} {elem : Node} {s : State}
    (lies : Lies env path name tree) (short : tree.All ShortName)
    (deep : ∀ a ∈ tree.walk path name depth, a.depth < 2^31)
    (view : elem.view = (name, (depth : Int))) (cwd : s.cwd = .inside path) (filled : s.stk ≠ [])
    (walks : ∀ content, tree.entered = some content →
      ListingWalks env content (name :: path) (depth + 1)) :
    ∃ t, Walks env (some elem, s) (popped env t) ∧ Walked s.stk s t (tree.walk path name depth) := by
  rw [visitTree] at deep ⊢
  have bound : depth < 2^31 := deep _ List.mem_cons_self
  have inside : ∀ content, tree.entered = some content →
      Inside env path (name :: path) name depth content := by
    intro content entered
    cases enteredDir entered
    refine ⟨short, liesChdir fs lies, walks content entered, fun a mem => deep a ?_⟩
    rw [visit, entered]
    exact List.mem_cons_of_mem _ mem
  obtain ⟨t, leads, back, walked⟩ := visitWalks allocates view bound cwd filled
    (liesResolve fs lies) lies.valid.2.2.1 inside
  have same : t.cwd = s.cwd := back.elim id fun up => up.trans cwd.symm
  exact ⟨t, leads, walked.stk, same, walked.calls, walked.stats⟩

theorem noneWalks {content : Listing} {path : List Name} {depth : Nat} (empty : content.names = [])
    (nowhere : content.walk path depth = []) : ListingWalks env content path depth := by
  intro s base new stk filled view cwd
  rw [empty] at view
  obtain rfl := List.map_eq_nil_iff.mp view
  rw [List.append_nil] at stk
  rw [nowhere]
  exact ⟨s, leadsRefl _, stk, rfl, (List.append_nil _).symm, rfl⟩

mutual

theorem treeWalks (fs : FileSystem env) (allocates : ∀ n, env.malloc n = true) :
    ∀ (tree : Tree) (path : List Name) (name : Name) (depth : Nat) (elem : Node) (s : State),
      Lies env path name tree → tree.All ValidName → tree.All ShortName → tree.Distinct →
      (∀ a ∈ tree.walk path name depth, a.depth < 2^31) → elem.view = (name, (depth : Int)) →
      s.cwd = .inside path → s.stk ≠ [] →
      ∃ t, Walks env (some elem, s) (popped env t) ∧ Walked s.stk s t (tree.walk path name depth)
  | .file lstat kind, path, name, depth, elem, s, lies, _, short, _, deep, view, cwd, filled =>
    childWalks fs allocates lies short deep view cwd filled nofun
  | .dir lstat opendir chdir content, path, name, depth, elem, s, lies, valid, short, distinct, deep,
      view, cwd, filled => by
    refine childWalks fs allocates lies short deep view cwd filled fun inner entered => ?_
    cases enteredDir entered
    refine listingWalks fs allocates content (name :: path) (depth + 1)
      (fun child tree here => liesInside lies valid distinct.1 child tree here) valid short distinct.2
      fun a mem => deep a ?_
    exact List.mem_cons_of_mem _ mem

theorem listingWalks (fs : FileSystem env) (allocates : ∀ n, env.malloc n = true) :
    ∀ (content : Listing) (path : List Name) (depth : Nat),
      (∀ name tree, content.Has name tree → Lies env path name tree) → content.All ValidName →
      content.All ShortName → content.Distinct → (∀ a ∈ content.walk path depth, a.depth < 2^31) →
      ListingWalks env content path depth
  | .nil, path, depth, _, _, _, _, _ => noneWalks rfl rfl
  | .fails e, path, depth, _, _, _, _, _ => noneWalks rfl rfl
  | .dots up rest, path, depth, lies, valid, short, distinct, deep =>
    listingWalks fs allocates rest path depth lies valid short distinct deep
  | .entry name tree rest, path, depth, lies, ⟨_, validTree, validRest⟩, ⟨_, shortTree, shortRest⟩,
      ⟨distinctTree, distinctRest⟩, deep => by
    intro s base new stk filled view cwd
    obtain ⟨elem, later, rfl, own, views⟩ := List.map_eq_cons_iff.mp view
    -- the later entries lie above this one
    obtain ⟨t, leads, walked⟩ := listingWalks fs allocates rest path depth
      (fun n u here => lies n u (.inr here)) validRest shortRest distinctRest
      (fun a mem => deep a (List.mem_append_left _ mem)) s (base ++ [elem]) later
      (by rw [stk, List.append_assoc]; rfl) (by simp) views cwd
    rw [poppedLast allocates walked.stk] at leads
    obtain ⟨u, turns, visited⟩ := treeWalks fs allocates tree path name depth elem
      {t with mallocs := t.mallocs + 1, stk := base} (lies name tree (.inl ⟨rfl, rfl⟩)) validTree
      shortTree distinctTree (fun a mem => deep a (List.mem_append_right _ mem)) own
      (walked.cwd.trans cwd) filled
    refine ⟨u, leadsTrans leads turns, visited.stk, visited.cwd.trans walked.cwd, ?_, ?_⟩
    · rw [visited.calls, walked.calls, List.append_assoc, ← List.flatMap_append]
      rfl
    · rw [visited.stats, walked.stats, ← List.foldl_append]
      rfl

end

end Induction

end OsLabs.Ftw
