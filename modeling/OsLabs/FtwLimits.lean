import OsLabs.FtwTotals

/-! Where the walk stops being the recursive one: func takes its depth as an int, and the per
cent of the table divides by the total as an int. -/
namespace OsLabs.Ftw
open CMemory CInteger WhileLoop

section Depths
variable {env : Env}

def Call.InInt : Call → Prop
  | .lstat _ _ _ => True
  | .func _ _ _ depth => depth < 2^31

theorem createNodeCalls (s : State) (name : Name) (fits : name.length < maxName) (depth : Int) :
    (createNode env s name fits depth).2.calls = s.calls := by
  unfold createNode
  split <;> rfl

theorem poppedCalls (s : State) : (popped env s).2.calls = s.calls := by
  unfold popped pop
  split
  · rfl
  · exact createNodeCalls s _ _ _

theorem pushCalls (s : State) (elem : Node) : (push env s elem).2.calls = s.calls := by
  unfold push
  have made := @createNodeCalls env s elem.fileName elem.fits elem.depth
  split
  · rename_i t failed
    rw [failed] at made
    exact made
  · rename_i tmp t copied
    rw [copied] at made
    exact made

theorem createPushCalls {s t : State} {name : Name} {depth : Int} {elem : Node}
    (did : createPush env s name depth = .ok (elem, t)) : t.calls = s.calls := by
  unfold createPush at did
  split at did
  · rename_i fits
    have made := @createNodeCalls env s name fits depth
    split at did
    · cases did
    · rename_i u same
      rw [same] at made
      cases did
      exact (pushCalls u elem).trans made
  · cases did

theorem readEntriesCalls (depth : Int) : ∀ (content : Listing) {s t : State},
    readEntries env depth content s = .ok t → t.calls = s.calls
  | .nil, s, t, did => by cases did; rfl
  | .fails e, s, t, did => by cases did; rfl
  | .dots _ rest, s, t, did => readEntriesCalls depth rest did
  | .entry name tree rest, s, t, did => by
    rw [readEntries] at did
    split at did
    · cases did
    · rename_i elem u made
      rw [readEntriesCalls depth rest did, createPushCalls made]

theorem readDirectoryCalls {s t : State} {content : Listing} {depth ret : Int}
    (did : readDirectory env s content depth = .ok (ret, t)) : t.calls = s.calls := by
  unfold readDirectory at did
  split at did
  · cases did
  · rename_i elem u made
    split at did
    · cases did
    · rename_i v read
      have same : v.calls = s.calls := by rw [readEntriesCalls depth content read, createPushCalls made]
      split at did <;> cases did <;> exact same

theorem doPathCalls {s t : State} {name : Name} {depth ret : Int} (small : depth < 2^31)
    (did : doPath env s name depth = .ok (ret, t)) (before : ∀ c ∈ s.calls, c.InInt) :
    ∀ c ∈ t.calls, c.InInt := by
  have func : ∀ type mode, ∀ c ∈ s.calls ++
      [.lstat s.cwd name mode, .func s.cwd name type depth], Call.InInt c := by
    intro type mode c mem
    rcases List.mem_append.mp mem with old | new
    · exact before c old
    · rcases List.mem_pair.mp new with rfl | rfl
      · trivial
      · exact small
  unfold doPath at did
  split at did
  · split at did <;> cases did <;> exact before
  · split at did
    · cases did
      intro c mem
      rcases List.mem_append.mp mem with old | new
      · exact before c old
      · cases List.mem_singleton.mp new
        trivial
    · cases did
      exact func _ _
    · simp only at did
      split at did
      · cases did
        exact func _ _
      · split at did
        · cases did
          exact func _ _
        · rw [readDirectoryCalls did]
          exact func _ _

theorem turnCalls (t u : Turn) (before : ∀ c ∈ t.2.calls, c.InInt) (taken : turn env t = .ok u) :
    ∀ c ∈ u.2.calls, c.InInt := by
  obtain ⟨elem, s⟩ := t
  cases elem with
  | none => cases taken
  | some elem =>
    rw [turn] at taken
    split at taken
    · cases taken
    · rename_i ret v did
      cases taken
      rw [poppedCalls]
      exact doPathCalls (toIntRange elem.depth).2 did before

theorem refusedCalls {ret : Int} {s : State} (begun : ftwStart env = .ok (.inl (ret, s))) :
    s.calls = [] := by
  unfold ftwStart at begun
  split at begun
  · cases begun
    rfl
  · split at begun
    · cases begun
      rfl
    · split at begun <;> cases begun

theorem startCalls {t : Turn} (begun : ftwStart env = .ok (.inr t)) : t.2.calls = [] := by
  unfold ftwStart at begun
  split at begun
  · cases begun
  · split at begun
    · cases begun
    · split at begun
      · cases begun
      · rename_i elem u made
        cases begun
        exact createPushCalls made

theorem ftwCalls {fuel : Nat} {ret : Int} {s : State} {rows : List (Int × Int)}
    (ran : ftw env fuel = some (.ok (ret, s, rows))) : ∀ c ∈ s.calls, c.InInt := by
  unfold ftw at ran
  cases begun : ftwStart env with
  | error ub => rw [begun] at ran; cases ran
  | ok first =>
    rw [begun] at ran
    rcases first with early | first
    · cases ran
      intro c mem
      rw [refusedCalls begun] at mem
      cases mem
    · obtain ⟨walked, loop, report⟩ := Option.map_eq_some_iff.mp ran
      cases walked with
      | error ub => cases report
      | ok last =>
        have kept := whileInvariant (fun t : Turn => ∀ c ∈ t.2.calls, c.InInt)
          (fun t u before _ taken => turnCalls t u before taken)
          (fun c mem => by rw [startCalls begun] at mem; cases mem) loop
        simp only at report
        split at report
        · cases report
        · cases report
          exact kept

end Depths

theorem deepIncomplete {env : Env} {a : Attempt} (turned : a ∈ env.walk) (mode : a.mode = some .dir)
    (deep : 2^31 ≤ a.depth) : ¬ Completes env := by
  rintro ⟨n, ends⟩
  obtain ⟨s, rows, ran, finished⟩ := ends n (Nat.le_refl n)
  have made : .func (.inside a.path) a.name .dir a.depth ∈ s.calls := by
    rw [finished.calls]
    refine List.mem_flatMap.mpr ⟨a, turned, ?_⟩
    rw [Attempt.calls, mode]
    exact List.mem_cons_of_mem _ List.mem_cons_self
  have int : (a.depth : Int) < 2^31 := ftwCalls ran _ made
  omega

theorem statDivides {stats : Stats} (zero : toInt stats.ntotal = 0) :
    printStat stats = .error .division := by
  have divides : findPercent stats.nreg stats.ntotal = .error .division := if_pos (.inl zero)
  simp only [printStat, List.foldr_cons, divides]

theorem crowdedIncomplete {env : Env} (fs : FileSystem env) (fits : Fits env)
    (chdir : env.chdirStart = none) (getcwd : env.getcwd = none)
    (deep : ∀ a ∈ env.walk, a.depth < 2^31) (many : allVisited env.walk = 2^32) : ¬ Completes env := by
  rintro ⟨n, ends⟩
  obtain ⟨first, last, m, begun, walked, -, stats⟩ := ftwLoop fs fits chdir getcwd deep
  have counted : Counted (sumStat last.2.stats) env.walk := by
    rw [stats]
    exact sumStatCounted (by omega)
  have zero : toInt (sumStat last.2.stats).ntotal = 0 := by
    rw [counted.all, many]
    unfold toInt
    decide
  obtain ⟨s, rows, ran, -⟩ := ends (max n m) (Nat.le_max_left n m)
  simp only [ftw, begun, walked (max n m) (Nat.le_max_right n m), Option.map_some,
    statDivides zero] at ran
  cases ran

def chain : Nat → Listing
  | 0 => .nil
  | n + 1 => .entry [97] (.dir none none none (chain n)) .nil

theorem chainAll {p : Name → Prop} (fine : p [97]) (n : Nat) : (chain n).All p := by
  induction n with
  | zero => trivial
  | succ n ih => exact ⟨fine, ih, trivial⟩

theorem chainNodup (n : Nat) : (chain n).names.Nodup := by
  cases n with
  | zero => exact List.nodup_nil
  | succ n => exact List.nodup_singleton _

theorem chainDistinct (n : Nat) : (chain n).Distinct := by
  induction n with
  | zero => trivial
  | succ n ih => exact ⟨⟨chainNodup n, ih⟩, trivial⟩

theorem chainDeep (n : Nat) : ∀ path depth, ∃ a ∈ (chain (n + 1)).walk path depth,
    a.mode = some .dir ∧ a.depth = depth + n := by
  induction n with
  | zero =>
    intro path depth
    exact ⟨⟨path, [97], some .dir, depth⟩, List.mem_cons_self, rfl, rfl⟩
  | succ n ih =>
    intro path depth
    obtain ⟨a, mem, mode, deep⟩ := ih ([97] :: path) (depth + 1)
    refine ⟨a, List.mem_cons_of_mem _ mem, mode, ?_⟩
    rw [deep, Nat.add_right_comm, Nat.add_assoc]

def digits (n : Nat) : Name := (List.range 32).map fun i => if n.testBit i then 49 else 48

def crowd : Nat → Listing
  | 0 => .nil
  | n + 1 => .entry (digits n) (.file none .reg) (crowd n)

theorem digitsInj {m n : Nat} (left : m < 2^32) (right : n < 2^32) (same : digits m = digits n) :
    m = n := by
  refine Nat.eq_of_testBit_eq fun i => ?_
  by_cases inside : i < 32
  · have bit := (List.map_inj_left.mp same) i (List.mem_range.mpr inside)
    cases one : m.testBit i <;> cases two : n.testBit i <;> simp [one, two] at bit ⊢
  · have far : 2^32 ≤ 2^i := Nat.pow_le_pow_right (by decide) (Nat.not_lt.mp inside)
    rw [Nat.testBit_lt_two_pow (Nat.lt_of_lt_of_le left far),
      Nat.testBit_lt_two_pow (Nat.lt_of_lt_of_le right far)]

theorem digitsAre (n : Nat) : ∀ b ∈ digits n, b = 48 ∨ b = 49 := by
  intro b mem
  obtain ⟨i, -, rfl⟩ := List.mem_map.mp mem
  cases n.testBit i
  · exact .inl rfl
  · exact .inr rfl

theorem digitsValid (n : Nat) : ValidName (digits n) ∧ ShortName (digits n) := by
  have long : (digits n).length = 32 := by simp [digits]
  refine ⟨⟨?_, ?_, ?_, ?_, ?_⟩, ?_⟩
  · rintro empty
    simp [empty] at long
  · rintro dot
    simp [dot] at long
  · rintro dots
    simp [dots, dotdot] at long
  · intro slash
    rcases digitsAre n _ slash with bad | bad <;> exact absurd bad (by decide)
  · intro zero
    rcases digitsAre n _ zero with bad | bad <;> exact absurd bad (by decide)
  · unfold ShortName
    rw [long]
    decide

theorem crowdAll {p : Name → Prop} (fine : ∀ n, p (digits n)) (n : Nat) : (crowd n).All p := by
  induction n with
  | zero => trivial
  | succ n ih => exact ⟨fine n, trivial, ih⟩

theorem crowdNames (n : Nat) : ∀ name ∈ (crowd n).names, ∃ m < n, name = digits m := by
  induction n with
  | zero => intro name mem; cases mem
  | succ n ih =>
    intro name mem
    rcases List.mem_cons.mp mem with rfl | later
    · exact ⟨n, Nat.lt_succ_self n, rfl⟩
    · obtain ⟨m, below, same⟩ := ih name later
      exact ⟨m, Nat.lt_succ_of_lt below, same⟩

theorem crowdNodup {n : Nat} (few : n ≤ 2^32) : (crowd n).names.Nodup := by
  induction n with
  | zero => exact List.nodup_nil
  | succ n ih =>
    refine List.nodup_cons.mpr ⟨fun mem => ?_, ih (by omega)⟩
    obtain ⟨m, below, same⟩ := crowdNames n _ mem
    have equal := digitsInj (by omega) (by omega) same
    omega

theorem crowdDistinct (n : Nat) : (crowd n).Distinct := by
  induction n with
  | zero => trivial
  | succ n ih => exact ⟨trivial, ih⟩

theorem crowdVisited (n : Nat) (path : List Name) (depth : Nat) :
    allVisited ((crowd n).walk path depth) = n := by
  induction n with
  | zero => rfl
  | succ n ih =>
    rw [crowd, Listing.walk, allVisited, List.countP_append]
    exact congrArg (· + 1) ih

theorem crowdFlat (n : Nat) (path : List Name) (depth : Nat) :
    ∀ a ∈ (crowd n).walk path depth, a.depth = depth := by
  induction n with
  | zero => intro a mem; cases mem
  | succ n ih =>
    intro a mem
    rcases List.mem_append.mp mem with later | here
    · exact ih a later
    · cases List.mem_singleton.mp here
      rfl

theorem barredIncomplete (e : Errno) :
    ¬ Completes {plainEnv .nil with chdirStart := some e} := by
  rintro ⟨n, ends⟩
  obtain ⟨s, rows, ran, -⟩ := ends n (Nat.le_refl n)
  cases ran

theorem chainIncomplete : ¬ Completes (plainEnv (chain (2^31))) := by
  obtain ⟨a, mem, mode, deep⟩ := chainDeep (2^31 - 1) [] 1
  refine deepIncomplete (a := a) ?_ mode (by omega)
  rw [plainWalk]
  exact List.mem_cons_of_mem _ mem

theorem crowdFileSystem {n : Nat} (few : n ≤ 2^32) : FileSystem (plainEnv (crowd n)) :=
  ⟨rfl, crowdAll (fun m => (digitsValid m).1) n, crowdNodup few, crowdDistinct n⟩

theorem crowdFits (n : Nat) : Fits (plainEnv (crowd n)) :=
  plainFits (crowdAll (fun m => (digitsValid m).2) n)

theorem crowdIncomplete {n : Nat} (many : n + 1 = 2^32) : ¬ Completes (plainEnv (crowd n)) := by
  refine crowdedIncomplete (crowdFileSystem (by omega)) (crowdFits n) rfl rfl ?_ ?_
  · rw [plainWalk]
    intro a mem
    rcases List.mem_cons.mp mem with rfl | below
    · exact Nat.two_pow_pos 31
    · rw [crowdFlat n [] 1 a below]
      exact Nat.one_lt_two_pow (by decide)
  · have files := crowdVisited n [] 1
    rw [allVisited] at files
    rw [plainWalk, allVisited, List.countP_cons, files, if_pos Option.isSome_some, many]

def FallsShort (env : Env) : Prop := FileSystem env ∧ Fits env ∧ env.lstat = none ∧ ¬ Completes env

/- A start directory that cannot be entered, a chain of 2^31 directories under the start
directory, and 2^32 - 1 files in it. -/
theorem ftwFallsShort : FallsShort {plainEnv .nil with chdirStart := some ⟨13, by decide⟩} ∧
    FallsShort (plainEnv (chain (2^31))) ∧ FallsShort (plainEnv (crowd (2^32 - 1))) := by
  refine ⟨⟨?_, ⟨trivial, show 1 < 200 by decide, fun _ => rfl⟩, rfl, barredIncomplete _⟩,
    ⟨?_, ?_, rfl, chainIncomplete⟩,
    ⟨crowdFileSystem (Nat.sub_le _ _), crowdFits _, rfl, crowdIncomplete (by decide)⟩⟩
  · exact ⟨rfl, trivial, List.nodup_nil, trivial⟩
  · have valid : ValidName [97] := by simp [ValidName, dotdot]
    exact ⟨rfl, chainAll valid _, chainNodup _, chainDistinct _⟩
  · exact plainFits (chainAll (show 1 < 200 by decide) _)

end OsLabs.Ftw
