import OsLabs.FtwRefines

/-! What ftw returns and what its counters say, against the recursive walk from the start
directory. The counters are longs; the per cent of the table is computed in ints. -/
namespace OsLabs.Ftw
open CMemory CInteger WhileLoop

def Env.walk (env : Env) : List Attempt := visit [] [] env.absolute 0 env.root

def Stats.counter (stats : Stats) : Mode → Int
  | .file .reg => stats.nreg
  | .file .blk => stats.nblk
  | .file .chr => stats.nchr
  | .file .fifo => stats.nfifo
  | .file .lnk => stats.nslink
  | .file .sock => stats.nsock
  | .dir => stats.ndir

def Stats.sum (stats : Stats) : Int :=
  stats.nreg + stats.nchr + stats.nblk + stats.nfifo + stats.nslink + stats.nsock + stats.ndir

def visited (mode : Mode) (attempts : List Attempt) : Nat :=
  attempts.countP fun a => decide (a.mode = some mode)

def allVisited (attempts : List Attempt) : Nat := attempts.countP fun a => a.mode.isSome

theorem visitedSum (attempts : List Attempt) : allVisited attempts =
    visited (.file .reg) attempts + visited (.file .chr) attempts + visited (.file .blk) attempts +
      visited (.file .fifo) attempts + visited (.file .lnk) attempts +
      visited (.file .sock) attempts + visited .dir attempts := by
  unfold allVisited visited
  induction attempts with
  | nil => rfl
  | cons a rest ih =>
    simp only [List.countP_cons, ih]
    rcases a.mode with - | (kind | -)
    · simp
    · cases kind <;> simp <;> omega
    · simp; omega

theorem visitedLe (mode : Mode) (attempts : List Attempt) :
    visited mode attempts ≤ allVisited attempts := by
  have sum := visitedSum attempts
  rcases mode with (kind | -)
  · cases kind <;> omega
  · omega

theorem countCounter (stats : Stats) (a : Attempt) (mode : Mode) : (a.count stats).counter mode =
    if a.mode = some mode then toLong (stats.counter mode + 1) else stats.counter mode := by
  unfold Attempt.count
  rcases a.mode with - | (kind | -)
  · rfl
  · rcases mode with (other | -)
    · cases kind <;> cases other <;> rfl
    · cases kind <;> rfl
  · rcases mode with (other | -)
    · cases other <;> rfl
    · rfl

theorem counterExact (mode : Mode) (attempts : List Attempt) : ∀ stats : Stats,
    0 ≤ stats.counter mode → stats.counter mode + visited mode attempts < 2^63 →
      (attempts.foldl Attempt.count stats).counter mode =
        stats.counter mode + visited mode attempts := by
  induction attempts with
  | nil => intro stats _ _; exact (Int.add_zero _).symm
  | cons a rest ih =>
    intro stats natural bound
    have split : visited mode (a :: rest) =
        visited mode rest + if a.mode = some mode then 1 else 0 := by
      simp [visited, List.countP_cons]
    have counter := countCounter stats a mode
    rw [split] at bound ⊢
    by_cases same : a.mode = some mode
    · rw [if_pos same] at counter bound ⊢
      rw [toLongExact (by omega) (by omega)] at counter
      rw [List.foldl_cons, ih _ (by omega) (by omega), counter]
      omega
    · rw [if_neg same] at counter bound ⊢
      rw [List.foldl_cons, ih _ (by omega) (by omega), counter]
      rfl

structure Counted (stats : Stats) (attempts : List Attempt) : Prop where
  each : ∀ mode, stats.counter mode = visited mode attempts
  total : stats.ntotal = stats.sum
  all : stats.ntotal = allVisited attempts

theorem sumStatCounted {attempts : List Attempt} (bound : allVisited attempts < 2^63) :
    Counted (sumStat (attempts.foldl Attempt.count start.stats)) attempts := by
  have each : ∀ mode, (attempts.foldl Attempt.count start.stats).counter mode =
      visited mode attempts := by
    intro mode
    have below := visitedLe mode attempts
    have zero : start.stats.counter mode = 0 := by
      rcases mode with (kind | -)
      · cases kind <;> rfl
      · rfl
    rw [counterExact mode attempts start.stats (by omega) (by omega), zero, Int.zero_add]
  have sum : (attempts.foldl Attempt.count start.stats).sum = allVisited attempts := by
    have reg := each (.file .reg)
    have chr := each (.file .chr)
    have blk := each (.file .blk)
    have fifo := each (.file .fifo)
    have lnk := each (.file .lnk)
    have sock := each (.file .sock)
    have dir := each .dir
    have all := visitedSum attempts
    simp only [Stats.counter] at reg chr blk fifo lnk sock dir
    simp only [Stats.sum]
    omega
  have total : (sumStat (attempts.foldl Attempt.count start.stats)).ntotal =
      (attempts.foldl Attempt.count start.stats).sum := by
    have whole := toLongExact (x := (attempts.foldl Attempt.count start.stats).sum)
      (by omega) (by omega)
    exact whole
  refine ⟨fun mode => ?_, total, total.trans sum⟩
  rw [← each mode]
  rcases mode with (kind | -)
  · cases kind <;> rfl
  · rfl

theorem percentFound {all : Int} (low : 0 < all) (high : all < 2^32 - 1) (part : Int) :
    ∃ percent, findPercent part all = .ok percent := by
  have safe : ¬ (toInt all = 0 ∨ toInt (toInt part * 100) = -2^31 ∧ toInt all = -1) := by
    unfold toInt
    omega
  exact ⟨_, if_neg safe⟩

theorem statPrinted {stats : Stats} (low : 0 < stats.ntotal) (high : stats.ntotal < 2^32 - 1) :
    ∃ rows, printStat stats = .ok rows := by
  unfold printStat
  simp only
  generalize [stats.nreg, stats.ndir, stats.nblk, stats.nchr, stats.nfifo, stats.nslink,
    stats.nsock] = rows
  induction rows with
  | nil => exact ⟨[], rfl⟩
  | cons part rest ih =>
    obtain ⟨percent, found⟩ := percentFound low high part
    obtain ⟨later, printed⟩ := ih
    exact ⟨(toInt part, percent) :: later, by rw [List.foldr_cons, found, printed]⟩

section Start
variable {env : Env} (fs : FileSystem env) (fits : Fits env)
include fs fits

theorem contentWalks (deep : ∀ a ∈ env.content.walk [] 1, a.depth < 2^31) :
    ListingWalks env env.content [] 1 :=
  listingWalks fs fits.malloc env.content [] 1
    (fun _ _ here => ⟨hasFind fs.nodup here, (hasAll fs.valid here).1⟩) fs.valid fits.names fs.distinct
    deep

theorem ftwLoop (chdir : env.chdirStart = none) (getcwd : env.getcwd = none)
    (deep : ∀ a ∈ env.walk, a.depth < 2^31) :
    ∃ first last n, ftwStart env = .ok (.inr first) ∧
      (∀ fuel, n ≤ fuel → walkLoop env fuel first = some (.ok last)) ∧
      last.2.calls = env.walk.flatMap Attempt.calls ∧
      last.2.stats = env.walk.foldl Attempt.count start.stats := by
  have down : env.absolute ≠ dotdot := by
    intro same
    have head := fs.absolute
    rw [same] at head
    exact absurd head (by decide)
  have resolve : env.resolve (.inside []) env.absolute = some env.root := if_pos rfl
  have inside : ∀ content, env.root.entered = some content →
      Inside env [] [] env.absolute 0 content := by
    intro content entered
    have admitted := enteredDir entered
    obtain ⟨-, -, barred, rfl⟩ := Tree.dir.inj admitted
    have within : ∀ a ∈ env.content.walk [] 1, a.depth < 2^31 := by
      intro a mem
      refine deep a ?_
      rw [Env.walk, visit, entered]
      exact List.mem_cons_of_mem _ mem
    refine ⟨fits.names, ?_, contentWalks fs fits within, within⟩
    simp only [Env.chdirAt, if_neg down, resolve, admitted, if_true]
  let elem : Node := ⟨env.absolute, 0, fits.absolute⟩
  let first : State := {start with cwd := .inside [], mallocs := 1 + 1, stk := [elem]}
  have view : elem.view = (env.absolute, ((0 : Nat) : Int)) := rfl
  have cwd : first.cwd = .inside [] := rfl
  have begun : ftwStart env = .ok (.inr (some elem, first)) := by
    simp only [ftwStart, chdir, getcwd, createPushed fits.malloc _ fits.absolute]
    rfl
  obtain ⟨t, leads, -, walked⟩ := visitWalks fits.malloc view (Nat.two_pow_pos 31) cwd
    (List.cons_ne_nil _ _) resolve down inside
  have last : popped env t = (some elem, {t with mallocs := t.mallocs + 1, stk := []}) :=
    poppedLast fits.malloc (walked.stk.trans (List.nil_append _).symm)
  obtain ⟨n, ends⟩ := leadsDone leads (by rw [last]; rfl)
  refine ⟨_, _, n, begun, ends, ?_, ?_⟩
  · rw [last]
    exact walked.calls
  · rw [last]
    exact walked.stats

end Start

def Env.Below (env : Env) (full : List Name) (tree : Tree) : Prop :=
  ∃ content, env.root.entered = some content ∧ Entry content full tree

structure WalksOnce (env : Env) : Prop where
  shape : ∃ rest, env.walk = ⟨[], env.absolute, env.root.mode, 0⟩ :: rest ∧
    (rest.map Attempt.full).Nodup ∧
    ∀ full mode depth, (∃ a ∈ rest, a.full = full ∧ a.mode = mode ∧ a.depth = depth) ↔
      ∃ tree, env.Below full tree ∧ tree.mode = mode ∧ depth = full.length

structure Finished (env : Env) (s : State) : Prop where
  calls : s.calls = env.walk.flatMap Attempt.calls
  counted : Counted s.stats env.walk

def Completes (env : Env) : Prop :=
  ∃ n, ∀ fuel, n ≤ fuel → ∃ s rows, ftw env fuel = some (.ok (0, s, rows)) ∧ Finished env s

theorem walksOnce {env : Env} (fs : FileSystem env) : WalksOnce env := by
  refine ⟨_, rfl, ?_⟩
  cases goes : env.root.entered with
  | none =>
    refine ⟨List.nodup_nil, fun full mode depth => ⟨?_, ?_⟩⟩
    · rintro ⟨a, mem, -⟩
      cases mem
    · rintro ⟨tree, ⟨content, entered, -⟩, -⟩
      cases goes.symm.trans entered
  | some content =>
    obtain ⟨-, -, -, same⟩ := Tree.dir.inj (enteredDir goes)
    obtain ⟨once, exactly⟩ := walkExactly fs.nodup fs.distinct
    rw [same] at once exactly
    refine ⟨once, fun full mode depth => (exactly full mode depth).trans ⟨?_, ?_⟩⟩
    · rintro ⟨tree, entry, rest⟩
      exact ⟨tree, ⟨content, goes, entry⟩, rest⟩
    · rintro ⟨tree, ⟨other, entered, entry⟩, rest⟩
      cases goes.symm.trans entered
      exact ⟨tree, entry, rest⟩

theorem ftwStops {env : Env} (failed : env.chdirStart ≠ none ∨ env.getcwd ≠ none) (fuel : Nat) :
    ∃ s, ftw env fuel = some (.ok (-1, s, [])) ∧ s.calls = [] := by
  unfold ftw ftwStart
  cases chdir : env.chdirStart with
  | some e => exact ⟨_, rfl, rfl⟩
  | none =>
    cases getcwd : env.getcwd with
    | some e => exact ⟨_, rfl, rfl⟩
    | none => exact absurd failed (by simp [chdir, getcwd])

theorem ftwCompletes {env : Env} (fs : FileSystem env) (fits : Fits env) (readable : env.lstat = none)
    (chdir : env.chdirStart = none) (getcwd : env.getcwd = none)
    (deep : ∀ a ∈ env.walk, a.depth < 2^31) (few : allVisited env.walk < 2^32 - 1) : Completes env := by
  obtain ⟨first, last, n, begun, ends, calls, stats⟩ := ftwLoop fs fits chdir getcwd deep
  have counted : Counted (sumStat last.2.stats) env.walk := by
    rw [stats]
    exact sumStatCounted (by omega)
  have visited : 0 < allVisited env.walk := by
    refine List.countP_pos_iff.mpr ⟨_, List.mem_cons_self, ?_⟩
    simp only [Env.root, Tree.mode, readable, Option.isSome_some]
  have total := counted.all
  have low : 0 < (sumStat last.2.stats).ntotal := by omega
  obtain ⟨rows, printed⟩ := statPrinted low (by omega)
  refine ⟨n, fun fuel enough => ⟨{last.2 with stats := sumStat last.2.stats}, rows, ?_, calls, counted⟩⟩
  simp only [ftw, begun, ends fuel enough, Option.map_some, printed]

theorem ftwWalks {env : Env} (fs : FileSystem env) (fits : Fits env) (readable : env.lstat = none) :
    (env.chdirStart ≠ none ∨ env.getcwd ≠ none →
      ∀ fuel, ∃ s, ftw env fuel = some (.ok (-1, s, [])) ∧ s.calls = []) ∧
    (env.chdirStart = none → env.getcwd = none → (∀ a ∈ env.walk, a.depth < 2^31) →
      allVisited env.walk < 2^32 - 1 → Completes env) ∧
    WalksOnce env :=
  ⟨ftwStops, ftwCompletes fs fits readable, walksOnce fs⟩

def plainEnv (content : Listing) : Env where
  chdirStart := none
  getcwd := none
  absolute := [47]
  lstat := none
  opendir := none
  chdir := none
  content := content
  malloc := fun _ => true

theorem plainFits {content : Listing} (short : content.All ShortName) : Fits (plainEnv content) :=
  ⟨short, show 1 < 200 by decide, fun _ => rfl⟩

theorem plainWalk (content : Listing) :
    (plainEnv content).walk = ⟨[], [47], some .dir, 0⟩ :: content.walk [] 1 := rfl

def mixed : Listing :=
  .dots false (.entry [97] (.file none .lnk) (.entry [98] (.dir none none (some ⟨13, by decide⟩)
    (.entry [99] (.file none .reg) .nil)) (.dots true (.entry [100] (.dir none none none
      (.entry [99] (.file none .fifo) .nil)) .nil))))

theorem mixedFileSystem : FileSystem (plainEnv mixed) where
  absolute := rfl
  valid := by simp [plainEnv, mixed, Listing.All, Tree.All, ValidName, dotdot]
  nodup := by decide
  distinct := by simp [plainEnv, mixed, Listing.Distinct, Tree.Distinct, Listing.names]

theorem mixedCompletes : Completes (plainEnv mixed) ∧ WalksOnce (plainEnv mixed) := by
  have short : mixed.All ShortName := by simp [mixed, Listing.All, Tree.All, ShortName, maxName]
  have walks := ftwWalks mixedFileSystem (plainFits short) rfl
  exact ⟨walks.2.1 rfl rfl (by decide) (by decide), walks.2.2⟩

end OsLabs.Ftw
