import OsLabs.DepthRows
import OsLabs.FtwTotals
import OsLabs.TextColumns

/-! What function() of lab_02 prints: one line for each entry, indented by its depth and
coloured by its type. The lines can be read back into the tree that was walked. -/
namespace OsLabs.Ftw
open CMemory DepthRows TextColumns

/- MAGENTA "----| " RESET, GREEN " " and CYAN " ". -/
def indent : List Byte :=
  [27, 91, 51, 53, 109, 45, 45, 45, 45, 124, 32, 27, 91, 48, 109]
def green : List Byte := [27, 91, 51, 50, 109, 32]
def cyan : List Byte := [27, 91, 51, 54, 109, 32]
def reset : List Byte := [27, 91, 48, 109]
def newline : Byte := 10

def colour : FtwType → List Byte
  | .dir => green
  | .file => cyan

def function (pathName : Name) (type : FtwType) (depth : Int) : List Byte :=
  (List.replicate depth.toNat indent).flatten ++ colour type ++ pathName ++ [newline] ++ reset

def Call.printed : Call → List Byte
  | .lstat _ _ _ => []
  | .func _ name type depth => function name type depth

def printed (calls : List Call) : List Byte := calls.flatMap Call.printed

abbrev Line := Nat × FtwType × Name

def readName (depth : Nat) (type : FtwType) (text : List Byte) : Option (Line × List Byte) :=
  (strip reset ((text.dropWhile fun b => decide (b ≠ newline)).drop 1)).map fun rest =>
    ((depth, type, text.takeWhile fun b => decide (b ≠ newline)), rest)

def readLine : Nat → Nat → List Byte → Option (Line × List Byte)
  | 0, _, _ => none
  | fuel + 1, depth, text => match strip indent text with
    | some more => readLine fuel (depth + 1) more
    | none => match strip green text with
      | some more => readName depth .dir more
      | none => (strip cyan text).bind (readName depth .file)

def readLines : Nat → List Byte → Option (List Line)
  | _, [] => some []
  | 0, _ => none
  | fuel + 1, text => (readLine (text.length + 1) 0 text).bind fun out =>
      (readLines fuel out.2).map (out.1 :: ·)

def readListing (text : List Byte) : Option (Forest (FtwType × Name)) :=
  (readLines text.length text).map fun lines => readForest lines.length lines

abbrev LineName (name : Name) : Prop := newline ∉ name

theorem readNameBack {name : Name} (line : LineName name) (depth : Nat) (type : FtwType)
    (rest : List Byte) : readName depth type (name ++ newline :: (reset ++ rest)) =
      some ((depth, type, name), rest) := by
  have plain : ∀ b ∈ name, decide (b ≠ newline) = true := by
    intro b mem
    refine decide_eq_true fun same => line (same ▸ mem)
  have stops : decide (newline ≠ newline) = false := rfl
  rw [readName, List.dropWhile_append_of_pos plain, List.takeWhile_append_of_pos plain,
    List.dropWhile_cons, List.takeWhile_cons, stops]
  simp only [Bool.false_eq_true, if_false, List.drop_one, List.tail_cons, List.append_nil, stripAppend,
    Option.map_some]

theorem readLineBack {name : Name} (line : LineName name) (type : FtwType) (rest : List Byte) (k : Nat) :
    ∀ fuel depth, k < fuel →
      readLine fuel depth ((List.replicate k indent).flatten ++
        (colour type ++ (name ++ newline :: (reset ++ rest)))) = some ((depth + k, type, name), rest) := by
  induction k with
  | zero =>
    intro fuel depth enough
    obtain ⟨fuel, rfl⟩ := Nat.exists_eq_succ_of_ne_zero (by omega : fuel ≠ 0)
    rw [List.replicate_zero, List.flatten_nil, List.nil_append, Nat.add_zero]
    cases type with
    | dir =>
      rw [readLine, colour, stripOther (by decide) (by decide), stripAppend]
      exact readNameBack line depth .dir rest
    | file =>
      rw [readLine, colour, stripOther (by decide) (by decide)]
      simp only [@stripOther _ _ green cyan (by decide) (by decide), stripAppend, Option.bind_some]
      exact readNameBack line depth .file rest
  | succ k ih =>
    intro fuel depth enough
    obtain ⟨fuel, rfl⟩ := Nat.exists_eq_succ_of_ne_zero (by omega : fuel ≠ 0)
    rw [List.replicate_succ, List.flatten_cons, List.append_assoc, readLine, stripAppend]
    have later := ih fuel (depth + 1) (by omega)
    rw [Nat.add_right_comm, Nat.add_assoc] at later
    exact later

def printLine (l : Line) : List Byte := function l.2.2 l.2.1 l.1

theorem lineText (l : Line) (rest : List Byte) : printLine l ++ rest =
    (List.replicate l.1 indent).flatten ++ (colour l.2.1 ++ (l.2.2 ++ newline :: (reset ++ rest))) := by
  simp only [printLine, function, Int.toNat_natCast, List.append_assoc, List.cons_append,
    List.nil_append]

theorem indentLength (k : Nat) : k ≤ ((List.replicate k indent).flatten).length := by
  rw [List.length_flatten, List.map_replicate, List.sum_replicate_nat]
  exact Nat.le_mul_of_pos_right k (by decide)

theorem readLinesMore (fuel : Nat) {text : List Byte} (filled : text ≠ []) :
    readLines (fuel + 1) text = (readLine (text.length + 1) 0 text).bind fun out =>
      (readLines fuel out.2).map (out.1 :: ·) := by
  cases text with
  | nil => exact absurd rfl filled
  | cons b rest => rfl

theorem readLinesBack (lines : List Line) (fine : ∀ l ∈ lines, LineName l.2.2) :
    ∀ fuel, lines.length ≤ fuel → readLines fuel (lines.flatMap printLine) = some lines := by
  induction lines with
  | nil => intro fuel _; cases fuel <;> rfl
  | cons l rest ih =>
    intro fuel enough
    rw [List.length_cons] at enough
    obtain ⟨fuel, rfl⟩ := Nat.exists_eq_succ_of_ne_zero (by omega : fuel ≠ 0)
    have here := fine l List.mem_cons_self
    have later := ih (fun m mem => fine m (List.mem_cons_of_mem _ mem)) fuel (by omega)
    have deep := indentLength l.1
    rw [List.flatMap_cons, lineText, readLinesMore, readLineBack here, Option.bind_some, later,
      Option.map_some, Nat.zero_add]
    · simp only [List.length_append]
      omega
    · intro empty
      have zero := congrArg List.length empty
      simp only [List.length_append, List.length_cons, List.length_nil] at zero
      omega

theorem printedLength (lines : List Line) : lines.length ≤ (lines.flatMap printLine).length := by
  induction lines with
  | nil => exact Nat.le_refl 0
  | cons l rest ih =>
    rw [List.flatMap_cons, lineText]
    simp only [List.length_append, List.length_cons]
    omega

theorem listingBack {depth : Nat} (f : Forest (FtwType × Name))
    (fine : ∀ l ∈ f.rows depth, LineName l.2.2) :
    readListing ((f.rows depth).flatMap printLine) = some f := by
  rw [readListing, readLinesBack _ fine _ (printedLength _), Option.map_some,
    readRows f depth _ (Nat.le_refl _)]

def Mode.type : Mode → FtwType
  | .file _ => .file
  | .dir => .dir

def Attempt.line (a : Attempt) : Option Line := a.mode.map fun mode => (a.depth, mode.type, a.name)

theorem callsPrinted (a : Attempt) : printed a.calls = (a.line.map printLine).getD [] := by
  unfold Attempt.calls Attempt.line
  rcases a.mode with - | (kind | -)
  · rfl
  · exact List.append_nil _
  · exact List.append_nil _

theorem walkPrinted (attempts : List Attempt) :
    printed (attempts.flatMap Attempt.calls) = (attempts.filterMap Attempt.line).flatMap printLine := by
  induction attempts with
  | nil => rfl
  | cons a rest ih =>
    have here := callsPrinted a
    have split : printed ((a :: rest).flatMap Attempt.calls) =
        printed a.calls ++ printed (rest.flatMap Attempt.calls) := by
      rw [List.flatMap_cons, printed, List.flatMap_append]
      rfl
    rw [split, here, ih]
    cases line : a.line with
    | none => rw [List.filterMap_cons_none line]; rfl
    | some l => rw [List.filterMap_cons_some line]; rfl

mutual

/- The part of the tree that the walk sees: without entries that lstat fails on, and with
nothing below a directory that cannot be entered. The entries come last first. -/
def Tree.shown (name : Name) : Tree → Forest (FtwType × Name)
  | .file none _ => .cons (.file, name) .nil .nil
  | .file (some _) _ => .nil
  | .dir none opendir chdir content =>
      .cons (.dir, name) (if enters none opendir chdir then content.shown else .nil) .nil
  | .dir (some _) _ _ _ => .nil

def Listing.shown : Listing → Forest (FtwType × Name)
  | .nil => .nil
  | .fails _ => .nil
  | .dots _ rest => rest.shown
  | .entry name tree rest => rest.shown.append (tree.shown name)

end

mutual

theorem treeRows : ∀ (tree : Tree) (path : List Name) (name : Name) (depth : Nat),
    (tree.walk path name depth).filterMap Attempt.line = (tree.shown name).rows depth
  | .file none kind, path, name, depth => rfl
  | .file (some _) kind, path, name, depth => rfl
  | .dir (some _) opendir chdir content, path, name, depth => rfl
  | .dir none opendir chdir content, path, name, depth => by
    rw [Tree.walk, Tree.shown, Forest.rows, Forest.rows, List.append_nil]
    split
    · rw [← contentRows content (name :: path) (depth + 1)]
      rfl
    · rfl

theorem contentRows : ∀ (content : Listing) (path : List Name) (depth : Nat),
    (content.walk path depth).filterMap Attempt.line = content.shown.rows depth
  | .nil, _, _ => rfl
  | .fails _, _, _ => rfl
  | .dots _ rest, path, depth => contentRows rest path depth
  | .entry name tree rest, path, depth => by
    rw [Listing.walk, Listing.shown, List.filterMap_append, Forest.rowsAppend, contentRows rest,
      treeRows tree]

end

def Env.shown (env : Env) : Forest (FtwType × Name) := env.root.shown env.absolute

theorem envRows (env : Env) : env.walk.filterMap Attempt.line = env.shown.rows 0 := by
  rw [Env.shown, ← treeRows env.root [] env.absolute 0, walkTree, Env.walk, visit, List.filterMap_cons,
    List.filterMap_cons]
  cases env.root.entered with
  | none => rfl
  | some content =>
    rw [Option.map_some, Option.map_some, Option.getD_some, Option.getD_some, contentRows, contentRows]

def ListingReads (env : Env) : Prop :=
  ∃ n, ∀ fuel, n ≤ fuel → ∃ s rows, ftw env fuel = some (.ok (0, s, rows)) ∧
    readListing (printed s.calls) = some env.shown

theorem shownLines {env : Env} (fine : ∀ a ∈ env.walk, LineName a.name) :
    ∀ l ∈ env.shown.rows 0, LineName l.2.2 := by
  intro l mem
  rw [← envRows] at mem
  obtain ⟨a, among, line⟩ := List.mem_filterMap.mp mem
  obtain ⟨mode, -, rfl⟩ := Option.map_eq_some_iff.mp line
  exact fine a among

theorem listingReads {env : Env} (fs : FileSystem env) (fits : Fits env) (readable : env.lstat = none)
    (chdir : env.chdirStart = none) (getcwd : env.getcwd = none)
    (deep : ∀ a ∈ env.walk, a.depth < 2^31) (few : allVisited env.walk < 2^32 - 1)
    (fine : ∀ a ∈ env.walk, LineName a.name) : ListingReads env := by
  obtain ⟨n, completes⟩ := ftwCompletes fs fits readable chdir getcwd deep few
  refine ⟨n, fun fuel enough => ?_⟩
  obtain ⟨s, rows, run, finished⟩ := completes fuel enough
  refine ⟨s, rows, run, ?_⟩
  rw [finished.calls, walkPrinted, envRows]
  exact listingBack env.shown (shownLines fine)

theorem mixedReads : ListingReads (plainEnv mixed) ∧ (plainEnv mixed).shown = .cons (.dir, [47])
    (.cons (.dir, [100]) (.cons (.file, [99]) .nil .nil)
      (.cons (.dir, [98]) .nil (.cons (.file, [97]) .nil .nil))) .nil := by
  have short : mixed.All ShortName := by simp [mixed, Listing.All, Tree.All, ShortName, maxName]
  have lines : ∀ a ∈ (plainEnv mixed).walk, LineName a.name := by decide +kernel
  exact ⟨listingReads mixedFileSystem (plainFits short) rfl rfl rfl (by decide) (by decide) lines, by
    decide +kernel⟩

end OsLabs.Ftw
