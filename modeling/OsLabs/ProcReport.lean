import OsLabs.FolderLinks
import OsLabs.PagemapRows
import OsLabs.ProcessStat
import OsLabs.TextColumns

/-! main of lab_04 part1: nineteen sections, each appended to the output file by calls of its own.
What /proc answers is given for each section. A call that is handed a NULL stream or runs past an
array is undefined; with `f_read == NULL` in preparePrint never true, so is a failing fopen. Of the
page dump only its text is used here, and that it ends. -/
namespace OsLabs.ProcInfo
open CMemory ReusedBuffer Delimited TextColumns
open BufferScan (Buffer)
open MapsDump (PagePower Pread dumpText)

def getPath (name : String) : List Byte := textBytes ("/proc/64361/" ++ name)
def getProcPath (name : String) : List Byte := textBytes ("/proc/" ++ name)

/- What successive calls of fread deliver of a file: full buffers up to its end. -/
def freads : Nat → List Byte → List (List Byte)
  | 0, _ => []
  | fuel + 1, content =>
      if content = [] then [] else content.take bufSize :: freads fuel (content.drop bufSize)

/- "%-23s\n" for every entry but `.` and `..`. -/
def folderLines (names : List (List Byte)) : List Byte :=
  (names.filter fun name => name ≠ textBytes "." ∧ name ≠ textBytes "..").flatMap fun name =>
    padded space 23 name ++ [newline]

def infoFromFolder (path : List Byte) (names : Option (List (List Byte))) : Option (List Byte) :=
  names.map fun names => preparePrint path ++ folderLines names

def infoProcessFromFileLink (outside : Mem) (path : List Byte) (target : Option (List Byte)) :
    Option (List Byte) :=
  (cstring (readlink (zeroed outside) bufSize target) 0 bufSize).map (preparePrint path ++ ·)

def joined : List (Option (List Byte)) → Option (List Byte)
  | [] => some []
  | part :: rest => part.bind fun text => (joined rest).map (text ++ ·)

inductive Kind where
  | file
  | folder
  | folderLink
  | stat (meanings : List String)
  | fileLink

structure Part where
  kind : Kind
  path : List Byte

def parts : List Part :=
  [⟨.file, getPath "environ"⟩, ⟨.file, getPath "cmdline"⟩, ⟨.folderLink, getPath "fd"⟩,
    ⟨.stat statMeanings, getPath "stat"⟩, ⟨.stat statmMeanings, getPath "statm"⟩, ⟨.file, getPath "io"⟩,
    ⟨.fileLink, getPath "cwd"⟩, ⟨.fileLink, getPath "exe"⟩, ⟨.fileLink, getPath "root"⟩,
    ⟨.file, getPath "comm"⟩, ⟨.folder, getPath "task"⟩, ⟨.file, getProcPath "filesystems"⟩,
    ⟨.folder, getProcPath "fs"⟩, ⟨.file, getProcPath "interrupts"⟩, ⟨.file, getProcPath "ioports"⟩,
    ⟨.file, getProcPath "modules"⟩, ⟨.file, getPath "maps"⟩, ⟨.file, getPath "smaps"⟩]

/- What the calls of a section find: whether both files open, what the stack holds, the content of
the file, the entries of the directory and where they or the path lead. No string has a NUL in it. -/
structure Found where
  opens : Bool
  outside : Mem
  content : List Byte
  stat : List Byte
  names : Option (List (List Byte))
  entries : Option (List Entry)
  target : Option (List Byte)
  statClean : 0 ∉ stat
  entriesClean : ∀ es ∈ entries, ∀ e ∈ es, ∀ t ∈ e.target, 0 ∉ t
  targetClean : ∀ t ∈ target, 0 ∉ t

def Part.written (p : Part) (f : Found) : Option (List Byte) :=
  if f.opens then
    match p.kind with
    | .file => infoFromFile f.outside p.path (freads f.content.length f.content)
    | .folder => infoFromFolder p.path f.names
    | .folderLink => f.entries.bind fun entries => joined (infoProcessFromFolderLink f.outside p.path entries)
    | .stat meanings => infoProcessStat f.outside p.path meanings f.stat
    | .fileLink => infoProcessFromFileLink f.outside p.path f.target
  else none

structure Answers where
  truncates : Bool
  found : List Found
  complete : found.length = parts.length
  opensOut : Bool
  opensMaps : Bool
  opensPagemap : Bool
  page : PagePower
  stack : Buffer
  pread : Pread
  pieces : List (List Byte)

inductive Ended where
  | failed (file : Option (List Byte))      -- exit(-1), with the output file as it is then
  | returned (file : List Byte)
  deriving DecidableEq, Repr

def Answers.opensDump (a : Answers) : Bool := a.opensOut && a.opensMaps && a.opensPagemap

def main (a : Answers) : Option Ended :=
  if a.truncates = false then some (.failed none)
  else (joined (List.zipWith Part.written parts a.found)).bind fun report =>
    if a.opensDump then (dumpText a.page a.pread a.stack a.pieces).map fun dump => .returned (report ++ dump)
    else some (.failed (some report))

def LinksEnd (m : Mem) (listed : List Entry) : Prop :=
  listed = [] ∨ ∃ j : Nat, (∀ e ∈ listed, ∀ t ∈ e.target, t.length ≤ j) ∧ j < pathLength ∧ m j = 0

def Part.Fits (p : Part) (f : Found) : Prop :=
  f.opens = true ∧ match p.kind with
    | .file => f.content.length < bufSize
    | .folder => f.names ≠ none
    | .folderLink => ∃ entries, f.entries = some entries ∧ LinksEnd f.outside (entries.filter Entry.listed)
    | .stat meanings => f.stat.length < bufSize ∧ (tokens space f.stat).length ≤ meanings.length
    | .fileLink => ∀ t ∈ f.target, t.length < bufSize

def Part.shows (p : Part) (f : Found) : List Byte :=
  match p.kind with
  | .file => f.content.map unNul
  | .folder => folderLines (f.names.getD [])
  | .folderLink => (joined (printLinks f.outside (f.entries.getD []))).getD []
  | .stat meanings => labelled meanings (tokens space f.stat)
  | .fileLink => f.target.getD []

theorem freadsEnd (fuel : Nat) : freads fuel [] = [] := by
  cases fuel with
  | zero => rfl
  | succ fuel => exact if_pos rfl

theorem madeExactly {made : Option (List Byte)} {shown : List Byte} {P : Prop} (fits : P → made = some shown)
    (fails : ¬ P → made = none) (text : List Byte) : made = some text ↔ P ∧ text = shown := by
  by_cases holds : P
  · rw [fits holds, Option.some.injEq]
    exact ⟨fun same => ⟨holds, same.symm⟩, fun both => both.2.symm⟩
  · rw [fails holds]
    exact ⟨fun undefined => (by cases undefined), fun both => absurd both.1 holds⟩

theorem fileWritten (outside : Mem) (path content text : List Byte) :
    infoFromFile outside path (freads content.length content) = some text ↔
      content.length < bufSize ∧ text = preparePrint path ++ content.map unNul := by
  by_cases none : content = []
  · rw [none]
    exact madeExactly (fun _ => rfl) (fun long => absurd (Nat.zero_lt_succ _) long) text
  have pos := List.length_pos_iff.mpr none
  obtain ⟨fuel, length⟩ := Nat.exists_eq_succ_of_ne_zero (Nat.ne_of_gt pos)
  have first : freads content.length content = content.take bufSize :: freads fuel (content.drop bufSize) := by
    rw [length]
    exact if_neg none
  rw [first, infoFromFile]
  refine madeExactly (fun short => ?_) (fun long => ?_) text
  · rw [List.take_of_length_le (Nat.le_of_lt short), List.drop_eq_nil_of_le (Nat.le_of_lt short), freadsEnd]
    have exactly := printPiecesExactly (zeroedFilled outside) (Nat.zero_le _)
      (List.forall_mem_singleton.mpr (Nat.le_of_lt short))
    have growing : Growing [content] := ⟨List.forall_mem_singleton.mpr short, List.pairwise_singleton _ _⟩
    rw [List.flatten_singleton] at exactly
    rw [exactly.mpr ⟨fun _ _ => Nat.zero_le _, growing⟩, Option.map_some]
  · have full : (content.take bufSize).length = bufSize := by
      rw [List.length_take]
      omega
    have filled := pieceFilled (zeroedFilled outside) (content.take bufSize)
    rw [full, Nat.zero_max] at filled
    rw [printNext, filledNone filled, Option.bind_none, Option.map_none]

theorem linkWritten (outside : Mem) (path : List Byte) {target : Option (List Byte)}
    (clean : ∀ t ∈ target, 0 ∉ t) (text : List Byte) :
    infoProcessFromFileLink outside path target = some text ↔
      (∀ t ∈ target, t.length < bufSize) ∧ text = preparePrint path ++ target.getD [] := by
  cases target with
  | none =>
    have empty : cstring (zeroed outside) 0 bufSize = some [] := fileText outside List.not_mem_nil
    refine madeExactly (fun _ => ?_) (fun long => absurd (fun t mem => by cases mem) long) text
    rw [infoProcessFromFileLink, readlink, empty]
    rfl
  | some t =>
    have shown := fileText outside (clean t rfl)
    refine madeExactly (fun short => ?_) (fun long => ?_) text
    · rw [infoProcessFromFileLink, readlink, shown, if_pos (short t rfl)]
      rfl
    · have large : ¬ t.length < bufSize := fun short => long fun u mem => Option.some.inj mem ▸ short
      rw [infoProcessFromFileLink, readlink, shown, if_neg large]
      rfl

theorem statWritten (outside : Mem) (path : List Byte) (meanings : List String) {file : List Byte}
    (clean : 0 ∉ file) (text : List Byte) : infoProcessStat outside path meanings file = some text ↔
      (file.length < bufSize ∧ (tokens space file).length ≤ meanings.length) ∧
        text = preparePrint path ++ labelled meanings (tokens space file) := by
  refine madeExactly (fun fits => ?_) (fun fails => ?_) text
  · have printed := @printTokensShort meanings (tokens space file) 0 (by omega)
    rw [Nat.mul_zero, List.drop_zero] at printed
    rw [infoProcessStat, fileText outside clean, if_pos fits.1, Option.bind_some, printed, Option.map_some]
  · by_cases short : file.length < bufSize
    · have many : meanings.length < (tokens space file).length := Nat.lt_of_not_le fun few => fails ⟨short, few⟩
      have tooMany := @printTokensLong meanings (tokens space file) 0 (by omega) (Nat.zero_le _)
      rw [Nat.mul_zero] at tooMany
      rw [infoProcessStat, fileText outside clean, if_pos short, Option.bind_some, tooMany, Option.map_none]
    · exact longOverruns outside path meanings clean short

theorem joinedCons (part : Option (List Byte)) (rest : List (Option (List Byte))) :
    (joined (part :: rest)).isSome ↔ part.isSome ∧ (joined rest).isSome := by
  cases part with
  | none => simp [joined]
  | some text => simp [joined]

theorem cstringSome (m : Mem) (room : Nat) : (cstring m 0 room).isSome ↔ ∃ j : Nat, j < room ∧ m j = 0 := by
  constructor
  · intro found
    by_contra none
    have plain : ∀ j : Int, 0 ≤ j → j < 0 + room → m j ≠ 0 := by
      intro j low high zero
      obtain ⟨j, rfl⟩ := Int.eq_ofNat_of_zero_le low
      exact none ⟨j, by omega, zero⟩
    rw [cstringNone plain] at found
    cases found
  · rintro ⟨j, inside, zero⟩
    obtain ⟨text, found, -⟩ := @cstringEnds m 0 j room (by omega) (by omega) zero
    rw [found]
    rfl

theorem readlinkZero (m : Mem) {target : Option (List Byte)} (clean : ∀ t ∈ target, 0 ∉ t) {j : Nat}
    (inside : j < pathLength) :
    readlink m pathLength target j = 0 ↔ (∀ t ∈ target, t.length ≤ j) ∧ m j = 0 := by
  cases target with
  | none => exact ⟨fun zero => ⟨fun t mem => (by cases mem), zero⟩, fun both => both.2⟩
  | some t =>
    have plain : 0 ∉ t.take pathLength := fun mem => clean t rfl (List.mem_of_mem_take mem)
    have cut := List.length_take (i := pathLength) (l := t)
    by_cases behind : t.length ≤ j
    · have same : overlay m (t.take pathLength) j = m j := overlayBehind m (by omega)
      rw [readlink, same]
      refine ⟨fun zero => ⟨fun u mem => ?_, zero⟩, fun both => both.2⟩
      cases Option.some.inj mem
      exact behind
    · have nonzero : overlay m (t.take pathLength) j ≠ 0 := overlayPlain m plain (by omega) (by omega)
      exact ⟨fun zero => absurd zero nonzero, fun both => absurd (both.1 t rfl) behind⟩

theorem linksJoined (m : Mem) {entries : List Entry} (listed : ∀ e ∈ entries, e.listed = true)
    (clean : ∀ e ∈ entries, ∀ t ∈ e.target, 0 ∉ t) :
    (joined (printLinks m entries)).isSome ↔ LinksEnd m entries := by
  induction entries generalizing m with
  | nil => exact ⟨fun _ => .inl rfl, fun _ => rfl⟩
  | cons e rest ih =>
    have own := clean e List.mem_cons_self
    have later := ih (readlink m pathLength e.target) (fun x mem => listed x (List.mem_cons_of_mem _ mem))
      (fun x mem => clean x (List.mem_cons_of_mem _ mem))
    rw [printEntry m (listed e List.mem_cons_self), joinedCons, later, Option.isSome_map, cstringSome]
    constructor
    · rintro ⟨⟨j, inside, zero⟩, empty | ⟨k, above, below, behind⟩⟩
      · rw [empty]
        obtain ⟨reached, left⟩ := (readlinkZero m own inside).mp zero
        exact .inr ⟨j, List.forall_mem_singleton.mpr reached, inside, left⟩
      · obtain ⟨reached, left⟩ := (readlinkZero m own below).mp behind
        exact .inr ⟨k, List.forall_mem_cons.mpr ⟨reached, above⟩, below, left⟩
    · rintro (empty | ⟨j, above, inside, zero⟩)
      · cases empty
      · obtain ⟨reached, rest⟩ := List.forall_mem_cons.mp above
        have left := (readlinkZero m own inside).mpr ⟨reached, zero⟩
        exact ⟨⟨j, inside, left⟩, .inr ⟨j, rest, inside, left⟩⟩

theorem linksWritten (outside : Mem) (path : List Byte) {entries : Option (List Entry)}
    (clean : ∀ es ∈ entries, ∀ e ∈ es, ∀ t ∈ e.target, 0 ∉ t) (text : List Byte) :
    (entries.bind fun es => joined (infoProcessFromFolderLink outside path es)) = some text ↔
      (∃ es, entries = some es ∧ LinksEnd outside (es.filter Entry.listed)) ∧
        text = preparePrint path ++ (joined (printLinks outside (entries.getD []))).getD [] := by
  cases entries with
  | none => simp
  | some es =>
    have ends := linksJoined outside (fun e mem => (List.mem_filter.mp mem).2 : ∀ e ∈ es.filter Entry.listed, _)
      (fun e mem => clean es rfl e (List.mem_filter.mp mem).1)
    rw [← printListed] at ends
    rw [Option.bind_some, Option.getD_some]
    refine madeExactly ?_ (fun fails => ?_) text
    · rintro ⟨other, same, fits⟩
      cases same
      obtain ⟨lines, found⟩ := Option.isSome_iff_exists.mp (ends.mpr fits)
      rw [infoProcessFromFolderLink, joined, found]
      rfl
    · have undefined : joined (printLinks outside es) = none :=
        Option.not_isSome_iff_eq_none.mp fun defined => fails ⟨es, rfl, ends.mp defined⟩
      rw [infoProcessFromFolderLink, joined, undefined]
      rfl

theorem writtenExactly (p : Part) (f : Found) (text : List Byte) :
    p.written f = some text ↔ p.Fits f ∧ text = preparePrint p.path ++ p.shows f := by
  obtain ⟨kind, path⟩ := p
  cases opens : f.opens with
  | false => simp [Part.written, Part.Fits, opens]
  | true =>
    simp only [Part.written, Part.Fits, Part.shows, opens, if_true, true_and]
    cases kind with
    | file => exact fileWritten f.outside path f.content text
    | folder =>
      refine madeExactly (fun defined => ?_) (fun undefined => ?_) text
      · obtain ⟨names, found⟩ := Option.ne_none_iff_exists'.mp defined
        rw [found]
        rfl
      · rw [Classical.not_not.mp undefined]
        rfl
    | folderLink => exact linksWritten f.outside path f.entriesClean text
    | stat meanings => exact statWritten f.outside path meanings f.statClean text
    | fileLink => exact linkWritten f.outside path f.targetClean text

theorem joinedExactly {written : Part → Found → Option (List Byte)} {fits : Part → Found → Prop}
    {shown : Part → Found → List Byte}
    (each : ∀ p f text, written p f = some text ↔ fits p f ∧ text = shown p f) {ps : List Part}
    {fs : List Found} (length : fs.length = ps.length) (text : List Byte) :
    joined (List.zipWith written ps fs) = some text ↔
      List.Forall₂ fits ps fs ∧ text = (List.zipWith shown ps fs).flatten := by
  induction ps generalizing fs text with
  | nil =>
    cases List.eq_nil_of_length_eq_zero length
    simp [joined, eq_comm]
  | cons p ps ih =>
    cases fs with
    | nil => cases length
    | cons f fs =>
      have later := ih (Nat.succ.inj length)
      rw [List.zipWith_cons_cons, List.zipWith_cons_cons, List.forall₂_cons, List.flatten_cons, joined]
      constructor
      · intro all
        obtain ⟨first, here, all⟩ := Option.bind_eq_some_iff.mp all
        obtain ⟨rest, behind, rfl⟩ := Option.map_eq_some_iff.mp all
        obtain ⟨one, rfl⟩ := (each p f first).mp here
        obtain ⟨more, rfl⟩ := (later rest).mp behind
        exact ⟨⟨one, more⟩, rfl⟩
      · rintro ⟨⟨one, more⟩, rfl⟩
        rw [(each p f _).mpr ⟨one, rfl⟩, (later _).mpr ⟨more, rfl⟩]
        rfl

def Answers.sections (a : Answers) : List Byte :=
  (List.zipWith (fun p f => preparePrint p.path ++ p.shows f) parts a.found).flatten

def Answers.Fits (a : Answers) : Prop := List.Forall₂ Part.Fits parts a.found

theorem sectionsJoined (a : Answers) :
    (a.Fits → joined (List.zipWith Part.written parts a.found) = some a.sections) ∧
      (¬ a.Fits → joined (List.zipWith Part.written parts a.found) = none) := by
  have exactly := joinedExactly writtenExactly a.complete
  refine ⟨fun fits => (exactly _).mpr ⟨fits, rfl⟩, fun fails => ?_⟩
  exact Option.eq_none_iff_forall_ne_some.mpr fun text found => fails ((exactly text).mp found).1

theorem reportExactly (a : Answers) :
    (∀ file, main a = some (.returned file) ↔ a.truncates = true ∧ a.Fits ∧ a.opensDump = true ∧
      ∃ dump, dumpText a.page a.pread a.stack a.pieces = some dump ∧ file = a.sections ++ dump) ∧
    ∀ file, main a = some (.failed file) ↔ a.truncates = false ∧ file = none ∨
      a.truncates = true ∧ a.Fits ∧ a.opensDump = false ∧ file = some a.sections := by
  obtain ⟨fitting, failing⟩ := sectionsJoined a
  cases truncates : a.truncates with
  | false =>
    have ended : main a = some (.failed none) := if_pos truncates
    refine ⟨fun file => by simp [ended], fun file => ?_⟩
    rw [ended, Option.some.injEq, Ended.failed.injEq, @eq_comm _ none]
    simp
  | true =>
    have goes : ¬ a.truncates = false := by rw [truncates]; decide
    by_cases fits : a.Fits
    · cases opens : a.opensDump with
      | false =>
        have ended : main a = some (.failed (some a.sections)) := by
          rw [main, if_neg goes, fitting fits, Option.bind_some, if_neg (by rw [opens]; decide)]
        refine ⟨fun file => by simp [ended], fun file => ?_⟩
        rw [ended, Option.some.injEq, Ended.failed.injEq, @eq_comm _ (some a.sections)]
        simp [fits]
      | true =>
        have ended : main a = (dumpText a.page a.pread a.stack a.pieces).map fun dump =>
            .returned (a.sections ++ dump) := by
          rw [main, if_neg goes, fitting fits, Option.bind_some, if_pos opens]
        refine ⟨fun file => ?_, fun file => by simp [ended]⟩
        rw [ended, Option.map_eq_some_iff]
        simp [fits, @eq_comm _ file]
    · have ended : main a = none := by
        rw [main, if_neg goes, failing fits]
        rfl
      simp [ended, fits]

def short : Found :=
  ⟨true, fun _ => 0, [65, 0], [49, 32, 50], some [[97]], some [linkA], some [47], by decide,
    by intro es mem; cases Option.some.inj mem; decide, by intro t mem; cases Option.some.inj mem; decide⟩

def shortAnswers : Answers :=
  ⟨true, List.replicate 18 short, rfl, true, true, true, .x86, fun _ => 0, ⟨fun _ _ _ => none, by simp⟩, []⟩

theorem shortReport : ∃ file, main shortAnswers = some (.returned file) := by
  have file : ∀ path, Part.Fits ⟨.file, path⟩ short := fun path => ⟨rfl, (by decide : 2 < bufSize)⟩
  have folder : ∀ path, Part.Fits ⟨.folder, path⟩ short := fun path => ⟨rfl, Option.some_ne_none _⟩
  have links : ∀ path, Part.Fits ⟨.folderLink, path⟩ short := by
    refine fun path => ⟨rfl, [linkA], rfl, .inr ⟨2, ?_, by decide, rfl⟩⟩
    decide
  have stat : ∀ path, Part.Fits ⟨.stat statMeanings, path⟩ short := fun path => ⟨rfl, by decide, by decide⟩
  have statm : ∀ path, Part.Fits ⟨.stat statmMeanings, path⟩ short :=
    fun path => ⟨rfl, by decide, by decide⟩
  have link : ∀ path, Part.Fits ⟨.fileLink, path⟩ short := by
    intro path
    refine ⟨rfl, fun t mem => ?_⟩
    cases Option.some.inj mem
    decide
  have fits : shortAnswers.Fits :=
    .cons (file _) <| .cons (file _) <| .cons (links _) <| .cons (stat _) <| .cons (statm _) <|
      .cons (file _) <| .cons (link _) <| .cons (link _) <| .cons (link _) <| .cons (file _) <|
      .cons (folder _) <| .cons (file _) <| .cons (folder _) <| .cons (file _) <| .cons (file _) <|
      .cons (file _) <| .cons (file _) <| .cons (file _) .nil
  obtain ⟨dump, made⟩ := Option.isSome_iff_exists.mp
    (rfl : (dumpText shortAnswers.page shortAnswers.pread shortAnswers.stack shortAnswers.pieces).isSome = true)
  exact ⟨_, ((reportExactly shortAnswers).1 _).mpr ⟨rfl, fits, rfl, dump, made, rfl⟩⟩

end OsLabs.ProcInfo
