import Mathlib.Data.List.Forall2
import OsLabs.InfoFromFile

/-! infoProcessFromFolderLink of lab_04 part1. One array takes the targets of all links;
readlink puts no NUL behind them, and what it does not reach stays. -/
namespace OsLabs.ProcInfo
open CMemory ReusedBuffer

structure Entry where
  name : List Byte
  target : Option (List Byte)
  deriving DecidableEq, Repr

def Entry.listed (e : Entry) : Bool := e.name ≠ textBytes "." ∧ e.name ≠ textBytes ".."

def readlink (m : Mem) (size : Nat) : Option (List Byte) → Mem
  | some target => overlay m (target.take size)
  | none => m

/- "\x7b%4s\x7d -- %s\n" -/
def linkLine (name text : List Byte) : List Byte :=
  textBytes "\x7b" ++ (List.replicate (4 - name.length) 32 ++ name) ++ textBytes "\x7d -- " ++ text ++
    [newline]

/- The lines of the entries; a line is missing when its %s runs past the array. -/
def printLinks (string : Mem) : List Entry → List (Option (List Byte))
  | [] => []
  | e :: rest =>
      if e.listed then
        let string := readlink string pathLength e.target
        (cstring string 0 pathLength).map (linkLine e.name) :: printLinks string rest
      else printLinks string rest

/- The array starts with what is on the stack. -/
def infoProcessFromFolderLink (stack : Mem) (path : List Byte) (entries : List Entry) :
    List (Option (List Byte)) := some (preparePrint path) :: printLinks stack entries

def ShowsOwn (all : List Entry) (e : Entry) (line : Option (List Byte)) : Prop :=
  match e.target with
  | some target => line = some (linkLine e.name target)
  | none => ∃ text, line = some (linkLine e.name text) ∧ ∀ other ∈ all, other.target ≠ some text

def Ready (all : List Entry) (m : Mem) (e : Entry) : Prop :=
  match e.target with
  | some target => m target.length = 0
  | none => ∃ text, cstring m 0 pathLength = some text ∧ ∀ other ∈ all, other.target ≠ some text

def Follows (earlier later : Entry) : Prop :=
  ∀ s ∈ earlier.target, ∃ t ∈ later.target, s.length ≤ t.length

def Entry.Proper (e : Entry) : Prop := ∀ t ∈ e.target, 0 ∉ t ∧ t.length < pathLength

instance (e : Entry) : Decidable e.Proper :=
  decidable_of_iff (∀ t ∈ e.target.toList, 0 ∉ t ∧ t.length < pathLength) (by simp [Entry.Proper])

instance (earlier later : Entry) : Decidable (Follows earlier later) :=
  decidable_of_iff (∀ s ∈ earlier.target.toList, ∃ t ∈ later.target.toList, s.length ≤ t.length)
    (by simp [Follows])

theorem linkLineInjective (name : List Byte) {left right : List Byte}
    (same : linkLine name left = linkLine name right) : left = right := by
  unfold linkLine at same
  exact List.append_cancel_left (List.append_cancel_right same)

theorem printListed (m : Mem) (entries : List Entry) :
    printLinks m entries = printLinks m (entries.filter Entry.listed) := by
  induction entries generalizing m with
  | nil => rfl
  | cons e rest ih =>
    by_cases listed : e.listed
    · rw [List.filter_cons_of_pos listed]
      simp only [printLinks, if_pos listed, ih (readlink m pathLength e.target)]
    · rw [List.filter_cons_of_neg listed, printLinks, if_neg listed, ih m]

theorem printEntry (m : Mem) {e : Entry} (listed : e.listed = true) (rest : List Entry) :
    printLinks m (e :: rest) = (cstring (readlink m pathLength e.target) 0 pathLength).map (linkLine e.name)
      :: printLinks (readlink m pathLength e.target) rest := by
  simp only [printLinks, if_pos listed]

theorem readlinkRead (m : Mem) {t : List Byte} (short : t.length < pathLength) :
    readlink m pathLength (some t) = overlay m t := by
  rw [readlink, List.take_of_length_le (Nat.le_of_lt short)]

theorem showsOwnExactly (all : List Entry) (m : Mem) {e : Entry} (proper : e.Proper) :
    ShowsOwn all e ((cstring (readlink m pathLength e.target) 0 pathLength).map (linkLine e.name)) ↔
      Ready all m e := by
  unfold ShowsOwn Ready
  cases target : e.target with
  | none =>
    constructor
    · intro shown
      obtain ⟨text, line, nobody⟩ := shown
      obtain ⟨found, here, same⟩ := Option.map_eq_some_iff.mp line
      exact ⟨text, by rw [← linkLineInjective e.name same]; exact here, nobody⟩
    · intro ready
      obtain ⟨text, found, nobody⟩ := ready
      have here : cstring (readlink m pathLength none) 0 pathLength = some text := found
      exact ⟨text, by rw [here, Option.map_some], nobody⟩
  | some t =>
    obtain ⟨clean, short⟩ := proper t target
    simp only
    rw [readlinkRead m short, ← overlayText clean short]
    constructor
    · intro line
      obtain ⟨found, here, same⟩ := Option.map_eq_some_iff.mp line
      rwa [linkLineInjective e.name same] at here
    · intro found
      rw [found, Option.map_some]

theorem readyAfter {all : List Entry} {m : Mem} {e later : Entry} {t : List Byte} (member : e ∈ all)
    (target : e.target = some t) (proper : e.Proper) (ready : Ready all m e) :
    Ready all (readlink m pathLength (some t)) later ↔
      (∃ u ∈ later.target, t.length ≤ u.length) ∧ Ready all m later := by
  obtain ⟨clean, short⟩ := proper t target
  have zero : m t.length = 0 := by simpa only [Ready, target] using ready
  have shown := (overlayText clean short).mpr zero
  rw [readlinkRead m short]
  unfold Ready
  cases next : later.target with
  | none =>
    constructor
    · intro later
      obtain ⟨text, found, nobody⟩ := later
      rw [shown] at found
      exact absurd (target.trans found) (nobody e member)
    · intro both
      obtain ⟨⟨u, absent, _⟩, _⟩ := both
      contradiction
  | some u =>
    simp only [Option.mem_some_iff, exists_eq_left']
    by_cases longer : t.length ≤ u.length
    · rw [overlayBehind m (Int.ofNat_le.mpr longer)]
      exact (and_iff_right longer).symm
    · have inside : (u.length : Int) < t.length := by omega
      have nonzero := overlayPlain m clean (Int.natCast_nonneg _) inside
      exact ⟨fun zero => absurd zero nonzero, fun both => absurd both.1 longer⟩

theorem linksOwnExactly (all : List Entry) (m : Mem) {entries : List Entry}
    (part : ∀ e ∈ entries, e ∈ all) (listed : ∀ e ∈ entries, e.listed = true)
    (proper : ∀ e ∈ entries, e.Proper) :
    List.Forall₂ (ShowsOwn all) entries (printLinks m entries) ↔
      entries.Pairwise Follows ∧ ∀ e ∈ entries, Ready all m e := by
  induction entries generalizing m with
  | nil => simp [printLinks]
  | cons e rest ih =>
    have own := showsOwnExactly all m (proper e List.mem_cons_self)
    have later := ih (readlink m pathLength e.target) (fun x mem => part x (List.mem_cons_of_mem _ mem))
      (fun x mem => listed x (List.mem_cons_of_mem _ mem))
      (fun x mem => proper x (List.mem_cons_of_mem _ mem))
    rw [printEntry m (listed e List.mem_cons_self), List.forall₂_cons, own, later, List.pairwise_cons,
      List.forall_mem_cons]
    cases target : e.target with
    | none =>
      have first : ∀ x ∈ rest, Follows e x := by
        intro x _ s leads
        rw [target] at leads
        contradiction
      simp only [readlink]
      tauto
    | some t =>
      have follows : ∀ x, Follows e x ↔ ∃ u ∈ x.target, t.length ≤ u.length := by
        simp [Follows, target]
      have after : Ready all m e → ∀ x, (Ready all (readlink m pathLength (some t)) x ↔
          Follows e x ∧ Ready all m x) := by
        intro ready x
        rw [follows]
        exact readyAfter (part e List.mem_cons_self) target (proper e List.mem_cons_self) ready
      constructor
      · intro both
        obtain ⟨ready, order, rest⟩ := both
        have both := fun x mem => (after ready x).mp (rest x mem)
        exact ⟨⟨fun x mem => (both x mem).1, order⟩, ready, fun x mem => (both x mem).2⟩
      · intro both
        obtain ⟨⟨first, order⟩, ready, rest⟩ := both
        exact ⟨ready, order, fun x mem => (after ready x).mpr ⟨first x mem, rest x mem⟩⟩

theorem linksShownExactly (stack : Mem) (path : List Byte) (entries : List Entry)
    (proper : ∀ e ∈ entries, e.Proper) :
    List.Forall₂ (ShowsOwn (entries.filter Entry.listed)) (entries.filter Entry.listed)
        (infoProcessFromFolderLink stack path entries).tail ↔
      (entries.filter Entry.listed).Pairwise Follows ∧
        ∀ e ∈ entries.filter Entry.listed, Ready (entries.filter Entry.listed) stack e := by
  have lines : (infoProcessFromFolderLink stack path entries).tail =
      printLinks stack (entries.filter Entry.listed) := printListed stack entries
  rw [lines]
  exact linksOwnExactly _ stack (fun _ mem => mem) (fun e mem => (List.mem_filter.mp mem).2)
    (fun e mem => proper e (List.mem_filter.mp mem).1)

def linkA : Entry := ⟨[48], some [47, 97]⟩
def linkAB : Entry := ⟨[49], some [47, 97, 98]⟩
def linkFails : Entry := ⟨[50], none⟩
def dot : Entry := ⟨textBytes ".", none⟩

def fdPath : List Byte := textBytes "/proc/64361/fd"

theorem growingShown : List.Forall₂ (ShowsOwn [linkFails, linkA, linkAB]) [linkFails, linkA, linkAB]
    (infoProcessFromFolderLink (fun _ => 0) fdPath [dot, linkFails, linkA, linkAB]).tail := by
  have exactly := linksShownExactly (fun _ => 0) fdPath [dot, linkFails, linkA, linkAB] (by decide)
  have listed : [dot, linkFails, linkA, linkAB].filter Entry.listed = [linkFails, linkA, linkAB] := by
    decide +kernel
  rw [listed] at exactly
  refine exactly.mpr ⟨by decide, ?_⟩
  simp only [List.forall_mem_cons]
  exact ⟨⟨[], rfl, by decide⟩, rfl, rfl, by simp⟩

theorem shorterShowsOther :
    (¬ ∀ stack path (entries : List Entry), (∀ e ∈ entries, e.Proper) →
      (∀ e ∈ entries, e.target ≠ none) →
      List.Forall₂ (ShowsOwn (entries.filter Entry.listed)) (entries.filter Entry.listed)
        (infoProcessFromFolderLink stack path entries).tail) ∧
    ¬ ∀ stack path (entries : List Entry), (∀ e ∈ entries, e.Proper) →
      entries.Pairwise (fun a b => ∀ s ∈ a.target, ∀ t ∈ b.target, s.length ≤ t.length) →
      List.Forall₂ (ShowsOwn (entries.filter Entry.listed)) (entries.filter Entry.listed)
        (infoProcessFromFolderLink stack path entries).tail := by
  have both : [linkAB, linkA].filter Entry.listed = [linkAB, linkA] ∧
      [linkA, linkFails].filter Entry.listed = [linkA, linkFails] := by decide +kernel
  constructor
  · intro all
    have lines := all (fun _ => 0) fdPath [linkAB, linkA] (by decide) (by decide)
    have shown : (infoProcessFromFolderLink (fun _ => 0) fdPath [linkAB, linkA]).tail =
        [some (linkLine linkAB.name [47, 97, 98]), some (linkLine linkA.name [47, 97, 98])] := by
      decide +kernel
    rw [both.1, shown] at lines
    cases lines with
    | cons _ tail =>
      cases tail with
      | cons own _ =>
        exact absurd (linkLineInjective _ (Option.some.inj own)) (by decide)
  · intro all
    have lines := all (fun _ => 0) fdPath [linkA, linkFails] (by decide) (by simp [linkA, linkFails])
    have shown : (infoProcessFromFolderLink (fun _ => 0) fdPath [linkA, linkFails]).tail =
        [some (linkLine linkA.name [47, 97]), some (linkLine linkFails.name [47, 97])] := by
      decide +kernel
    rw [both.2, shown] at lines
    cases lines with
    | cons _ tail =>
      cases tail with
      | cons own _ =>
        obtain ⟨text, line, nobody⟩ := own
        have same := linkLineInjective _ (Option.some.inj line)
        exact nobody linkA (by simp) (by rw [← same]; rfl)

end OsLabs.ProcInfo
