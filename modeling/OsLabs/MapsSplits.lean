import Mathlib.Data.List.TakeWhile
import OsLabs.MapsLine

/-! The dump and the way read cuts the maps file into pieces. Cut at line ends the pieces
make no difference; for every text that is not empty some other cut does. -/
namespace OsLabs.MapsDump
open CMemory BufferScan

variable {page : PagePower}

/- What successive calls of read return, until it returns 0. -/
structure Split (text : List Byte) where
  pieces : List (List Byte)
  filled : ∀ piece ∈ pieces, piece ≠ []
  short : ∀ piece ∈ pieces, piece.length ≤ bufSize - offset
  whole : pieces.flatten = text

def Split.AtLineEnds {text : List Byte} (a : Split text) : Prop :=
  ∀ piece ∈ a.pieces, ∃ init, piece = init ++ [newline]

theorem addStuck {o : Outcome} (stuck : o.stuck = true) (r : Range) : o.add page r = o := if_pos stuck

theorem foldStuck {o : Outcome} (stuck : o.stuck = true) (lines : List MapsLine) :
    lines.foldl (fun o l => o.add page l.range) o = o := by
  induction lines with
  | nil => rfl
  | cons l lines ih => rw [List.foldl_cons, addStuck stuck, ih]

theorem scanStuck {d : Dump} (stuck : d.out.stuck = true) (i n : Nat) : d.scan page i n = d := by
  cases n with
  | zero => rfl
  | succ n => exact if_pos stuck

theorem scanPlain {d : Dump} (runs : d.out.stuck = false) {i : Nat} (k n : Nat)
    (plain : ∀ j, i ≤ j → j < i + k → d.buffer j ≠ newline) :
    d.scan page i (k + n) = d.scan page (i + k) n := by
  induction k generalizing i with
  | zero => rw [Nat.zero_add, Nat.add_zero]
  | succ k ih =>
    have here := plain i (Nat.le_refl _) (by omega)
    have later := @ih (i + 1) (fun j above below => plain j (by omega) (by omega))
    rw [Nat.add_right_comm, Dump.scan, runs, if_neg Bool.false_ne_true, if_neg (fun both => here both.1),
      later, Nat.add_assoc, Nat.add_comm 1]

theorem sliceUpdate (buf : Buffer) (x y : Nat) (b : Byte) :
    slice (Function.update buf y b) x y = slice buf x y := by
  refine List.map_congr_left fun k mem => ?_
  have below : k < y := by
    have range := List.mem_range'_1.mp mem
    omega
  exact Function.update_of_ne (Nat.ne_of_lt below) _ _

theorem lineAdds {d : Dump} {s : Nat} (l : MapsLine) (held : HoldsAt d.buffer s l.bytes)
    (first : s = 0 ∨ ∃ p, s = p + 1 ∧ d.buffer p = newline) (fits : s + l.body.length < bufSize) :
    (d.line page (s + l.body.length)).out = d.out.add page l.range ∧
      ((d.out.add page l.range).stuck = false → (d.line page (s + l.body.length)).buffer = d.buffer) := by
  obtain ⟨low, high, y, path⟩ := parseLine l held first fits
  have name : (slice (Function.update d.buffer (parse d.buffer (s + l.body.length)).y 0)
      (parse d.buffer (s + l.body.length)).path
      (parse d.buffer (s + l.body.length)).y).takeWhile (fun c => c != 0) = l.path := by
    rw [sliceUpdate, path]
    refine List.takeWhile_eq_self_iff.mpr fun c mem => ?_
    simp only [bne_iff_ne]
    rintro rfl
    exact l.pathPlain.2.1 mem
  have ended : d.buffer (s + l.body.length) = newline := ((holdsAtAppend _ _ _ _).mp held).2.1
  have out : (d.line page (s + l.body.length)).out = d.out.add page l.range := by
    simp only [Dump.line, name, low, high, MapsLine.range]
  refine ⟨out, fun runs => ?_⟩
  rw [← out] at runs
  simp only [Dump.line] at runs ⊢
  rw [if_neg (by rw [runs]; exact Bool.false_ne_true), Function.update_idem, y, ← ended,
    Function.update_eq_self]

theorem linesScan {d : Dump} {s : Nat} (lines : List MapsLine)
    (held : HoldsAt d.buffer s (mapsText lines))
    (first : s = 0 ∨ ∃ p, s = p + 1 ∧ d.buffer p = newline)
    (fits : s + (mapsText lines).length ≤ bufSize) :
    (d.scan page s (mapsText lines).length).out = lines.foldl (fun o l => o.add page l.range) d.out ∧
      ((lines.foldl (fun o l => o.add page l.range) d.out).stuck = false →
        (d.scan page s (mapsText lines).length).buffer = d.buffer) := by
  induction lines generalizing d s with
  | nil => exact ⟨rfl, fun _ => rfl⟩
  | cons l lines ih =>
    rw [mapsText, List.flatMap_cons] at held fits
    obtain ⟨here, later⟩ := (holdsAtAppend _ _ _ _).mp held
    have length : (mapsText (l :: lines)).length = l.body.length + ((mapsText lines).length + 1) := by
      simp only [mapsText, List.flatMap_cons, List.length_append, MapsLine.bytes, List.length_cons,
        List.length_nil]
      omega
    simp only [List.length_append, MapsLine.bytes, List.length_cons, List.length_nil] at fits later
    rw [List.foldl_cons]
    cases before : d.out.stuck with
    | true =>
      rw [scanStuck before, addStuck before, foldStuck before]
      exact ⟨rfl, fun _ => rfl⟩
    | false =>
      obtain ⟨out, buffer⟩ := lineAdds l here first (by omega)
      have body := ((holdsAtAppend _ _ _ _).mp here).1
      have ended : d.buffer (s + l.body.length) = newline := ((holdsAtAppend _ _ _ _).mp here).2.1
      have positive := List.length_pos_iff.mpr (bodyFilled l)
      have moves : d.scan page s (mapsText (l :: lines)).length =
          (d.line page (s + l.body.length)).scan page (s + l.body.length + 1) (mapsText lines).length := by
        rw [length, scanPlain before _ _ fun j above below => plainInside body (bodyPlain l) above below,
          Dump.scan, before, if_neg Bool.false_ne_true, if_pos ⟨ended, by omega⟩]
      rw [moves, ← out]
      cases after : (d.out.add page l.range).stuck with
      | true =>
        rw [← out] at after
        rw [scanStuck after, foldStuck after]
        exact ⟨rfl, fun runs => absurd (after.symm.trans runs) (by decide)⟩
      | false =>
        have same := buffer after
        rw [← same]
        refine ih ?_ (.inr ⟨s + l.body.length, rfl, by rw [same]; exact ended⟩) ?_
        · rw [same]
          exact later
        · unfold mapsText
          omega

theorem readLines (d : Dump) (lines : List MapsLine) (fits : (mapsText lines).length ≤ bufSize) :
    (d.read page (mapsText lines)).out = lines.foldl (fun o l => o.add page l.range) d.out ∧
      ((lines.foldl (fun o l => o.add page l.range) d.out).stuck = false →
        (d.read page (mapsText lines)).buffer = fill d.buffer offset (mapsText lines)) := by
  unfold Dump.read
  split
  · rename_i stuck
    rw [foldStuck stuck]
    exact ⟨rfl, fun runs => absurd (stuck.symm.trans runs) (by decide)⟩
  · exact linesScan lines (fillHolds _ _ _) (.inl rfl) (by simpa [offset] using fits)

theorem groupsRead (d : Dump) (groups : List (List MapsLine))
    (fits : ∀ group ∈ groups, (mapsText group).length ≤ bufSize) :
    ((groups.map mapsText).foldl (Dump.read page) d).out =
        groups.flatten.foldl (fun o l => o.add page l.range) d.out ∧
      ((groups.flatten.foldl (fun o l => o.add page l.range) d.out).stuck = false →
        ((groups.map mapsText).foldl (Dump.read page) d).buffer =
          (groups.map mapsText).foldl (fun buf piece => fill buf offset piece) d.buffer) := by
  induction groups generalizing d with
  | nil => exact ⟨rfl, fun _ => rfl⟩
  | cons group groups ih =>
    obtain ⟨out, buffer⟩ := readLines d group (fits group List.mem_cons_self)
    obtain ⟨outs, buffers⟩ := ih (d.read page (mapsText group)) (fun g mem => fits g (List.mem_cons_of_mem _ mem))
    rw [List.map_cons, List.foldl_cons, List.foldl_cons, List.flatten_cons, List.foldl_append, ← out]
    refine ⟨outs, fun runs => ?_⟩
    have first : (group.foldl (fun o l => o.add page l.range) d.out).stuck = false := by
      rw [← out]
      by_contra stuck
      rw [foldStuck (by simpa using stuck)] at runs
      exact stuck runs
    rw [buffers runs, buffer first]

theorem lineEndsOutcome (stack : Buffer) {lines : List MapsLine} (a : Split (mapsText lines))
    (ends : a.AtLineEnds) :
    fprintPagemap page stack a.pieces = lines.foldl (fun o l => o.add page l.range) ⟨[], [], false⟩ ∧
      ((lines.foldl (fun (o : Outcome) l => o.add page l.range) ⟨[], [], false⟩).stuck = false →
        (a.pieces.foldl (Dump.read page) ⟨stack, ⟨[], [], false⟩⟩).buffer =
          a.pieces.foldl (fun buf piece => fill buf offset piece) stack) := by
  obtain ⟨groups, rfl, pieces⟩ := piecesAreLines bodyPlain a.whole ends
  have short := a.short
  rw [pieces] at short
  unfold fprintPagemap
  rw [pieces]
  exact groupsRead _ groups fun group mem => short _ (List.mem_map_of_mem mem)

theorem singlesRead (d : Dump) (bytes : List Byte) :
    ((bytes.map fun b => [b]).foldl (Dump.read page) d).out = d.out := by
  induction bytes generalizing d with
  | nil => rfl
  | cons b bytes ih =>
    rw [List.map_cons, List.foldl_cons, ih]
    unfold Dump.read
    split
    · rfl
    · rename_i runs
      simp [Dump.scan, offset, runs]

theorem addRanges {o : Outcome} (runs : o.stuck = false) (r : Range) :
    (o.add page r).ranges = o.ranges ++ [r] := by
  unfold Outcome.add
  rw [if_neg (by rw [runs]; exact Bool.false_ne_true)]
  split <;> rfl

theorem pairRead {d : Dump} (runs : d.out.stuck = false) (c : Byte) :
    (d.read page [c, newline]).out.ranges ≠ [] := by
  have second : fill d.buffer 0 [c, newline] 1 = newline := (fillHolds d.buffer 0 [c, newline]).2.1
  have added : (d.read page [c, newline]).out =
      (Dump.line page ⟨fill d.buffer offset [c, newline], d.out⟩ 1).out := by
    simp [Dump.read, Dump.scan, offset, runs, second]
  rw [added]
  simp only [Dump.line, addRanges runs]
  exact List.append_ne_nil_of_right_ne_nil _ (List.cons_ne_nil _ _)

theorem splitsDisagree (page : PagePower) (stack : Buffer) {lines : List MapsLine} (filled : lines ≠ []) :
    ∃ a b : Split (mapsText lines),
      (fprintPagemap page stack a.pieces).ranges ≠ (fprintPagemap page stack b.pieces).ranges := by
  obtain ⟨front, c, text⟩ : ∃ front c, mapsText lines = front ++ [c, newline] := by
    obtain rfl | ⟨init, l, rfl⟩ := List.eq_nil_or_concat lines
    · exact absurd rfl filled
    · obtain same | ⟨body, c, same⟩ := List.eq_nil_or_concat l.body
      · exact absurd same (bodyFilled l)
      · refine ⟨mapsText init ++ body, c, ?_⟩
        simp [mapsText, MapsLine.bytes, same]
  have room : 2 ≤ bufSize - offset := by decide
  have flat : ∀ bytes : List Byte, (bytes.map fun b => [b]).flatten = bytes := by
    intro bytes
    induction bytes with
    | nil => rfl
    | cons b bytes ih => rw [List.map_cons, List.flatten_cons, ih]; rfl
  refine ⟨⟨(front ++ [c, newline]).map (fun b => [b]), ?_, ?_, ?_⟩,
    ⟨front.map (fun b => [b]) ++ [[c, newline]], ?_, ?_, ?_⟩, ?_⟩
  · intro piece mem
    obtain ⟨b, -, rfl⟩ := List.mem_map.mp mem
    exact List.cons_ne_nil _ _
  · intro piece mem
    obtain ⟨b, -, rfl⟩ := List.mem_map.mp mem
    exact Nat.le_of_succ_le room
  · rw [flat, text]
  · intro piece mem
    rcases List.mem_append.mp mem with single | last
    · obtain ⟨b, -, rfl⟩ := List.mem_map.mp single
      exact List.cons_ne_nil _ _
    · rw [List.mem_singleton.mp last]
      exact List.cons_ne_nil _ _
  · intro piece mem
    rcases List.mem_append.mp mem with single | last
    · obtain ⟨b, -, rfl⟩ := List.mem_map.mp single
      exact Nat.le_of_succ_le room
    · rw [List.mem_singleton.mp last]
      exact room
  · rw [List.flatten_append, flat, text, List.flatten_cons, List.flatten_nil, List.append_nil]
  · have nothing : (fprintPagemap page stack ((front ++ [c, newline]).map fun b => [b])).ranges = [] :=
      congrArg Outcome.ranges (singlesRead _ _)
    rw [nothing]
    unfold fprintPagemap
    rw [List.foldl_append, List.foldl_cons, List.foldl_nil]
    have before := @singlesRead page ⟨stack, ⟨[], [], false⟩⟩ front
    exact (pairRead (by rw [before]) c).symm

theorem piecesMatterExactly (page : PagePower) (stack : Buffer) (lines : List MapsLine) :
    ((∀ a b : Split (mapsText lines),
        (fprintPagemap page stack a.pieces).ranges = (fprintPagemap page stack b.pieces).ranges) ↔ lines = []) ∧
      ∀ (other : Buffer) (a b : Split (mapsText lines)), a.AtLineEnds → b.AtLineEnds →
        fprintPagemap page stack a.pieces = fprintPagemap page other b.pieces := by
  refine ⟨⟨fun agree => ?_, fun empty a b => ?_⟩, fun other a b left right => ?_⟩
  · by_contra filled
    obtain ⟨a, b, apart⟩ := splitsDisagree page stack filled
    exact apart (agree a b)
  · have nothing : ∀ c : Split (mapsText lines), c.pieces = [] := by
      intro c
      cases pieces : c.pieces with
      | nil => rfl
      | cons piece rest =>
        have whole := c.whole
        rw [pieces, empty, List.flatten_cons] at whole
        have filled := c.filled piece (by rw [pieces]; exact List.mem_cons_self)
        exact absurd (List.append_eq_nil_iff.mp whole).1 filled
    rw [nothing a, nothing b]
  · rw [(lineEndsOutcome stack a left).1, (lineEndsOutcome other b right).1]

/- 00400000-00401000 r-xp 00000000 08:02 11 /bin/a
   00601000-00602000 rw-p 00000000 00:00 0 -/
def lineA : MapsLine :=
  ⟨[48, 48, 52, 48, 48, 48, 48, 48], [48, 48, 52, 48, 49, 48, 48, 48],
    [114, 45, 120, 112], [48, 48, 48, 48, 48, 48, 48, 48], [48, 56, 58, 48, 50], [49, 49], 0,
    [47, 98, 105, 110, 47, 97], by decide +kernel, by decide +kernel, by decide, by decide⟩
def lineB : MapsLine :=
  ⟨[48, 48, 54, 48, 49, 48, 48, 48], [48, 48, 54, 48, 50, 48, 48, 48],
    [114, 119, 45, 112], [48, 48, 48, 48, 48, 48, 48, 48], [48, 48, 58, 48, 48], [48], 0,
    [], by decide +kernel, by decide +kernel, by decide, by decide⟩

def together : Split (mapsText [lineA, lineB]) :=
  ⟨[lineA.bytes ++ lineB.bytes], by decide, by decide, by decide⟩
def oneByOne : Split (mapsText [lineA, lineB]) :=
  ⟨[lineA.bytes, lineB.bytes], by decide, by decide, by decide⟩

theorem lineEndsAgree :
    fprintPagemap .x86 (fun _ => 0) together.pieces = fprintPagemap .x86 (fun _ => 255) oneByOne.pieces := by
  refine (piecesMatterExactly .x86 (fun _ => 0) [lineA, lineB]).2 (fun _ => 255) together oneByOne ?_ ?_
  · intro piece mem
    cases List.mem_singleton.mp mem
    exact ⟨lineA.bytes ++ lineB.body, by decide⟩
  · intro piece mem
    rcases List.mem_cons.mp mem with rfl | last
    · exact ⟨lineA.body, rfl⟩
    · cases List.mem_singleton.mp last
      exact ⟨lineB.body, rfl⟩

def insideAddress : Split (mapsText [lineA]) :=
  ⟨[lineA.bytes.take 4, lineA.bytes.drop 4], by decide, by decide, by decide⟩
def uncut : Split (mapsText [lineA]) := ⟨[lineA.bytes], by decide, by decide, by decide⟩

theorem cutInsideAddress : ¬ ∀ page stack lines (a b : Split (mapsText lines)),
    (fprintPagemap page stack a.pieces).ranges = (fprintPagemap page stack b.pieces).ranges := by
  intro agree
  have same := agree .x86 (fun _ => 0) [lineA] uncut insideAddress
  have whole : (fprintPagemap .x86 (fun _ => 0) uncut.pieces).ranges =
      [⟨0x400000, 0x401000, lineA.path⟩] := by
    decide +kernel
  have cut : (fprintPagemap .x86 (fun _ => 0) insideAddress.pieces).ranges =
      [⟨0, 0x401000, lineA.path⟩] := by
    decide +kernel
  rw [whole, cut] at same
  exact absurd same (by decide)

end OsLabs.MapsDump
