import OsLabs.ReusedBuffer

/-! infoFromFile of lab_04 part1: the file comes in pieces through one buffer, every NUL
becomes a newline, and what the buffer then holds is printed as a string. -/
namespace OsLabs.ProcInfo
open CMemory ReusedBuffer

def bufSize : Nat := 2048
def pathLength : Nat := 512

def newline : Byte := 10

def textBytes (text : String) : List Byte := text.toUTF8.data.toList

def preparePrint (path : List Byte) : List Byte :=
  textBytes "\n\n\n---------------------------------                         \n   " ++ path ++
    textBytes "                         \n---------------------------------\n\n"

def unNul (b : Byte) : Byte := if b = 0 then newline else b

def replaceNuls (buf : Mem) (len : Nat) : Mem :=
  fun j => if 0 ≤ j ∧ j < len then unNul (buf j) else buf j

/- The loop over the pieces that fread delivers, each of len bytes; without a result the
string runs past the end of buf. -/
def printPieces (buf : Mem) : List (List Byte) → Option (List Byte)
  | [] => some []
  | piece :: rest =>
      let buf := replaceNuls (overlay buf piece) piece.length
      (cstring buf 0 bufSize).bind fun text => (printPieces buf rest).map (text ++ ·)

/- char buf[BUF_SIZE] = "\0". Nothing is known of the memory beside it. -/
def zeroed (outside : Mem) : Mem := memset outside 0 0 bufSize

def infoFromFile (outside : Mem) (path : List Byte) (pieces : List (List Byte)) : Option (List Byte) :=
  (printPieces (zeroed outside) pieces).map (preparePrint path ++ ·)

def Growing (pieces : List (List Byte)) : Prop :=
  (∀ piece ∈ pieces, piece.length < bufSize) ∧
    pieces.Pairwise (fun earlier later => earlier.length ≤ later.length)

instance (pieces : List (List Byte)) : Decidable (Growing pieces) := inferInstanceAs (Decidable (_ ∧ _))

theorem unNulPlain (bytes : List Byte) : (0 : Byte) ∉ bytes.map unNul := by
  intro mem
  obtain ⟨b, _, zero⟩ := List.mem_map.mp mem
  unfold unNul at zero
  split at zero
  · exact absurd zero (by decide)
  · contradiction

theorem replacedOverlay (buf : Mem) (piece : List Byte) :
    replaceNuls (overlay buf piece) piece.length = overlay buf (piece.map unNul) := by
  funext j
  unfold replaceNuls
  split
  · rename_i range
    obtain ⟨k, rfl⟩ := Int.eq_ofNat_of_zero_le range.1
    have inside : k < piece.length := by omega
    have before := heldAt (overlayHolds buf piece) inside
    have after := heldAt (overlayHolds buf (piece.map unNul)) (k := k) (by simpa using inside)
    rw [Int.zero_add] at before after
    rw [before, after, List.getElem_map]
  · rename_i beside
    by_cases low : 0 ≤ j
    · rw [overlayBehind _ (by omega), overlayBehind _ (by rw [List.length_map]; omega)]
    · exact (overlayBefore _ _ (by omega)).trans (overlayBefore _ _ (by omega)).symm

theorem printNext (buf : Mem) (piece : List Byte) (rest : List (List Byte)) :
    printPieces buf (piece :: rest) = (cstring (overlay buf (piece.map unNul)) 0 bufSize).bind
      fun text => (printPieces (overlay buf (piece.map unNul)) rest).map (text ++ ·) := by
  simp only [printPieces, replacedOverlay]

theorem pieceFilled {buf : Mem} {top : Nat} (filled : Filled buf top bufSize) (piece : List Byte) :
    Filled (overlay buf (piece.map unNul)) (max top piece.length) bufSize := by
  simpa only [List.length_map] using overlayFilled filled (unNulPlain piece)

theorem pieceText {buf : Mem} {top : Nat} (filled : Filled buf top bufSize) (small : top ≤ bufSize)
    {piece : List Byte} (short : piece.length ≤ bufSize) {text : List Byte}
    (found : cstring (overlay buf (piece.map unNul)) 0 bufSize = some text) :
    text.length = max top piece.length ∧ max top piece.length < bufSize := by
  have after := pieceFilled filled piece
  by_cases room : max top piece.length < bufSize
  · obtain ⟨other, same, length⟩ := filledText after room
    cases Option.some.inj (found.symm.trans same)
    exact ⟨length, room⟩
  · have full : max top piece.length = bufSize := by omega
    rw [full] at after
    rw [filledNone after] at found
    contradiction

theorem printGrows {buf : Mem} {top : Nat} (filled : Filled buf top bufSize) (small : top ≤ bufSize)
    {pieces : List (List Byte)} (short : ∀ piece ∈ pieces, piece.length ≤ bufSize) {out : List Byte}
    (printed : printPieces buf pieces = some out) : pieces.flatten.length ≤ out.length := by
  induction pieces generalizing buf top out with
  | nil => exact Nat.zero_le _
  | cons piece rest ih =>
    have here := short piece List.mem_cons_self
    rw [printNext] at printed
    obtain ⟨text, found, printed⟩ := Option.bind_eq_some_iff.mp printed
    obtain ⟨later, next, rfl⟩ := Option.map_eq_some_iff.mp printed
    have length := (pieceText filled small here found).1
    have tail := ih (pieceFilled filled piece) (by omega)
      (fun p mem => short p (List.mem_cons_of_mem _ mem)) next
    simp only [List.flatten_cons, List.length_append]
    omega

theorem growingCons (piece : List Byte) (rest : List (List Byte)) : Growing (piece :: rest) ↔
    piece.length < bufSize ∧ (∀ p ∈ rest, piece.length ≤ p.length) ∧ Growing rest := by
  simp only [Growing, List.forall_mem_cons, List.pairwise_cons]
  exact ⟨fun ⟨⟨room, limits⟩, first, order⟩ => ⟨room, first, limits, order⟩,
    fun ⟨room, first, limits, order⟩ => ⟨⟨room, limits⟩, first, order⟩⟩

theorem printPiecesExactly {buf : Mem} {top : Nat} (filled : Filled buf top bufSize)
    (small : top ≤ bufSize) {pieces : List (List Byte)}
    (short : ∀ piece ∈ pieces, piece.length ≤ bufSize) :
    printPieces buf pieces = some (pieces.flatten.map unNul) ↔
      (∀ piece ∈ pieces, top ≤ piece.length) ∧ Growing pieces := by
  induction pieces generalizing buf top with
  | nil => simp [printPieces, Growing]
  | cons piece rest ih =>
    have here := short piece List.mem_cons_self
    have after := pieceFilled filled piece
    have later := fun p mem => short p (List.mem_cons_of_mem piece mem)
    have same := ih after (by omega) later
    rw [List.forall_mem_cons, growingCons]
    constructor
    · intro printed
      rw [printNext, List.flatten_cons, List.map_append] at printed
      obtain ⟨text, found, printed⟩ := Option.bind_eq_some_iff.mp printed
      obtain ⟨out, next, whole⟩ := Option.map_eq_some_iff.mp printed
      obtain ⟨length, room⟩ := pieceText filled small here found
      have tail := printGrows after (by omega) later next
      have total := congrArg List.length whole
      simp only [List.length_append, List.length_map] at total
      have longest : max top piece.length = piece.length := by omega
      obtain ⟨-, rfl⟩ := List.append_inj whole (by rw [List.length_map]; omega)
      obtain ⟨above, growing⟩ := same.mp next
      rw [longest] at above room
      have start : top ≤ piece.length := by omega
      exact ⟨⟨start, fun p mem => Nat.le_trans start (above p mem)⟩, room, above, growing⟩
    · intro holds
      obtain ⟨⟨start, -⟩, room, first, growing⟩ := holds
      have longest : max top piece.length = piece.length := by omega
      have zero : buf (piece.map unNul).length = 0 :=
        filled.high _ (by rw [List.length_map]; omega) (by rw [List.length_map]; omega)
      have text := (overlayText (unNulPlain piece) (by rw [List.length_map]; exact room)).mpr zero
      have next := same.mpr ⟨by rwa [longest], growing⟩
      rw [printNext, text, next, List.flatten_cons, List.map_append]
      rfl

theorem zeroedFilled (outside : Mem) : Filled (zeroed outside) 0 bufSize :=
  ⟨fun j low high => by omega, fun j low high => if_pos ⟨by omega, by omega⟩⟩

theorem fileCopiedExactly (outside : Mem) (path content : List Byte) (pieces : List (List Byte))
    (whole : pieces.flatten = content)
    (sizes : ∀ piece ∈ pieces, 1 ≤ piece.length ∧ piece.length ≤ bufSize) :
    infoFromFile outside path pieces = some (preparePrint path ++ content.map unNul) ↔
      Growing pieces := by
  have exactly := printPiecesExactly (zeroedFilled outside) (Nat.zero_le _)
    (fun piece mem => (sizes piece mem).2)
  have start : (∀ piece ∈ pieces, 0 ≤ piece.length) ∧ Growing pieces ↔ Growing pieces :=
    and_iff_right (fun _ _ => Nat.zero_le _)
  rw [start, whole] at exactly
  rw [← exactly, infoFromFile]
  constructor
  · intro printed
    obtain ⟨out, found, same⟩ := Option.map_eq_some_iff.mp printed
    rw [found, List.append_cancel_left same]
  · intro printed
    rw [printed, Option.map_some]

def environ : List Byte := textBytes "/proc/64361/environ"

theorem risingCopied : infoFromFile (fun _ => 255) environ [[65, 0], [66, 0, 67]] =
    some (preparePrint environ ++ [65, 10, 66, 10, 67]) :=
  (fileCopiedExactly (fun _ => 255) environ [65, 0, 66, 0, 67] [[65, 0], [66, 0, 67]] rfl
    (by decide)).mpr (by decide)

theorem shorterRepeats : ¬ ∀ outside path content pieces, pieces.flatten = content →
    (∀ piece ∈ pieces, 1 ≤ piece.length ∧ piece.length ≤ bufSize) →
    infoFromFile outside path pieces = some (preparePrint path ++ content.map unNul) := by
  intro all
  have printed := all (fun _ => 0) environ [65, 66, 67] [[65, 66], [67]] rfl (by decide)
  have both : printPieces (zeroed fun _ => 0) [[65, 66], [67]] = some [65, 66, 67, 66] := by
    decide +kernel
  rw [infoFromFile, both, Option.map_some, Option.some.injEq] at printed
  exact absurd (List.append_cancel_left printed) (by decide)

end OsLabs.ProcInfo
