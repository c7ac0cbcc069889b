import OsLabs.MapsBlocks

/-! The indices of the buffer that the dump reads and writes at each line. They stay inside
the piece just read exactly when the line does, as far as its fields go. Between the lines
only buffer[i] is looked at, with i below the length of the piece. -/
namespace OsLabs.MapsDump
open CMemory BufferScan

variable {page : PagePower}

def hexReads (buf : Buffer) (stop : Byte) : Nat → Nat → List Nat
  | 0, x => [x]
  | room + 1, x =>
      x :: if buf x = stop then []
        else match hexDigit (buf x) with
          | some _ => hexReads buf stop room (x + 1)
          | none => []

def seekInReads (buf : Buffer) (stop : Byte → Bool) (x : Nat) : List Nat :=
  seekReads buf stop (bufSize - x) x

def fieldReads (buf : Buffer) : Nat → Nat → List Nat
  | 0, _ => []
  | n + 1, x => seekInReads buf (fun c => c == space) (x + 1) ++ fieldReads buf n (nextField buf x)

def Block.reads (b : Block) : List Nat :=
  let p := parse b.buffer b.index
  b.index :: seekBackReads b.buffer newline (b.index - 1) ++
    p.back :: hexReads b.buffer dash (bufSize - p.start) p.start ++
    seekInReads b.buffer (fun c => c == dash) p.lowEnd ++
    p.separator :: hexReads b.buffer space (bufSize - p.highStart) p.highStart ++
    fieldReads b.buffer 4 p.highEnd ++ seekInReads b.buffer (fun c => c != space) p.fields ++
    seekInReads b.buffer (fun c => c == newline) p.path

def Block.writes (b : Block) : List Nat :=
  [(parse b.buffer b.index).y, (parse b.buffer b.index).y]

def Block.Within (b : Block) : Prop :=
  (∀ j ∈ b.reads ++ b.writes, j < bufSize) ∧ ∀ j ∈ b.reads, j < b.piece.length

def field (bytes : List Byte) : List Byte := bytes.tail.dropWhile fun c => c != space

def Block.Contained (b : Block) : Prop :=
  newline ∈ Nat.iterate field 4 (afterHex space (afterDash (b.piece.drop b.start)))

instance (b : Block) : Decidable b.Contained := inferInstanceAs (Decidable (_ ∈ _))

theorem hexReadsTo {buf : Buffer} {stop : Byte} {room x value j : Nat}
    (read : j ∈ hexReads buf stop room x) :
    j ≤ (hexScan buf stop room x value).1 := by
  induction room generalizing x value with
  | zero => exact Nat.le_of_eq (List.mem_singleton.mp read)
  | succ room ih =>
    rcases List.mem_cons.mp read with rfl | later
    · exact hexFrom buf stop _ _ _
    · by_cases here : buf x = stop
      · rw [if_pos here] at later
        contradiction
      · rw [if_neg here] at later
        rw [hexScan, if_neg here]
        cases digit : hexDigit (buf x) with
        | none =>
          rw [digit] at later
          contradiction
        | some d =>
          rw [digit] at later
          exact ih later

theorem seekInFrom (buf : Buffer) (stop : Byte → Bool) (x : Nat) : x ≤ seekIn buf stop x :=
  seekFrom buf stop _ x

theorem nextFieldFrom (buf : Buffer) (n x : Nat) : x ≤ Nat.iterate (nextField buf) n x := by
  induction n generalizing x with
  | zero => exact Nat.le_refl _
  | succ n ih =>
    have here := seekInFrom buf (fun c => c == space) (x + 1)
    exact Nat.le_trans (Nat.le_trans (Nat.le_succ x) here) (ih _)

theorem fieldReadsTo {buf : Buffer} {n x j : Nat} (read : j ∈ fieldReads buf n x) :
    j ≤ Nat.iterate (nextField buf) n x := by
  induction n generalizing x with
  | zero => cases read
  | succ n ih =>
    rcases List.mem_append.mp read with here | later
    · exact Nat.le_trans (seekReadsTo here) (nextFieldFrom buf n _)
    · exact ih later

theorem fieldRest (buf : Buffer) (n x : Nat) {m : Nat} (short : m ≤ bufSize) :
    slice buf (Nat.iterate (nextField buf) n x) m = Nat.iterate field n (slice buf x m) := by
  induction n generalizing x with
  | zero => rfl
  | succ n ih =>
    have here : slice buf (nextField buf x) m = field (slice buf x m) := by
      rw [nextField, seekInRest buf _ short, field, sliceTail]
      rfl
    rw [Function.iterate_succ_apply, Function.iterate_succ_apply, ih, here]

theorem parseOrder (buf : Buffer) (i : Nat) :
    (parse buf i).start ≤ (parse buf i).lowEnd ∧ (parse buf i).lowEnd ≤ (parse buf i).separator ∧
      (parse buf i).separator ≤ (parse buf i).highStart ∧
      (parse buf i).highStart ≤ (parse buf i).highEnd ∧ (parse buf i).highEnd ≤ (parse buf i).fields ∧
      (parse buf i).fields ≤ (parse buf i).path ∧ (parse buf i).path ≤ (parse buf i).y := by
  refine ⟨?_, ?_, ?_, ?_, ?_, ?_, ?_⟩
  · rw [parseLowEnd]
    exact hexFrom _ _ _ _ _
  · rw [parseSeparator]
    exact seekInFrom _ _ _
  · rw [parseHighStart]
    split
    · exact Nat.le_succ _
    · exact Nat.le_refl _
  · rw [parseHighEnd]
    exact hexFrom _ _ _ _ _
  · rw [parseFields]
    exact nextFieldFrom buf 4 _
  · rw [parsePath]
    exact seekInFrom _ _ _
  · rw [parseY]
    exact seekInFrom _ _ _

theorem readsTo {b : Block} {j : Nat} (read : j ∈ b.reads) :
    j ≤ b.index ∨ j ≤ (parse b.buffer b.index).y := by
  obtain ⟨low, separator, highStart, high, fields, path, y⟩ := parseOrder b.buffer b.index
  have back : (parse b.buffer b.index).back ≤ b.index := by
    rw [parseBack]
    exact Nat.le_trans (seekBackBelow _ _ _) (Nat.sub_le _ _)
  simp only [Block.reads, List.cons_append, List.append_assoc, List.mem_cons, List.mem_append] at read
  rcases read with rfl | before | rfl | digits | dashes | rfl | digits | words | spaces | bytes
  · exact .inl (Nat.le_refl _)
  · exact .inl (Nat.le_trans (seekBackReadsBelow before) (Nat.sub_le _ _))
  · exact .inl back
  · have stop := @hexReadsTo _ _ _ _ 0 _ digits
    rw [← parseLowEnd] at stop
    exact .inr (by omega)
  · have stop := seekReadsTo dashes
    rw [← seekIn, ← parseSeparator] at stop
    exact .inr (by omega)
  · exact .inr (by omega)
  · have stop := @hexReadsTo _ _ _ _ 0 _ digits
    rw [← parseHighEnd] at stop
    exact .inr (by omega)
  · have stop : j ≤ (parse b.buffer b.index).fields := by
      rw [parseFields]
      exact fieldReadsTo words
    exact .inr (by omega)
  · have stop := seekReadsTo spaces
    rw [← seekIn, ← parsePath] at stop
    exact .inr (by omega)
  · have stop := seekReadsTo bytes
    rw [← seekIn, ← parseY] at stop
    exact .inr stop

theorem withinEnd {b : Block} (entry : b.Entered) (short : b.piece.length ≤ bufSize) :
    b.Within ↔ (parse b.buffer b.index).y < b.piece.length := by
  have last : (parse b.buffer b.index).y ∈ b.reads := by
    refine List.mem_append_right _ ?_
    rw [parseY]
    exact seekReadsLast _ _ _ _
  constructor
  · intro within
    obtain ⟨-, inside⟩ := within
    exact inside _ last
  · intro inside
    have reads : ∀ j ∈ b.reads, j < b.piece.length := by
      intro j read
      have index := entry.inside
      rcases readsTo read with before | before
      · omega
      · omega
    refine ⟨fun j access => ?_, reads⟩
    rcases List.mem_append.mp access with read | write
    · exact Nat.lt_of_lt_of_le (reads j read) short
    · have here : j = (parse b.buffer b.index).y := by simpa [Block.writes] using write
      omega

theorem newlineSpaces (bytes : List Byte) :
    newline ∈ bytes.dropWhile (fun c => !(c != space)) ↔ newline ∈ bytes := by
  induction bytes with
  | nil => rfl
  | cons c rest ih =>
    by_cases here : c = space
    · have passed : (!(c != space)) = true := by simp [here]
      have other : newline ≠ c := by
        rw [here]
        decide
      rw [List.dropWhile_cons, if_pos passed, ih, List.mem_cons]
      simp [other]
    · have stops : ¬ (!(c != space)) = true := by simp [here]
      rw [List.dropWhile_cons, if_neg stops]

theorem withinExactly {b : Block} (entry : b.Entered) (short : b.piece.length ≤ bufSize) :
    b.Within ↔ b.Contained := by
  have start := (entryStart entry).1
  have line := (sliceHeld entry.held (Nat.le_trans (Nat.sub_le _ _) (Nat.le_of_lt entry.inside) :
    b.start ≤ b.piece.length)).2
  have fields : slice b.buffer (parse b.buffer b.index).fields b.piece.length =
      Nat.iterate field 4 (afterHex space (afterDash (b.piece.drop b.start))) := by
    rw [parseFields, fieldRest b.buffer 4 _ short, parseHighEnd, hexScanRest (by decide) 0 (by omega),
      highStartRest _ _ short, start, line]
  rw [withinEnd entry short, parseY, seekIn, seekBelow _ _ (by omega), parsePath,
    seekInRest _ _ short, fields]
  simp only [beq_iff_eq, exists_eq_right]
  exact newlineSpaces _

section Lines

theorem fieldWord {word : List Byte} (plain : space ∉ word) (rest : List Byte) :
    field (space :: (word ++ (space :: rest))) = space :: rest := by
  have passed : ∀ c ∈ word, (c != space) = true :=
    fun c mem => bne_iff_ne.mpr fun same => plain (same ▸ mem)
  rw [field, List.tail_cons, List.dropWhile_append_of_pos passed]
  rfl

theorem lineContained (l : MapsLine) (more : List Byte) :
    newline ∈ Nat.iterate field 4 (afterHex space (afterDash (l.bytes ++ more))) := by
  have words := l.words
  simp only [List.mem_cons, List.not_mem_nil, or_false, forall_eq_or_imp, forall_eq] at words
  obtain ⟨⟨-, perms, -⟩, ⟨-, offset, -⟩, ⟨-, dev, -⟩, ⟨-, inode, -⟩⟩ := words
  obtain ⟨behind, same⟩ : ∃ behind, behind =
    List.replicate l.gap space ++ (l.path ++ newline :: more) := ⟨_, rfl⟩
  have whole : l.bytes ++ more = l.low ++ dash :: (l.high ++ space :: (l.perms ++ space ::
      (l.offset ++ space :: (l.dev ++ space :: (l.inode ++ space :: behind))))) := by
    simp [same, MapsLine.bytes, MapsLine.body, MapsLine.rest, MapsLine.tail, List.replicate_succ]
  have low : ∀ c ∈ l.low, (c != dash) = true :=
    fun c mem => bne_iff_ne.mpr (hexPlain (l.lowHex.2 c mem)).1
  have afterLow : ∀ rest, afterDash (l.low ++ (dash :: rest)) = rest := by
    intro rest
    rw [afterDash, List.dropWhile_append_of_pos low]
    rfl
  have high : ∀ c ∈ l.high, isHex c = true := l.highHex.2
  have afterHigh : ∀ rest, afterHex space (l.high ++ (space :: rest)) = space :: rest := by
    intro rest
    rw [afterHex, List.dropWhile_append_of_pos high]
    rfl
  rw [whole, afterLow, afterHigh, iterateFour, fieldWord perms, fieldWord offset, fieldWord dev,
    fieldWord inode, same]
  simp

theorem lineAt {lines : List MapsLine} {i : Nat} (ended : (mapsText lines)[i]? = some newline) :
    ∃ l more, (mapsText lines).drop
      (i - (((mapsText lines).take i).reverse.takeWhile (fun c => c != newline)).length) =
        MapsLine.bytes l ++ more := by
  induction lines generalizing i with
  | nil => simp [mapsText] at ended
  | cons l lines ih =>
    have text : mapsText (l :: lines) = l.bytes ++ mapsText lines := List.flatMap_cons
    rw [text] at ended ⊢
    have length : l.bytes.length = l.body.length + 1 := by simp [MapsLine.bytes]
    have plain : ∀ c ∈ l.body.reverse, (c != newline) = true :=
      fun c mem => bne_iff_ne.mpr fun same => bodyPlain l (same ▸ List.mem_reverse.mp mem)
    rcases Nat.lt_or_ge i l.bytes.length with here | later
    · have last : i = l.body.length := by
        by_contra other
        have inside : i < l.body.length := by omega
        rw [List.getElem?_append_left here, MapsLine.bytes, List.getElem?_append_left inside] at ended
        exact bodyPlain l (List.mem_of_getElem? ended)
      have front : (l.bytes ++ mapsText lines).take i = l.body := by
        rw [last, MapsLine.bytes, List.append_assoc, List.take_left]
      rw [front, List.takeWhile_eq_self_iff.mpr plain, List.length_reverse, ← last, Nat.sub_self]
      exact ⟨l, mapsText lines, rfl⟩
    · obtain ⟨k, rfl⟩ := Nat.exists_eq_add_of_le later
      rw [List.getElem?_append_right later, Nat.add_sub_cancel_left] at ended
      obtain ⟨found, more, same⟩ := ih ended
      refine ⟨found, more, ?_⟩
      have stops : l.bytes.reverse.takeWhile (fun c => c != newline) = [] := by simp [MapsLine.bytes]
      have back : ((mapsText lines).take k).reverse.takeWhile (fun c => c != newline) =
          (((mapsText lines).take k).reverse ++ l.bytes.reverse).takeWhile (fun c => c != newline) := by
        rw [List.takeWhile_append, stops, List.append_nil]
        split
        · rename_i all
          exact (List.takeWhile_sublist _).eq_of_length all
        · rfl
      have bound : (((mapsText lines).take k).reverse.takeWhile (fun c => c != newline)).length ≤ k := by
        refine Nat.le_trans (List.takeWhile_sublist _).length_le ?_
        rw [List.length_reverse]
        exact List.length_take_le _ _
      rw [List.take_length_add_append, List.reverse_append, ← back, Nat.add_sub_assoc bound,
        List.drop_length_add_append]
      exact same

theorem lineEndsContained (stack : Buffer) {lines : List MapsLine} (a : Split (mapsText lines))
    (ends : a.AtLineEnds) : ∀ b ∈ entered page stack a.pieces, b.Contained := by
  intro b mem
  obtain ⟨entry, member⟩ := fromEntered a.short b mem
  obtain ⟨groups, rfl, pieces⟩ := piecesAreLines bodyPlain a.whole ends
  rw [pieces] at member
  obtain ⟨group, -, same⟩ := List.mem_map.mp member
  have text : b.piece = mapsText group := same.symm
  have ended : (mapsText group)[b.index]? = some newline := by
    have here := (holdsAtIff _ _ _).mp entry.held b.index entry.inside
    rw [Nat.zero_add, entry.ended] at here
    rw [← text, List.getElem?_eq_getElem entry.inside, ← here]
  obtain ⟨l, more, line⟩ := lineAt ended
  unfold Block.Contained Block.start
  rw [text, line]
  exact lineContained l more

theorem lineEndsInside (stack : Buffer) {lines : List MapsLine} (a : Split (mapsText lines))
    (ends : a.AtLineEnds) : ∀ b ∈ entered page stack a.pieces, b.Within := by
  intro b mem
  obtain ⟨entry, short⟩ := enteredSplit stack a b mem
  exact (withinExactly entry short).mpr (lineEndsContained stack a ends b mem)

end Lines

theorem accessesInsideExactly (page : PagePower) (stack : Buffer) {text : List Byte} (a : Split text) :
    (∀ b ∈ entered page stack a.pieces, b.Within) ↔ ∀ b ∈ entered page stack a.pieces, b.Contained := by
  refine forall₂_congr fun b mem => ?_
  obtain ⟨entry, short⟩ := enteredSplit stack a b mem
  exact withinExactly entry short

def insidePath : Split (kernelText [kernelA]) :=
  ⟨[kernelA.bytes.take 46, kernelA.bytes.drop 46], by decide, by decide, by decide⟩

theorem cutInsidePath : (∃ b ∈ entered .x86 (fun _ => 0) insidePath.pieces, b.writes = [bufSize, bufSize]) ∧
    ¬ ∀ page stack, ∀ lines : List (KernelLine page), ∀ a : Split (kernelText lines),
      ∀ b ∈ entered page stack a.pieces, b.Within := by
  have outside : ∃ b ∈ entered .x86 (fun _ => 0) insidePath.pieces, b.writes = [bufSize, bufSize] := by
    decide +kernel
  refine ⟨outside, fun inside => ?_⟩
  obtain ⟨b, mem, writes⟩ := outside
  have below := (inside .x86 (fun _ => 0) [kernelA] insidePath b mem).1 bufSize
    (List.mem_append_right _ (by rw [writes]; exact List.mem_cons_self))
  exact absurd below (Nat.lt_irrefl _)

end OsLabs.MapsDump
