import OsLabs.MapsDump

/-! A line of the maps file as the kernel writes it, and what the scans of the dump make of
it when the whole line stands in the buffer: its two addresses, modulo 2^64, and its path. -/
namespace OsLabs.MapsDump
open CMemory BufferScan

structure MapsLine where
  low : List Byte
  high : List Byte
  perms : List Byte
  offset : List Byte
  dev : List Byte
  inode : List Byte
  gap : Nat
  path : List Byte
  lowHex : low ≠ [] ∧ ∀ b ∈ low, (hexDigit b).isSome
  highHex : high ≠ [] ∧ ∀ b ∈ high, (hexDigit b).isSome
  words : ∀ w ∈ [perms, offset, dev, inode], w ≠ [] ∧ space ∉ w ∧ newline ∉ w
  pathPlain : newline ∉ path ∧ 0 ∉ path ∧ path.head? ≠ some space

def MapsLine.tail (l : MapsLine) : List Byte := List.replicate (l.gap + 1) space ++ l.path

def MapsLine.rest (l : MapsLine) : List Byte :=
  space :: l.perms ++ (space :: l.offset ++ (space :: l.dev ++ (space :: l.inode ++ l.tail)))

def MapsLine.body (l : MapsLine) : List Byte := l.low ++ (dash :: (l.high ++ l.rest))

def MapsLine.bytes (l : MapsLine) : List Byte := l.body ++ [newline]

def mapsText (lines : List MapsLine) : List Byte := lines.flatMap MapsLine.bytes

def hexValue (value : Nat) (digits : List Byte) : Nat :=
  digits.foldl (fun v c => (v * 16 + (hexDigit c).getD 0) % 2^64) value

def MapsLine.range (l : MapsLine) : Range := ⟨hexValue 0 l.low, hexValue 0 l.high, l.path⟩

theorem hexPlain {b : Byte} (hex : (hexDigit b).isSome) : b ≠ dash ∧ b ≠ space ∧ b ≠ newline := by
  refine ⟨?_, ?_, ?_⟩
  all_goals
    rintro rfl
    revert hex
    decide

theorem bodyPlain (l : MapsLine) : newline ∉ l.body := by
  have words := l.words
  simp only [List.mem_cons, List.not_mem_nil, or_false, forall_eq_or_imp, forall_eq] at words
  obtain ⟨perms, offset, dev, inode⟩ := words
  have other : newline ≠ dash ∧ newline ≠ space := by decide
  simp only [MapsLine.body, MapsLine.rest, MapsLine.tail, List.mem_append, List.mem_cons,
    List.mem_replicate, not_or]
  refine ⟨fun mem => (hexPlain (l.lowHex.2 _ mem)).2.2 rfl, other.1,
    fun mem => (hexPlain (l.highHex.2 _ mem)).2.2 rfl, ?_⟩
  exact ⟨⟨other.2, perms.2.2⟩, ⟨other.2, offset.2.2⟩, ⟨other.2, dev.2.2⟩, ⟨other.2, inode.2.2⟩,
    fun spaces => other.2 spaces.2, l.pathPlain.1⟩

theorem bodyFilled (l : MapsLine) : l.body ≠ [] := by
  simp [MapsLine.body]

theorem hexScanValue {buf : Buffer} {stop : Byte} {x room value : Nat} {digits : List Byte}
    (held : HoldsAt buf x (digits ++ [stop])) (hex : ∀ b ∈ digits, (hexDigit b).isSome)
    (plain : stop ∉ digits) (fits : digits.length ≤ room) :
    hexScan buf stop room x value = (x + digits.length, hexValue value digits) := by
  induction digits generalizing x room value with
  | nil =>
    have here : buf x = stop := held.1
    cases room with
    | zero => rfl
    | succ room => simp only [hexScan, if_pos here, List.length_nil, Nat.add_zero, hexValue, List.foldl_nil]
  | cons b rest ih =>
    obtain ⟨room, rfl⟩ := Nat.exists_eq_succ_of_ne_zero
      (Nat.ne_of_gt (Nat.lt_of_lt_of_le (Nat.succ_pos _) fits))
    have here : buf x = b := held.1
    have other : b ≠ stop := fun same => plain (same ▸ List.mem_cons_self)
    obtain ⟨d, digit⟩ := Option.isSome_iff_exists.mp (hex b List.mem_cons_self)
    have later := @ih (x + 1) room ((value * 16 + d) % 2^64) held.2
      (fun c mem => hex c (List.mem_cons_of_mem _ mem))
      (fun mem => plain (List.mem_cons_of_mem _ mem)) (Nat.le_of_succ_le_succ fits)
    simp only [hexScan, here, if_neg other, digit, later, List.length_cons, hexValue, List.foldl_cons,
      Option.getD_some, Prod.mk.injEq, and_true]
    omega

theorem seekInFinds {buf : Buffer} {stop : Byte → Bool} {x : Nat} {bytes : List Byte} {b : Byte}
    (held : HoldsAt buf x (bytes ++ [b])) (skips : ∀ c ∈ bytes, stop c = false) (found : stop b = true)
    (fits : x + bytes.length < bufSize) : seekIn buf stop x = x + bytes.length :=
  seekFinds held skips found (by omega)

theorem nextFieldEnds {buf : Buffer} {x : Nat} {word more : List Byte}
    (held : HoldsAt buf x (space :: word ++ (space :: more))) (plain : space ∉ word)
    (fits : x + 1 + word.length < bufSize) :
    nextField buf x = x + 1 + word.length ∧ HoldsAt buf (x + 1 + word.length) (space :: more) := by
  have parts := (holdsAtAppend _ _ _ _).mp held.2
  refine ⟨seekInFinds ((holdsAtAppend _ _ _ _).mpr ⟨parts.1, parts.2.1, trivial⟩) (fun c mem => ?_)
    (by decide) fits, parts.2⟩
  simp only [beq_eq_false_iff_ne]
  rintro rfl
  exact plain mem

theorem plainInside {buf : Buffer} {s : Nat} {body : List Byte} (held : HoldsAt buf s body)
    (plain : newline ∉ body) {k : Nat} (above : s ≤ k) (below : k < s + body.length) :
    buf k ≠ newline := by
  intro same
  have here := (holdsAtIff _ _ _).mp held (k - s) (by omega)
  rw [Nat.add_sub_cancel' above, same] at here
  exact plain (here ▸ List.getElem_mem _)

theorem lineStart {buf : Buffer} {s : Nat} {body : List Byte} (held : HoldsAt buf s body)
    (filled : body ≠ []) (plain : newline ∉ body)
    (first : s = 0 ∨ ∃ p, s = p + 1 ∧ buf p = newline) :
    (if buf (seekBack buf newline (s + body.length - 1)) = newline
      then seekBack buf newline (s + body.length - 1) + 1
      else seekBack buf newline (s + body.length - 1)) = s := by
  have positive := List.length_pos_iff.mpr filled
  have inside : ∀ k, s ≤ k → k < s + body.length → buf k ≠ newline :=
    fun _ above below => plainInside held plain above below
  rcases first with rfl | ⟨p, rfl, before⟩
  · have back : seekBack buf newline (0 + (0 + body.length - 1)) = 0 :=
      seekBackFinds (fun k above below => inside k (Nat.zero_le _) (by omega)) (.inl rfl)
    rw [Nat.zero_add] at back
    rw [back, if_neg (inside 0 (Nat.le_refl _) (by omega))]
  · have back : seekBack buf newline (p + body.length) = p :=
      seekBackFinds (fun k above below => inside k (by omega) (by omega)) (.inr before)
    have same : p + 1 + body.length - 1 = p + body.length := by omega
    rw [same, back, if_pos before]

theorem restParsed {buf : Buffer} {x : Nat} (l : MapsLine)
    (held : HoldsAt buf x (l.rest ++ [newline])) (fits : x + l.rest.length < bufSize) :
    ∃ path, seekIn buf (fun c => c != space)
        (nextField buf (nextField buf (nextField buf (nextField buf x)))) = path ∧
      path + l.path.length = x + l.rest.length ∧ HoldsAt buf path (l.path ++ [newline]) := by
  have words := l.words
  simp only [List.mem_cons, List.not_mem_nil, or_false, forall_eq_or_imp, forall_eq] at words
  obtain ⟨⟨-, perms, -⟩, ⟨-, offset, -⟩, ⟨-, dev, -⟩, ⟨-, inode, -⟩⟩ := words
  have total : l.rest.length = l.perms.length + l.offset.length + l.dev.length + l.inode.length + 5 +
      l.gap + l.path.length := by
    simp only [MapsLine.rest, MapsLine.tail, List.length_cons, List.length_append, List.length_replicate]
    omega
  have whole : HoldsAt buf x (space :: l.perms ++ (space :: (l.offset ++ (space :: (l.dev ++ (space ::
      (l.inode ++ (space :: (List.replicate l.gap space ++ (l.path ++ [newline])))))))))) := by
    simpa [MapsLine.rest, MapsLine.tail, List.replicate_succ] using held
  obtain ⟨first, afterPerms⟩ := nextFieldEnds whole perms (by omega)
  obtain ⟨second, afterOffset⟩ := nextFieldEnds afterPerms offset (by omega)
  obtain ⟨third, afterDev⟩ := nextFieldEnds afterOffset dev (by omega)
  obtain ⟨fourth, afterInode⟩ := nextFieldEnds afterDev inode (by omega)
  have spaces : space :: (List.replicate l.gap space ++ (l.path ++ [newline])) =
      List.replicate (l.gap + 1) space ++ (l.path ++ [newline]) := by
    rw [List.replicate_succ]; rfl
  rw [spaces] at afterInode
  have parts := (holdsAtAppend _ _ _ _).mp afterInode
  rw [List.length_replicate] at parts
  rw [first, second, third, fourth]
  refine ⟨_, ?_, ?_, parts.2⟩
  · obtain ⟨b, more, next, stops⟩ : ∃ b more, l.path ++ [newline] = b :: more ∧ b ≠ space := by
      cases path : l.path with
      | nil => exact ⟨newline, [], rfl, by decide⟩
      | cons b more =>
        refine ⟨b, more ++ [newline], rfl, ?_⟩
        rintro rfl
        exact l.pathPlain.2.2 (by rw [path]; rfl)
    have here := parts.2
    rw [next] at here
    have found := @seekInFinds buf (fun c => c != space) _ (List.replicate (l.gap + 1) space) b
      ((holdsAtAppend _ _ _ _).mpr ⟨parts.1, by rw [List.length_replicate]; exact ⟨here.1, trivial⟩⟩)
      (fun c mem => by rw [List.eq_of_mem_replicate mem]; decide) (by simpa using stops)
      (by rw [List.length_replicate]; omega)
    rw [List.length_replicate] at found
    exact found
  · omega

theorem parseLine {buf : Buffer} {s : Nat} (l : MapsLine) (held : HoldsAt buf s l.bytes)
    (first : s = 0 ∨ ∃ p, s = p + 1 ∧ buf p = newline) (fits : s + l.body.length < bufSize) :
    (parse buf (s + l.body.length)).low = hexValue 0 l.low ∧
      (parse buf (s + l.body.length)).high = hexValue 0 l.high ∧
      (parse buf (s + l.body.length)).y = s + l.body.length ∧
      slice buf (parse buf (s + l.body.length)).path (parse buf (s + l.body.length)).y = l.path := by
  have start := lineStart ((holdsAtAppend _ _ _ _).mp held).1 (bodyFilled l) (bodyPlain l) first
  have total : l.body.length = l.low.length + 1 + l.high.length + l.rest.length := by
    simp only [MapsLine.body, List.length_append, List.length_cons]
    omega
  have whole : HoldsAt buf s (l.low ++ (dash :: (l.high ++ (l.rest ++ [newline])))) := by
    simpa [MapsLine.bytes, MapsLine.body] using held
  obtain ⟨lowHeld, dashHeld, afterDash⟩ := (holdsAtAppend _ _ _ _).mp whole
  obtain ⟨highHeld, restHeld⟩ := (holdsAtAppend _ _ _ _).mp afterDash
  have spaceHeld : buf (s + l.low.length + 1 + l.high.length) = space := restHeld.1
  have low := @hexScanValue buf dash s (bufSize - s) 0 l.low
    ((holdsAtAppend _ _ _ _).mpr ⟨lowHeld, dashHeld, trivial⟩) l.lowHex.2
    (fun mem => (hexPlain (l.lowHex.2 _ mem)).1 rfl) (by omega)
  have separator := @seekInFinds buf (fun c => c == dash) (s + l.low.length) [] dash ⟨dashHeld, trivial⟩
    (fun c mem => by cases mem) (by decide) (by simp only [List.length_nil]; omega)
  have high := @hexScanValue buf space (s + l.low.length + 1) (bufSize - (s + l.low.length + 1)) 0 l.high
    ((holdsAtAppend _ _ _ _).mpr ⟨highHeld, spaceHeld, trivial⟩) l.highHex.2
    (fun mem => (hexPlain (l.highHex.2 _ mem)).2.1 rfl) (by omega)
  obtain ⟨path, fields, length, pathHeld⟩ := restParsed l restHeld (by omega)
  have y := @seekInFinds buf (fun c => c == newline) path l.path newline pathHeld
    (fun c mem => by simp only [beq_eq_false_iff_ne]; rintro rfl; exact l.pathPlain.1 mem)
    (by decide) (by omega)
  rw [List.length_nil, Nat.add_zero] at separator
  unfold parse
  simp only [start, low, separator, if_pos dashHeld, high, fields, y, true_and]
  exact ⟨by omega, sliceHolds ((holdsAtAppend _ _ _ _).mp pathHeld).1⟩

end OsLabs.MapsDump
