import OsLabs.FortuneStore

/-! The page as a sequence of NUL-terminated fortunes. `offset` is the index at which a
fortune starts; both readers keep such an offset in readInd. -/
namespace OsLabs.FortuneStore
open CInteger CMemory

def image (fortunes : List (List Byte)) : List Byte := fortunes.flatMap (fun f => f ++ [0])

def offset (fortunes : List (List Byte)) (n : Nat) : Nat := (image (fortunes.take n)).length

def sealText (user : List Byte) : List Byte := user.dropLast ++ [newline]

structure Layout (s : Statics) (fortunes : List (List Byte)) : Prop where
  bytes : Holds s.buffer 0 (image fortunes)
  used : s.writeInd = (image fortunes).length
  clean : ∀ f ∈ fortunes, f ≠ [] ∧ 0 ∉ f

theorem imageAppend (xs ys : List (List Byte)) : image (xs ++ ys) = image xs ++ image ys := by
  simp [image]

theorem imageSingle (f : List Byte) : image [f] = f ++ [0] := by simp [image]

theorem offsetZero (fortunes : List (List Byte)) : offset fortunes 0 = 0 := rfl

theorem offsetEnd (fortunes : List (List Byte)) :
    offset fortunes fortunes.length = (image fortunes).length := by
  rw [offset, List.take_length]

theorem offsetSucc {fortunes : List (List Byte)} {n : Nat} (inside : n < fortunes.length) :
    offset fortunes (n + 1) = offset fortunes n + (fortunes[n].length + 1) := by
  rw [offset, List.take_succ_eq_append_getElem inside, imageAppend, imageSingle]
  simp [offset]

theorem offsetMono {fortunes : List (List Byte)} {n m : Nat} (order : n ≤ m)
    (inside : m ≤ fortunes.length) : offset fortunes n ≤ offset fortunes m := by
  induction order with
  | refl => exact Nat.le_refl _
  | @step m order ih =>
    rw [Nat.succ_eq_add_one, offsetSucc (Nat.lt_of_succ_le inside)]
    exact Nat.le_add_right_of_le (ih (Nat.le_of_succ_le inside))

theorem offsetLt {fortunes : List (List Byte)} {n : Nat} (inside : n < fortunes.length) :
    offset fortunes n + fortunes[n].length < (image fortunes).length := by
  have next := offsetSucc inside
  have last : offset fortunes (n + 1) ≤ offset fortunes fortunes.length :=
    offsetMono inside (Nat.le_refl _)
  rw [offsetEnd] at last
  omega

theorem offsetPositive {fortunes : List (List Byte)} {n : Nat} (first : 0 < n)
    (inside : n ≤ fortunes.length) : 0 < offset fortunes n := by
  have filled : 0 < fortunes.length := Nat.lt_of_lt_of_le first inside
  have step := offsetSucc filled
  have : offset fortunes (0 + 1) ≤ offset fortunes n := offsetMono first inside
  omega

theorem offsetAppend {fortunes : List (List Byte)} {n : Nat} (inside : n ≤ fortunes.length)
    (more : List (List Byte)) : offset (fortunes ++ more) n = offset fortunes n := by
  rw [offset, offset, List.take_append_of_le_length inside]

theorem holdsFortune {m : Mem} {fortunes : List (List Byte)} (held : Holds m 0 (image fortunes))
    {n : Nat} (inside : n < fortunes.length) :
    Holds m (offset fortunes n) (fortunes[n] ++ [0]) := by
  have split : fortunes = fortunes.take n ++ ([fortunes[n]] ++ fortunes.drop (n + 1)) := by simp
  rw [split, imageAppend, imageAppend, imageSingle, holdsAppend, holdsAppend] at held
  simpa only [Int.zero_add, offset] using held.2.1

theorem layoutText {s : Statics} {fortunes : List (List Byte)} (layout : Layout s fortunes)
    (page : s.writeInd ≤ cookieMaxBufSize) {n : Nat} (inside : n < fortunes.length) :
    cstring s.buffer (offset fortunes n) (cookieMaxBufSize - offset fortunes n) =
      some fortunes[n] := by
  have bound := offsetLt inside
  have used := layout.used
  refine cstringOfHolds (holdsFortune layout.bytes inside)
    (layout.clean _ (List.getElem_mem inside)).2 ?_
  omega

theorem sealLength {user : List Byte} (filled : user ≠ []) :
    (sealText user).length = user.length := by
  have := List.length_pos_iff.mpr filled
  simp only [sealText, List.length_append, List.length_dropLast, List.length_singleton]
  omega

theorem sealClean {user : List Byte} (clean : 0 ∉ user) : sealText user ≠ [] ∧ 0 ∉ sealText user := by
  refine ⟨by simp [sealText], fun mem => ?_⟩
  rcases List.mem_append.mp mem with inside | last
  · exact clean (List.dropLast_subset _ inside)
  · simp [newline] at last

theorem sealedHolds (m : Mem) (start : Int) {user : List Byte} (filled : user ≠ []) :
    Holds (putAll m (copyTo start user ++
      [⟨start + user.length - 1, newline⟩, ⟨start + user.length, 0⟩])) start (sealText user ++ [0]) := by
  have positive := List.length_pos_iff.mpr filled
  have copied := copyHolds m start user
  rw [← List.dropLast_concat_getLast filled, holdsAppend] at copied
  have short : (user.dropLast.length : Int) = user.length - 1 := by
    rw [List.length_dropLast]; omega
  rw [putAllAppend, sealText, List.append_assoc, holdsAppend]
  rw [List.dropLast_concat_getLast filled] at copied
  refine ⟨holdsFrame copied.1 ?_, ?_, ?_, trivial⟩
  · intro j low high
    refine putAllFrame _ _ _ ?_
    intro store mem
    simp only [List.mem_cons, List.not_mem_nil, or_false] at mem
    rcases mem with rfl | rfl <;> simp only <;> omega
  · simp only [putAll, List.foldl_cons, List.foldl_nil, put]
    rw [if_neg (by omega), if_pos (by omega)]
  · simp only [putAll, List.foldl_cons, List.foldl_nil, put]
    rw [if_pos (by omega)]

theorem acceptedFrame (m : Mem) {start : Int} {user : List Byte} (filled : user ≠ []) {j : Int}
    (apart : j < start ∨ start + user.length < j) : putAll m (copyTo start user ++
      [⟨start + user.length - 1, newline⟩, ⟨start + user.length, 0⟩]) j = m j := by
  have positive := List.length_pos_iff.mpr filled
  refine putAllFrame _ _ _ ?_
  intro store mem
  simp only [List.mem_append, List.mem_cons, List.not_mem_nil, or_false] at mem
  rcases mem with copied | rfl | rfl
  · have range := copyToIndex copied
    omega
  · simp only; omega
  · simp only; omega

theorem writeLayout {s : Statics} {c : WriteCall} {fortunes : List (List Byte)}
    (layout : Layout s fortunes) (within : Within s) (room : ¬ spaceLeft s.writeInd < c.len)
    (done : c.copy = .done) (filled : c.user ≠ []) (clean : 0 ∉ c.user) :
    Layout (writeFortune s c).state (fortunes ++ [sealText c.user]) := by
  rw [writeAccepted within room done]
  refine ⟨?_, ?_, ?_⟩
  · rw [imageAppend, imageSingle, holdsAppend, Int.zero_add, ← layout.used]
    refine ⟨holdsFrame layout.bytes ?_, sealedHolds s.buffer s.writeInd filled⟩
    intro j low high
    exact acceptedFrame s.buffer filled (.inl (by rw [layout.used]; omega))
  · have length := sealLength filled
    simp only [imageAppend, imageSingle, List.length_append, List.length_singleton, length,
      layout.used, WriteCall.len]
    omega
  · intro f mem
    rcases List.mem_append.mp mem with old | new
    · exact layout.clean f old
    · rw [List.mem_singleton.mp new]
      exact sealClean clean

theorem initLayout (outside : Mem) : Layout (initStatics outside) [] :=
  ⟨trivial, rfl, by simp⟩

end OsLabs.FortuneStore
