import Mathlib.Data.List.Basic

/-! Words sent through a stream, each followed by one delimiter. The stream has no other
borders, so a reader that takes pieces of it of any length is in step with the writer only
as long as the words it has not taken are exactly what is left in the stream. -/
namespace OsLabs.Delimited
variable {β : Type*} (stop : β)

def encode (words : List (List β)) : List β := words.flatMap (fun word => word ++ [stop])

def border [DecidableEq β] (stream : List β) : Nat :=
  (stream.takeWhile (fun b => b ≠ stop)).length + 1

def InStep (heard sent : List (List β)) (stream : List β) : Prop :=
  ∃ rest, heard ++ rest = sent ∧ stream = encode stop rest

variable {stop}

theorem wordFirst [DecidableEq β] {word : List β} (clean : stop ∉ word) (tail : List β) :
    (word ++ stop :: tail).takeWhile (fun b => b ≠ stop) = word := by
  have other : ∀ b ∈ word, decide (b ≠ stop) = true := by
    intro b member
    exact decide_eq_true (fun same => clean (same ▸ member))
  rw [List.takeWhile_append_of_pos other, List.takeWhile_cons_of_neg (by simp), List.append_nil]

theorem inStepStart (sent : List (List β)) : InStep stop [] sent (encode stop sent) :=
  ⟨sent, rfl, rfl⟩

theorem inStepSend {heard sent : List (List β)} {stream : List β}
    (step : InStep stop heard sent stream) (word : List β) :
    InStep stop heard (sent ++ [word]) (stream ++ (word ++ [stop])) := by
  obtain ⟨rest, whole, left⟩ := step
  refine ⟨rest ++ [word], by rw [← List.append_assoc, whole], ?_⟩
  rw [left, encode, encode, List.flatMap_append, List.flatMap_singleton]

theorem inStepAll {heard sent : List (List β)} (step : InStep stop heard sent []) :
    heard = sent := by
  obtain ⟨rest, whole, left⟩ := step
  cases rest with
  | nil => rw [← whole, List.append_nil]
  | cons word rest =>
    rw [encode, List.flatMap_cons] at left
    simp at left

theorem takeExactly [DecidableEq β] {heard sent : List (List β)} {stream : List β}
    (clean : ∀ word ∈ sent, stop ∉ word) (step : InStep stop heard sent stream)
    (filled : stream ≠ []) : ∃ word ∈ sent, border stop stream = word.length + 1 ∧
      stream.take (word.length + 1) = word ++ [stop] ∧
      ∀ text n, n ≤ stream.length →
        (InStep stop (heard ++ [text]) sent (stream.drop n) ↔ text = word ∧ n = word.length + 1) := by
  obtain ⟨rest, whole, left⟩ := step
  cases rest with
  | nil => exact absurd left filled
  | cons word rest =>
    have split : stream = (word ++ [stop]) ++ encode stop rest := by
      rw [left, encode, List.flatMap_cons, encode]
    have size : (word ++ [stop]).length = word.length + 1 := List.length_append
    have member : word ∈ sent := by rw [← whole]; simp
    refine ⟨word, member, ?_, ?_, fun text n inside => ⟨?_, ?_⟩⟩
    · rw [border, split, List.append_assoc, List.singleton_append, wordFirst (clean word member)]
    · rw [split, List.take_left' size]
    · rintro ⟨others, again, after⟩
      rw [← whole, List.append_assoc, List.append_cancel_left_eq, List.singleton_append] at again
      injection again with same tails
      refine ⟨same, ?_⟩
      have lengths := congrArg List.length after
      rw [tails, List.length_drop, split, List.length_append, size] at lengths
      rw [split, List.length_append, size] at inside
      omega
    · rintro ⟨rfl, rfl⟩
      refine ⟨rest, by rw [List.append_assoc, List.singleton_append, whole], ?_⟩
      rw [split, List.drop_left' size]

theorem intercalateEncode (sep : β) (words : List (List β)) (last : List β) :
    [sep].intercalate (words ++ [last]) = encode sep words ++ last := by
  induction words with
  | nil => simp [encode]
  | cons word words ih =>
    have next : words ++ [last] ≠ [] := by simp
    obtain ⟨second, others, same⟩ := List.exists_cons_of_ne_nil next
    rw [same] at ih
    rw [List.cons_append, same, List.intercalate_cons_cons, ih]
    simp [encode]

theorem encodeLength {size : Nat} {words : List (List β)} (short : ∀ word ∈ words, word.length ≤ size) :
    (encode stop words).length ≤ (size + 1) * words.length := by
  induction words with
  | nil => simp [encode]
  | cons word words ih =>
    have here := short word List.mem_cons_self
    have later := ih (fun w part => short w (List.mem_cons_of_mem _ part))
    rw [encode, List.flatMap_cons, List.length_append, ← encode, List.length_cons, Nat.mul_succ]
    simp only [List.length_append, List.length_singleton]
    omega

/- What strtok finds one after another: the words between the separators that are not empty. -/
def tokens [DecidableEq β] (sep : β) (text : List β) : List (List β) :=
  (text.splitOn sep).filter (fun word => !word.isEmpty)

theorem tokensAppend [DecidableEq β] (sep : β) (front rest : List β) :
    tokens sep (front ++ sep :: rest) = tokens sep front ++ tokens sep rest := by
  rw [tokens, List.splitOn_append_cons_self, List.filter_append, tokens, tokens]

theorem tokensSingle [DecidableEq β] {sep : β} {word : List β} (plain : sep ∉ word)
    (filled : word ≠ []) : tokens sep word = [word] := by
  rw [tokens, List.splitOn_eq_singleton plain, List.filter_cons_of_pos (by simpa using filled),
    List.filter_nil]

theorem tokensEncode [DecidableEq β] (sep : β) (words : List (List β)) (last : List β) :
    tokens sep (encode sep words ++ last) = words.flatMap (tokens sep) ++ tokens sep last := by
  induction words with
  | nil => rfl
  | cons word words ih =>
    have parts : encode sep (word :: words) ++ last = word ++ sep :: (encode sep words ++ last) := by
      simp [encode]
    rw [parts, tokensAppend, ih, List.flatMap_cons, List.append_assoc]

theorem blankWords [DecidableEq β] {sep : β} {words : List (List β)}
    (blank : ∀ word ∈ words, word = []) : ∀ b ∈ [sep].intercalate words, b = sep := by
  induction words with
  | nil => simp
  | cons word words ih =>
    have here := blank word List.mem_cons_self
    have later := ih (fun w part => blank w (List.mem_cons_of_mem _ part))
    cases words with
    | nil => simp [here]
    | cons next words => simpa [here, List.intercalate_cons_cons] using later

theorem tokensFound [DecidableEq β] {sep b : β} {text : List β} (mem : b ∈ text) (other : b ≠ sep) :
    0 < (tokens sep text).length := by
  apply List.length_pos_iff.mpr
  intro empty
  have blank : ∀ word ∈ text.splitOn sep, word = [] := by
    intro word part
    simpa using List.filter_eq_nil_iff.mp empty word part
  rw [← @List.intercalate_splitOn _ text _ _ sep] at mem
  exact other (blankWords blank b mem)

theorem tokensSplit [DecidableEq β] {sep : β} {first last : β} {middle : List β}
    (start : first ≠ sep) (stop : last ≠ sep) (inside : sep ∈ middle) :
    2 ≤ (tokens sep (first :: (middle ++ [last]))).length := by
  obtain ⟨front, rest, rfl⟩ := List.append_of_mem inside
  have parts : first :: (front ++ sep :: rest ++ [last]) =
      (first :: front) ++ sep :: (rest ++ [last]) := by simp
  have left := @tokensFound _ _ sep first (first :: front) List.mem_cons_self start
  have right := @tokensFound _ _ sep last (rest ++ [last]) (by simp) stop
  rw [parts, tokensAppend, List.length_append]
  omega

end OsLabs.Delimited
