import OsLabs.Delimited
import OsLabs.InfoFromFile

/-! infoProcessStat of lab_04 part1. The text of stat or statm is cut at its spaces and the
tokens are paired with a table of names, whatever the text holds and however many there are. -/
namespace OsLabs.ProcInfo
open CMemory ReusedBuffer Delimited

def space : Byte := 32

/- The names of the two tables, which stand at the even indices. Behind each stands a
description that no function reads. -/
def statMeanings : List String :=
  ["pid", "comm", "state", "ppid", "pgrp", "session", "tty_nr", "tpgid", "flags", "minflt",
   "cminflt", "majflt", "cmajflt", "utime", "stime", "cutime", "cstime", "priority", "nice",
   "num_threads", "itrealvalue", "starttime", "vsize", "rss", "rsslim", "startcode", "endcode",
   "startstack", "kstkesp", "kstkeip", "pending", "blocked", "sigign", "sigcatch", "wchan", "nswap",
   "cnswap", "exit_signal", "processor", "rt_priority", "policy", "blkio_ticks", "gtime", "cgtime",
   "start_data", "end_data", "start_brk", "arg_start", "arg_end", "env_start", "env_end", "exit_code"]

def statmMeanings : List String := ["size", "resident", "shared", "trs", "lrs", "drs", "dt"]

/- "%s = %s\n" -/
def statLine (meaning : String) (elem : List Byte) : List Byte :=
  textBytes meaning ++ textBytes " = " ++ elem ++ [newline]

/- The loop over the tokens, with i += 2 for each; there is no result when meanings[i] lies
behind the table. -/
def printTokens (meanings : List String) : List (List Byte) → Nat → Option (List Byte)
  | [], _ => some []
  | elem :: rest, i => (meanings[i / 2]?).bind fun meaning =>
      (printTokens meanings rest (i + 2)).map (statLine meaning elem ++ ·)

/- One fread into a zeroed buffer. There is no result when no NUL is left in it, since
strtok then runs past its end. -/
def infoProcessStat (outside : Mem) (path : List Byte) (meanings : List String) (file : List Byte) :
    Option (List Byte) :=
  (cstring (overlay (zeroed outside) (file.take bufSize)) 0 bufSize).bind fun text =>
    (printTokens meanings (tokens space text) 0).map (preparePrint path ++ ·)

def labelled (meanings : List String) (values : List (List Byte)) : List Byte :=
  (List.zipWith statLine meanings values).flatten

def PlainField (word : List Byte) : Prop :=
  word ≠ [] ∧ word.length ≤ 20 ∧ space ∉ word ∧ 0 ∉ word

instance (word : List Byte) : Decidable (PlainField word) := inferInstanceAs (Decidable (_ ∧ _))

/- The text of /proc/<pid>/stat. The name is of any length and bytes but NUL. -/
structure StatText where
  pid : List Byte
  comm : List Byte
  fields : List (List Byte)
  count : fields.length = 50
  plain : ∀ word ∈ pid :: fields, PlainField word
  named : 0 ∉ comm

structure StatmText where
  fields : List (List Byte)
  count : fields.length = 7
  plain : ∀ word ∈ fields, PlainField word

def StatText.values (t : StatText) : List (List Byte) := t.pid :: (40 :: (t.comm ++ [41])) :: t.fields

def fieldsText (values : List (List Byte)) : List Byte := [space].intercalate values ++ [newline]

def StatText.bytes (t : StatText) : List Byte := fieldsText t.values

def StatmText.bytes (t : StatmText) : List Byte := fieldsText t.fields

theorem statNames : statMeanings.length = 52 ∧ statMeanings.Nodup := by decide

theorem statmNames : statmMeanings.length = 7 ∧ statmMeanings.Nodup := by decide

theorem printTokensShort {meanings : List String} {elems : List (List Byte)} {k : Nat}
    (short : k + elems.length ≤ meanings.length) :
    printTokens meanings elems (2 * k) = some (labelled (meanings.drop k) elems) := by
  induction elems generalizing k with
  | nil => simp [printTokens, labelled]
  | cons elem rest ih =>
    simp only [List.length_cons] at short
    have inside : k < meanings.length := by omega
    have half : 2 * k / 2 = k := by omega
    have next : 2 * k + 2 = 2 * (k + 1) := by omega
    have later := @ih (k + 1) (by omega)
    rw [printTokens, half, List.getElem?_eq_getElem inside, Option.bind_some, next, later,
      List.drop_eq_getElem_cons inside, Option.map_some]
    rfl

theorem printTokensLong {meanings : List String} {elems : List (List Byte)} {k : Nat}
    (long : meanings.length < k + elems.length) (inRange : k ≤ meanings.length) :
    printTokens meanings elems (2 * k) = none := by
  induction elems generalizing k with
  | nil => simp only [List.length_nil] at long; omega
  | cons elem rest ih =>
    simp only [List.length_cons] at long
    have half : 2 * k / 2 = k := by omega
    have next : 2 * k + 2 = 2 * (k + 1) := by omega
    rw [printTokens, half, next]
    by_cases inside : k < meanings.length
    · rw [@ih (k + 1) (by omega) inside]
      simp
    · rw [List.getElem?_eq_none (Nat.le_of_not_lt inside), Option.bind_none]

theorem fileText (outside : Mem) {file : List Byte} (clean : 0 ∉ file) :
    cstring (overlay (zeroed outside) (file.take bufSize)) 0 bufSize =
      if file.length < bufSize then some file else none := by
  split
  · rename_i short
    rw [List.take_of_length_le (Nat.le_of_lt short)]
    exact (overlayText clean short).mpr ((zeroedFilled outside).high _ (by omega) (by omega))
  · rename_i long
    have full : (file.take bufSize).length = bufSize := by
      rw [List.length_take]
      omega
    have plain : 0 ∉ file.take bufSize := fun mem => clean (List.mem_of_mem_take mem)
    have after := overlayFilled (zeroedFilled outside) plain
    rw [full, Nat.zero_max] at after
    exact filledNone after

theorem longOverruns (outside : Mem) (path : List Byte) (meanings : List String) {file : List Byte}
    (clean : 0 ∉ file) (long : ¬ file.length < bufSize) :
    infoProcessStat outside path meanings file = none := by
  rw [infoProcessStat, fileText outside clean, if_neg long, Option.bind_none]

theorem fieldsLast {values : List (List Byte)} (filled : values ≠ []) :
    fieldsText values = encode space values.dropLast ++ (values.getLast filled ++ [newline]) := by
  have split := List.dropLast_concat_getLast filled
  rw [fieldsText, ← List.append_assoc, ← intercalateEncode, split]

theorem fieldsClean {values : List (List Byte)} (clean : ∀ value ∈ values, 0 ∉ value) :
    0 ∉ fieldsText values := by
  by_cases filled : values = []
  · rw [filled]
    decide
  · rw [fieldsLast filled]
    simp only [encode, List.mem_append, List.mem_flatMap, List.mem_singleton, not_or, not_exists,
      not_and]
    refine ⟨fun value part => ⟨clean value (List.dropLast_subset _ part), by decide⟩,
      clean _ (List.getLast_mem filled), by decide⟩

theorem endPlain {word : List Byte} (plain : space ∉ word) :
    tokens space (word ++ [newline]) = [word ++ [newline]] := by
  have other : space ≠ newline := by decide
  exact tokensSingle (by simp [plain, other]) (by simp)

theorem plainTokens {words : List (List Byte)} (plain : ∀ word ∈ words, space ∉ word ∧ word ≠ []) :
    words.flatMap (tokens space) = words := by
  induction words with
  | nil => rfl
  | cons word words ih =>
    obtain ⟨clean, filled⟩ := plain word List.mem_cons_self
    rw [List.flatMap_cons, tokensSingle clean filled,
      ih (fun w part => plain w (List.mem_cons_of_mem _ part))]
    rfl

theorem labelledLast {meanings : List String} {values : List (List Byte)} (filled : values ≠ [])
    (size : meanings.length = values.length) :
    labelled meanings (values.dropLast ++ [values.getLast filled ++ [newline]]) =
      labelled meanings values ++ [newline] := by
  have positive := List.length_pos_iff.mpr filled
  have named : meanings ≠ [] := List.length_pos_iff.mp (by omega)
  obtain ⟨names, name, rfl⟩ : ∃ names name, meanings = names ++ [name] :=
    ⟨_, _, (List.dropLast_concat_getLast named).symm⟩
  have same : names.length = values.dropLast.length := by
    simp only [List.length_append, List.length_singleton] at size
    rw [List.length_dropLast]
    omega
  conv_rhs => rw [← List.dropLast_concat_getLast filled]
  rw [labelled, labelled, List.zipWith_append same, List.zipWith_append same]
  simp [statLine]

theorem plainPrinted (outside : Mem) (path : List Byte) {meanings : List String}
    {values : List (List Byte)} (filled : values ≠ []) (size : meanings.length = values.length)
    (plain : ∀ value ∈ values, space ∉ value ∧ value ≠ []) (clean : ∀ value ∈ values, 0 ∉ value)
    (short : (fieldsText values).length < bufSize) :
    infoProcessStat outside path meanings (fieldsText values) =
      some (preparePrint path ++ (labelled meanings values ++ [newline])) := by
  have words : tokens space (fieldsText values) =
      values.dropLast ++ [values.getLast filled ++ [newline]] := by
    rw [fieldsLast filled, tokensEncode, endPlain (plain _ (List.getLast_mem filled)).1,
      plainTokens (fun w part => plain w (List.dropLast_subset _ part))]
  have positive := List.length_pos_iff.mpr filled
  have printed := @printTokensShort meanings (tokens space (fieldsText values)) 0 (by
    rw [words, List.length_append, List.length_dropLast, List.length_singleton]
    omega)
  rw [Nat.mul_zero, List.drop_zero] at printed
  rw [infoProcessStat, fileText outside (fieldsClean clean), if_pos short, Option.bind_some, printed,
    words, labelledLast filled size, Option.map_some]

theorem valuesClean (t : StatText) : ∀ value ∈ t.values, 0 ∉ value := by
  intro value mem
  have plain := t.plain
  simp only [StatText.values, List.mem_cons] at mem plain
  rcases mem with rfl | rfl | field
  · exact (plain _ (.inl rfl)).2.2.2
  · simp [t.named]
  · exact (plain _ (.inr field)).2.2.2

theorem statClean (t : StatText) : 0 ∉ t.bytes := fieldsClean (valuesClean t)

theorem valuesLength (t : StatText) : t.values.length = 52 := by
  simp [StatText.values, t.count]

theorem spacedOverruns (outside : Mem) (path : List Byte) (t : StatText) (spaced : space ∈ t.comm)
    (short : t.bytes.length < bufSize) : infoProcessStat outside path statMeanings t.bytes = none := by
  have fields : t.fields ≠ [] := List.length_pos_iff.mp (by rw [t.count]; decide)
  have plain : ∀ word ∈ t.pid :: t.fields, space ∉ word ∧ word ≠ [] :=
    fun word mem => ⟨(t.plain word mem).2.2.1, (t.plain word mem).1⟩
  have parts : tokens space t.bytes = [t.pid] ++ (tokens space (40 :: (t.comm ++ [41])) ++
      (t.fields.dropLast ++ [t.fields.getLast fields ++ [newline]])) := by
    have front : t.values.dropLast = t.pid :: (40 :: (t.comm ++ [41])) :: t.fields.dropLast := by
      rw [StatText.values, List.dropLast_cons_of_ne_nil (by simp), List.dropLast_cons_of_ne_nil fields]
    have back : t.values.getLast (by simp [StatText.values]) = t.fields.getLast fields := by
      simp [StatText.values, fields]
    rw [StatText.bytes, fieldsLast (by simp [StatText.values]), front, back, tokensEncode,
      List.flatMap_cons, List.flatMap_cons, endPlain (plain _ (by simp)).1,
      tokensSingle (plain t.pid List.mem_cons_self).1 (plain t.pid List.mem_cons_self).2,
      plainTokens (fun w part => plain w (List.mem_cons_of_mem _ (List.dropLast_subset _ part)))]
    simp
  have two := @tokensSplit _ _ space 40 41 t.comm (by decide) (by decide) spaced
  have long : statMeanings.length < 0 + (tokens space t.bytes).length := by
    rw [statNames.1, parts]
    simp only [List.length_append, List.length_singleton, List.length_dropLast, t.count]
    omega
  have tooMany := printTokensLong long (Nat.zero_le _)
  rw [Nat.mul_zero] at tooMany
  rw [infoProcessStat, fileText outside (statClean t), if_pos short, Option.bind_some, tooMany,
    Option.map_none]

theorem meaningsPrintedExactly (outside : Mem) (path : List Byte) :
    (∀ t : StatText, infoProcessStat outside path statMeanings t.bytes =
        some (preparePrint path ++ (labelled statMeanings t.values ++ [newline])) ↔
      space ∉ t.comm ∧ t.bytes.length < bufSize) ∧
    ∀ t : StatmText, infoProcessStat outside path statmMeanings t.bytes =
      some (preparePrint path ++ (labelled statmMeanings t.fields ++ [newline])) := by
  constructor
  · intro t
    constructor
    · intro printed
      by_cases short : t.bytes.length < bufSize
      · refine ⟨fun spaced => ?_, short⟩
        rw [spacedOverruns outside path t spaced short] at printed
        contradiction
      · rw [longOverruns outside path statMeanings (statClean t) short] at printed
        contradiction
    · intro holds
      obtain ⟨single, short⟩ := holds
      refine plainPrinted outside path (by simp [StatText.values]) ?_ ?_ (valuesClean t) short
      · rw [valuesLength, statNames.1]
      · intro value mem
        have plain := t.plain
        simp only [StatText.values, List.mem_cons] at mem plain
        have other : space ≠ 40 ∧ space ≠ 41 := by decide
        rcases mem with rfl | rfl | field
        · exact ⟨(plain _ (.inl rfl)).2.2.1, (plain _ (.inl rfl)).1⟩
        · simp [single, other]
        · exact ⟨(plain _ (.inr field)).2.2.1, (plain _ (.inr field)).1⟩
  · intro t
    have count := t.count
    have filled : t.fields ≠ [] := List.length_pos_iff.mp (by rw [count]; decide)
    refine plainPrinted outside path filled (by rw [count, statmNames.1])
      (fun value mem => ⟨(t.plain value mem).2.2.1, (t.plain value mem).1⟩)
      (fun value mem => (t.plain value mem).2.2.2) ?_
    have front := @encodeLength _ space 20 t.fields.dropLast
      (fun word part => (t.plain word (List.dropLast_subset _ part)).2.1)
    have last := (t.plain _ (List.getLast_mem filled)).2.1
    rw [fieldsLast filled]
    simp only [List.length_dropLast, count] at front
    simp only [List.length_append, List.length_singleton, bufSize]
    omega

def zeros (comm : List Byte) (named : 0 ∉ comm) : StatText :=
  ⟨[49], comm, List.replicate 50 [48], by decide, by decide, named⟩

theorem spacedNameOverruns : ¬ ∀ outside path, ∀ t : StatText,
    t.bytes.length < bufSize → infoProcessStat outside path statMeanings t.bytes =
      some (preparePrint path ++ (labelled statMeanings t.values ++ [newline])) := by
  intro all
  have printed := all (fun _ => 0) [] (zeros [97, 32, 98] (by decide)) (by decide)
  rw [spacedOverruns _ _ _ (by decide) (by decide)] at printed
  contradiction

end OsLabs.ProcInfo
