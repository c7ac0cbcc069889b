import OsLabs.InfoFromFile
import OsLabs.Printf

/-! err_doit of lab_01, through which err_quit and err_exit print: one buffer of MAXLINE bytes takes
the text, the description of the error and the newline. The arguments of a format are strings. -/
namespace OsLabs.ErrDoit
open CMemory Printf
open ProcInfo (textBytes newline)

def maxLine : Nat := 4096

def conversion : Byte := 115

/- What a format makes of its arguments: each `%s` takes the next one, and without one it is
undefined. No other conversion is used. -/
def formatted : List Byte → List (List Byte) → Option (List Byte)
  | [], _ => some []
  | b :: rest, args =>
      if b = percent then
        match rest with
        | [] => none
        | c :: more =>
            if c = percent then (formatted more args).map (percent :: ·)
            else if c = conversion then match args with
              | [] => none
              | arg :: others => (formatted more others).map (arg ++ ·)
            else none
      else (formatted rest args).map (b :: ·)

def snprintfStores (start : Int) (size : Nat) (text : List Byte) : List Store :=
  if size = 0 then [] else copyTo start (text.take (size - 1) ++ [0])

def describe (errnoflag : Bool) (strerror : List Byte) (strlen : Nat) : List Store :=
  if errnoflag then snprintfStores strlen (maxLine - strlen - 1) (textBytes ": " ++ strerror) else []

structure Said where
  stores : List Store
  line : List Byte
  deriving DecidableEq, Repr

def errDoit (buf : Mem) (errnoflag : Bool) (strerror fmt : List Byte) (args : List (List Byte)) :
    Option Said := do
  let text ← formatted fmt args
  let first := snprintfStores 0 (maxLine - 1) text
  let start ← cstring (putAll buf first) 0 maxLine
  let second := first ++ describe errnoflag strerror start.length
  let told ← cstring (putAll buf second) 0 maxLine
  let stores := second ++ copyTo told.length [newline, 0]   -- strcat
  let line ← cstring (putAll buf stores) 0 maxLine
  some ⟨stores, line⟩

def errQuit (buf : Mem) (fmt : List Byte) (args : List (List Byte)) : Option Said :=
  errDoit buf false [] fmt args

def errExit (buf : Mem) (strerror fmt : List Byte) (args : List (List Byte)) : Option Said :=
  errDoit buf true strerror fmt args

theorem formattedOther {b : Byte} (other : b ≠ percent) (rest : List Byte) (args : List (List Byte)) :
    formatted (b :: rest) args = (formatted rest args).map (b :: ·) := by
  cases rest with
  | nil => exact if_neg other
  | cons c more => exact if_neg other

theorem formattedNone (fmt : List Byte) : formatted fmt [] = printf fmt := by
  induction fmt using printf.induct with
  | case1 => rfl
  | case2 => rfl
  | case3 more ih => simp only [formatted, printf, if_true, ih]
  | case4 c more other => simp only [formatted, printf, if_true, if_neg other, ite_self]
  | case5 b rest other ih => rw [formattedOther other, printfOther other, ih]

theorem formattedName {words : List Byte} (plain : percent ∉ words) (name : List Byte) :
    formatted (percent :: conversion :: words) [name] = some (name ++ words) := by
  have other : conversion ≠ percent := by decide
  simp only [formatted, if_true, if_neg other, formattedNone, printfPlain plain, Option.map_some]

theorem formattedClean {fmt text : List Byte} {args : List (List Byte)} (clean : 0 ∉ fmt)
    (given : ∀ arg ∈ args, 0 ∉ arg) (made : formatted fmt args = some text) : 0 ∉ text := by
  induction fmt, args using formatted.induct generalizing text with
  | case1 args =>
    cases Option.some.inj made
    exact List.not_mem_nil
  | case2 args => cases made
  | case3 args more ih =>
    simp only [formatted, if_true, Option.map_eq_some_iff] at made
    obtain ⟨tail, later, rfl⟩ := made
    have behind := ih (fun mem => clean (by simp [mem])) given later
    simpa [percent] using behind
  | case4 more other => simp [formatted, other] at made
  | case5 more arg others other ih =>
    simp only [formatted, if_true, if_neg other, Option.map_eq_some_iff] at made
    obtain ⟨tail, later, rfl⟩ := made
    have rest := fun a mem => given a (List.mem_cons_of_mem _ mem)
    have behind := ih (fun mem => clean (by simp [mem])) rest later
    exact fun mem => (List.mem_append.mp mem).elim (given arg List.mem_cons_self) behind
  | case6 args c more other last => simp [formatted, other, last] at made
  | case7 b rest args other ih =>
    rw [formattedOther other, Option.map_eq_some_iff] at made
    obtain ⟨tail, later, rfl⟩ := made
    have behind := ih (fun mem => clean (List.mem_cons_of_mem _ mem)) given later
    exact fun mem => (List.mem_cons.mp mem).elim (fun zero => clean (zero ▸ List.mem_cons_self)) behind

theorem appendHolds {m : Mem} {xs : List Byte} (held : Holds m 0 xs) (ys : List Byte) :
    Holds (putAll m (copyTo xs.length ys)) 0 (xs ++ ys) := by
  refine (holdsAppend _ _ _ _).mpr ⟨holdsFrame held fun j low high => ?_, ?_⟩
  · refine putAllFrame m _ j fun s mem => ?_
    have range := copyToIndex mem
    omega
  · rw [Int.zero_add]
    exact copyHolds m xs.length ys

theorem appendText {buf : Mem} {stores : List Store} {xs ys : List Byte}
    (held : Holds (putAll buf stores) 0 (xs ++ [0])) (clean : 0 ∉ xs ++ ys)
    (fits : (xs ++ ys).length < maxLine) :
    Holds (putAll buf (stores ++ copyTo xs.length (ys ++ [0]))) 0 ((xs ++ ys) ++ [0]) ∧
      cstring (putAll buf (stores ++ copyTo xs.length (ys ++ [0]))) 0 maxLine = some (xs ++ ys) := by
  have before : Holds (putAll buf stores) 0 xs := ((holdsAppend _ _ _ _).mp held).1
  have both := appendHolds before (ys ++ [0])
  rw [← List.append_assoc, ← putAllAppend] at both
  exact ⟨both, cstringOfHolds both clean fits⟩

def message (errnoflag : Bool) (strerror text : List Byte) : List Byte :=
  text ++ if errnoflag then textBytes ": " ++ strerror else []

def Inside (stores : List Store) : Prop := ∀ s ∈ stores, 0 ≤ s.index ∧ s.index < maxLine

theorem copyInside {start : Nat} {bytes : List Byte} (fits : start + bytes.length ≤ maxLine) :
    Inside (copyTo start bytes) := by
  intro s mem
  have range := copyToIndex mem
  omega

theorem insideAppend {xs ys : List Store} (left : Inside xs) (right : Inside ys) : Inside (xs ++ ys) :=
  fun s mem => (List.mem_append.mp mem).elim (left s) (right s)

theorem cutLength (bytes : List Byte) (n : Nat) : (bytes.take n ++ [0]).length ≤ n + 1 := by
  rw [List.length_append, List.length_singleton]
  exact Nat.succ_le_succ (List.length_take_le n bytes)

theorem describeText {buf : Mem} {first : List Store} {text strerror : List Byte} (errnoflag : Bool)
    (clean : 0 ∉ message errnoflag strerror text) (inside : Inside first)
    (held : Holds (putAll buf first) 0 (text.take (maxLine - 2) ++ [0])) :
    ∃ second, first ++ describe errnoflag strerror (text.take (maxLine - 2)).length = second ∧
      Inside second ∧
      Holds (putAll buf second) 0 ((message errnoflag strerror text).take (maxLine - 2) ++ [0]) := by
  refine ⟨_, rfl, ?_⟩
  cases errnoflag with
  | false =>
    have same : message false strerror text = text := List.append_nil text
    rw [same]
    refine ⟨insideAppend inside (fun s mem => by cases mem), ?_⟩
    rwa [describe, if_neg Bool.false_ne_true, List.append_nil]
  | true =>
    have short : (text.take (maxLine - 2)).length ≤ maxLine - 2 := List.length_take_le _ _
    have room : maxLine - (text.take (maxLine - 2)).length - 1 ≠ 0 := by unfold maxLine at *; omega
    have cut : (message true strerror text).take (maxLine - 2) = text.take (maxLine - 2) ++
        (textBytes ": " ++ strerror).take (maxLine - (text.take (maxLine - 2)).length - 1 - 1) := by
      rw [message, if_pos rfl, List.take_append]
      congr 2
      rw [List.length_take]
      omega
    rw [describe, if_pos rfl, snprintfStores, if_neg room, cut]
    have room := cutLength (textBytes ": " ++ strerror) (maxLine - (text.take (maxLine - 2)).length - 1 - 1)
    refine ⟨insideAppend inside (copyInside (by omega)), (appendText held ?_ ?_).1⟩
    · rw [← cut]
      exact fun mem => clean (List.mem_of_mem_take mem)
    · rw [← cut]
      have bound := List.length_take_le (maxLine - 2) (message true strerror text)
      unfold maxLine at *
      omega

theorem messageClean {errnoflag : Bool} {strerror text : List Byte} (clean : 0 ∉ text)
    (described : 0 ∉ strerror) : 0 ∉ message errnoflag strerror text := by
  have colon : 0 ∉ textBytes ": " := by decide +kernel
  cases errnoflag with
  | false => simpa [message] using clean
  | true => simpa [message] using ⟨clean, colon, described⟩

theorem errDoitText (buf : Mem) (errnoflag : Bool) {strerror fmt text : List Byte} {args : List (List Byte)}
    (made : formatted fmt args = some text) (clean : 0 ∉ text) (described : 0 ∉ strerror) :
    ∃ said, errDoit buf errnoflag strerror fmt args = some said ∧ Inside said.stores ∧
      said.line = (message errnoflag strerror text).take (maxLine - 2) ++ [newline] := by
  have cut : ∀ bytes : List Byte, (bytes.take (maxLine - 2)).length < maxLine - 1 :=
    fun bytes => Nat.lt_of_le_of_lt (List.length_take_le _ _) (by decide)
  have cutClean : ∀ bytes : List Byte, 0 ∉ bytes → 0 ∉ bytes.take (maxLine - 2) :=
    fun bytes plain mem => plain (List.mem_of_mem_take mem)
  have whole := @messageClean errnoflag _ _ clean described
  have placed : Holds (putAll buf (snprintfStores 0 (maxLine - 1) text)) 0 (text.take (maxLine - 2) ++ [0]) :=
    copyHolds buf 0 (text.take (maxLine - 2) ++ [0])
  have start := cstringOfHolds placed (cutClean text clean)
    (Nat.lt_of_lt_of_le (cut text) (Nat.sub_le maxLine 1))
  have inside : Inside (snprintfStores 0 (maxLine - 1) text) := by
    refine @copyInside 0 _ ?_
    rw [Nat.zero_add]
    exact Nat.le_trans (cutLength text (maxLine - 2)) (Nat.sub_le maxLine 1)
  obtain ⟨second, taken, kept, described⟩ := describeText errnoflag whole inside placed
  have told := cstringOfHolds described (cutClean _ whole) (Nat.lt_of_lt_of_le (cut _) (Nat.sub_le maxLine 1))
  have room := cut (message errnoflag strerror text)
  have ended : 0 ∉ (message errnoflag strerror text).take (maxLine - 2) ++ [newline] := by
    rw [List.mem_append, not_or]
    exact ⟨cutClean _ whole, by decide⟩
  have line := (appendText described ended (by rw [List.length_append, List.length_singleton]; omega)).2
  refine ⟨⟨second ++ copyTo ((message errnoflag strerror text).take (maxLine - 2)).length [newline, 0], _⟩,
    ?_, ?_, rfl⟩
  · rw [errDoit]
    simp only [made, start, taken, told, bind, Option.bind_some]
    exact congrArg (fun line => Option.bind line _) line
  · refine insideAppend kept (copyInside ?_)
    simp only [List.length_cons, List.length_nil]
    omega

theorem errDoitPrints (buf : Mem) (errnoflag : Bool) {strerror fmt : List Byte} {args : List (List Byte)}
    (clean : 0 ∉ fmt) (given : ∀ arg ∈ strerror :: args, 0 ∉ arg) :
    (errDoit buf errnoflag strerror fmt args).map Said.line =
        (formatted fmt args).map (fun text =>
          (message errnoflag strerror text).take (maxLine - 2) ++ [newline]) ∧
      ∀ said ∈ errDoit buf errnoflag strerror fmt args, Inside said.stores := by
  cases made : formatted fmt args with
  | none =>
    have undefined : errDoit buf errnoflag strerror fmt args = none := by
      rw [errDoit, made]
      rfl
    rw [undefined]
    exact ⟨rfl, fun said mem => by cases mem⟩
  | some text =>
    have plain := formattedClean clean (fun arg mem => given arg (List.mem_cons_of_mem _ mem)) made
    obtain ⟨said, done, inside, line⟩ :=
      errDoitText buf errnoflag made plain (given strerror List.mem_cons_self)
    rw [done]
    refine ⟨by rw [Option.map_some, Option.map_some, line], fun other mem => ?_⟩
    cases Option.some.inj mem
    exact inside

theorem longCut : (errQuit (fun _ => 255) [percent, conversion] [List.replicate 5000 97]).map Said.line =
    some (List.replicate 4094 97 ++ [newline]) := by
  have plain : (0 : Byte) ∉ List.replicate 5000 (97 : Byte) :=
    fun mem => absurd (List.eq_of_mem_replicate mem) (by decide)
  have prints := (@errDoitPrints (fun _ => 255) false [] [percent, conversion] [List.replicate 5000 97]
    (by decide) (List.forall_mem_cons.mpr ⟨List.not_mem_nil, List.forall_mem_singleton.mpr plain⟩)).1
  have made := @formattedName [] (by decide) (List.replicate 5000 97)
  rw [errQuit, prints, made, Option.map_some, message, if_neg Bool.false_ne_true, List.append_nil,
    List.append_nil, List.take_replicate]
  rfl

theorem bareFormat (buf : Mem) (words : List Byte) :
    errQuit buf (percent :: conversion :: words) [] = none := rfl

end OsLabs.ErrDoit
