import OsLabs.CMemory
import OsLabs.Runs
import OsLabs.SharedStream

/-! app1.c and app1_threads.c of lab_05: two stdio streams over one descriptor. A label
names the reader that steps and how much its read fetches, if its buffer is empty. -/
namespace OsLabs.TwoStreams
open CMemory Runs SharedStream

inductive Stream where
  | fs1
  | fs2
  deriving DecidableEq, Repr

def buffSize : Nat := 18

abbrev Streams := Pool Stream Byte

/- What the program has written to stdout: RED for fs1, GREEN for fs2. -/
abbrev Printed := List (Stream × Byte)

structure Reading where
  pool : Streams
  printed : Printed
  stopped : Stream → Bool

def Reading.start : Reading := ⟨Pool.start, [], fun _ => false⟩

def scan (file : List Byte) (s : Reading) (a : Stream × Nat) : Option Reading :=
  (readOne file buffSize s.pool a.1 a.2).map fun out => match out.1 with
    | some c => ⟨out.2, s.printed ++ [(a.1, c)], s.stopped⟩
    | none => ⟨out.2, s.printed, Function.update s.stopped a.1 true⟩

structure Divided (file : List Byte) (blocks : List (Stream × List Byte)) (printed : Printed) :
    Prop where
  whole : (blocks.map Prod.snd).flatten = file
  sized : ∀ b ∈ blocks, b.2 ≠ [] ∧ b.2.length ≤ buffSize
  own : ∀ i, owned printed i = (owned blocks i).flatten
  once : (printed.map Prod.snd).Perm file

structure Printing (file : List Byte) (pool : Streams) (printed : Printed)
    (hand : Stream → List Byte) (stopped : Stream → Prop) : Prop where
  consistent : Consistent file buffSize pool
  share : ∀ i, owned printed i ++ hand i = pool.taken i
  ended : ∀ i, stopped i → Exhausted file pool i

theorem startPrinting (file : List Byte) :
    Printing file Pool.start [] (fun _ => []) (fun _ => False) :=
  ⟨startConsistent file buffSize, fun _ => rfl, fun _ stopped => stopped.elim⟩

theorem printingFill {file : List Byte} {pool next : Streams} {printed : Printed}
    {hand : Stream → List Byte} {stopped : Stream → Prop} {i : Stream} {k : Nat}
    (printing : Printing file pool printed hand stopped)
    (filled : fill file buffSize pool i k = some next) : Printing file next printed hand stopped := by
  obtain ⟨taken, _, _⟩ := fillKeeps filled
  exact ⟨fillConsistent printing.consistent filled, by simpa only [taken] using printing.share,
    fun j here => exhaustedFill (printing.ended j here) filled⟩

theorem printingTake {file : List Byte} {pool next : Streams} {printed : Printed}
    {hand : Stream → List Byte} {stopped : Stream → Prop} {i : Stream} {c : Byte}
    (printing : Printing file pool printed hand stopped) (took : takeOne pool i = some (c, next)) :
    Printing file next printed (Function.update hand i (hand i ++ [c])) stopped := by
  obtain ⟨here, _, others⟩ := takeKeeps took
  refine ⟨takeConsistent printing.consistent took, fun j => ?_,
    fun j ended => exhaustedTake (printing.ended j ended) took⟩
  by_cases same : j = i
  · subst same
    rw [Function.update_self, here, ← printing.share j, List.append_assoc]
  · rw [Function.update_of_ne same, (others j same).2]
    exact printing.share j

theorem printingPrint {file : List Byte} {pool : Streams} {printed : Printed}
    {hand : Stream → List Byte} {stopped : Stream → Prop} {i : Stream} {c : Byte} {rest : List Byte}
    (printing : Printing file pool printed hand stopped) (held : hand i = c :: rest) :
    Printing file pool (printed ++ [(i, c)]) (Function.update hand i rest) stopped := by
  refine ⟨printing.consistent, fun j => ?_, printing.ended⟩
  by_cases same : j = i
  · subst same
    rw [Function.update_self, ownedHere, ← printing.share j, held]
    simp
  · rw [Function.update_of_ne same, ownedOther printed (Ne.symm same)]
    exact printing.share j

theorem printingStops {file : List Byte} {pool : Streams} {printed : Printed}
    {hand : Stream → List Byte} {stopped more : Stream → Prop}
    (printing : Printing file pool printed hand stopped)
    (ended : ∀ i, more i → stopped i ∨ Exhausted file pool i) :
    Printing file pool printed hand more :=
  ⟨printing.consistent, printing.share, fun i here => (ended i here).elim (printing.ended i) id⟩

theorem printingRead {file : List Byte} {pool next : Streams} {printed : Printed}
    {hand : Stream → List Byte} {stopped : Stream → Prop} {i : Stream} {k : Nat}
    {out : Option Byte} (printing : Printing file pool printed hand stopped) (free : hand i = [])
    (read : readOne file buffSize pool i k = some (out, next)) :
    out = none ∧ Printing file next printed hand (fun j => stopped j ∨ j = i) ∨
      ∃ c, out = some c ∧ Printing file next printed (Function.update hand i [c]) stopped := by
  rcases readCases read with ⟨answer, rfl, ended⟩ | ⟨c, u, answer, filled, took⟩
  · refine .inl ⟨answer, printingStops printing ?_⟩
    rintro j (before | rfl)
    · exact .inl before
    · exact .inr ended
  · have taken := printingTake (printingFill printing filled) took
    rw [free, List.nil_append] at taken
    exact .inr ⟨c, answer, taken⟩

theorem printingScan {file : List Byte} {pool next : Streams} {printed : Printed}
    {stopped : Stream → Prop} {i : Stream} {k : Nat} {out : Option Byte}
    (printing : Printing file pool printed (fun _ => []) stopped)
    (read : readOne file buffSize pool i k = some (out, next)) :
    Printing file next (printed ++ out.toList.map (fun c => (i, c))) (fun _ => [])
      (fun j => stopped j ∨ j = i ∧ out = none) := by
  rcases printingRead printing rfl read with ⟨rfl, ended⟩ | ⟨c, rfl, taken⟩
  · simpa using ended
  · have held : Function.update (fun _ => []) i [c] i = c :: [] := Function.update_self _ _ _
    have shown := printingPrint taken held
    rw [Function.update_idem, Function.update_eq_self i (fun _ => [])] at shown
    simpa using shown

theorem twoStreams {α : Type} (log : List (Stream × α)) : ∀ e ∈ log, e.1 = .fs1 ∨ e.1 = .fs2 := by
  intro e _
  cases e.1 with
  | fs1 => exact .inl rfl
  | fs2 => exact .inr rfl

theorem printingDivides {file : List Byte} {pool : Streams} {printed : Printed}
    {hand : Stream → List Byte} {stopped : Stream → Prop}
    (printing : Printing file pool printed hand stopped) (done : ∀ i, stopped i)
    (empty : ∀ i, hand i = []) : Divided file pool.blocks printed := by
  have nonempty : Nonempty Stream := ⟨.fs1⟩
  obtain ⟨whole, taken⟩ := exhaustedCovers printing.consistent (fun i => printing.ended i (done i))
  have own : ∀ i, owned printed i = (owned pool.blocks i).flatten := by
    intro i
    rw [← taken i, ← printing.share i, empty i, List.append_nil]
  refine ⟨whole, printing.consistent.sized, own, ?_⟩
  have apart : Stream.fs1 ≠ Stream.fs2 := by decide
  have left := ownedPerm apart (twoStreams printed)
  have right := (ownedPerm apart (twoStreams pool.blocks)).flatten
  rw [own, own, ← List.flatten_append] at left
  rw [whole] at right
  exact left.trans right.symm

theorem scanPrinting {file : List Byte} {s u : Reading} {a : Stream × Nat}
    (printing : Printing file s.pool s.printed (fun _ => []) (fun i => s.stopped i = true))
    (taken : scan file s a = some u) :
    Printing file u.pool u.printed (fun _ => []) (fun i => u.stopped i = true) := by
  obtain ⟨⟨out, next⟩, read, same⟩ := Option.map_eq_some_iff.mp taken
  have scanned := printingScan printing read
  rw [← same]
  cases out with
  | some c => exact printingStops scanned (fun j here => .inl (.inl here))
  | none =>
    rw [Option.toList_none, List.map_nil, List.append_nil] at scanned
    refine printingStops scanned (fun j stopped => .inl ?_)
    by_cases here : j = a.1
    · exact .inr ⟨here, rfl⟩
    · exact .inl (by simpa only [Function.update_of_ne here] using stopped)

/- main of app1.c. The two reads of an iteration follow one another, and the loop goes on
while one of them has succeeded. -/
inductive Pc where
  | test
  | first
  | second
  | finished
  deriving DecidableEq, Repr

structure App1 where
  pool : Streams
  printed : Printed
  rc1 : Int
  rc2 : Int
  pc : Pc

def App1.start : App1 := ⟨Pool.start, [], 1, 1, .test⟩

def app1Step (file : List Byte) (s : App1) (k : Nat) : Option App1 :=
  match s.pc with
  | .test => some {s with pc := if s.rc1 = 1 ∨ s.rc2 = 1 then .first else .finished}
  | .first => (readOne file buffSize s.pool .fs1 k).map fun out => match out.1 with
      | some c => {s with pool := out.2, rc1 := 1, printed := s.printed ++ [(.fs1, c)], pc := .second}
      | none => {s with pool := out.2, rc1 := -1, pc := .second}
  | .second => (readOne file buffSize s.pool .fs2 k).map fun out => match out.1 with
      | some c => {s with pool := out.2, rc2 := 1, printed := s.printed ++ [(.fs2, c)], pc := .test}
      | none => {s with pool := out.2, rc2 := -1, pc := .test}
  | .finished => none

def App1.failed (s : App1) : Stream → Prop
  | .fs1 => s.rc1 ≠ 1
  | .fs2 => s.rc2 ≠ 1

structure Alternating (file : List Byte) (s : App1) : Prop where
  printing : Printing file s.pool s.printed (fun _ => []) s.failed
  last : s.pc = .finished → ∀ i, s.failed i

theorem app1Scanned {file : List Byte} {s u : App1} {i : Stream} {k : Nat} {out : Option Byte}
    (printing : Printing file s.pool s.printed (fun _ => []) s.failed)
    (read : readOne file buffSize s.pool i k = some (out, u.pool))
    (printed : u.printed = s.printed ++ out.toList.map (fun c => (i, c)))
    (own : u.failed i → out = none) (others : ∀ j, j ≠ i → u.failed j → s.failed j) :
    Printing file u.pool u.printed (fun _ => []) u.failed := by
  rw [printed]
  refine printingStops (printingScan printing read) (fun j failed => .inl ?_)
  by_cases here : j = i
  · subst here
    exact .inr ⟨rfl, own failed⟩
  · exact .inl (others j here failed)

theorem app1Alternating {file : List Byte} {s u : App1} {k : Nat} (alternating : Alternating file s)
    (taken : app1Step file s k = some u) : Alternating file u := by
  obtain ⟨printing, last⟩ := alternating
  unfold app1Step at taken
  cases pc : s.pc with
  | test =>
    rw [pc] at taken
    cases Option.some.inj taken
    refine ⟨printing, fun finished i => ?_⟩
    have failed : ¬ (s.rc1 = 1 ∨ s.rc2 = 1) := by
      intro succeeded
      simp [succeeded] at finished
    cases i with
    | fs1 => exact fun rc => failed (.inl rc)
    | fs2 => exact fun rc => failed (.inr rc)
  | first =>
    rw [pc] at taken
    obtain ⟨⟨out, next⟩, read, same⟩ := Option.map_eq_some_iff.mp taken
    have others : ∀ t : App1, t.rc2 = s.rc2 → ∀ j, j ≠ .fs1 → t.failed j → s.failed j := by
      intro t kept j other failed
      cases j with
      | fs1 => exact absurd rfl other
      | fs2 => exact fun rc => failed (kept.trans rc)
    cases out with
    | some c =>
      cases same
      exact ⟨app1Scanned printing read rfl (fun failed => absurd rfl failed) (others _ rfl),
        fun finished => by cases finished⟩
    | none =>
      cases same
      exact ⟨app1Scanned printing read (List.append_nil _).symm (fun _ => rfl) (others _ rfl),
        fun finished => by cases finished⟩
  | second =>
    rw [pc] at taken
    obtain ⟨⟨out, next⟩, read, same⟩ := Option.map_eq_some_iff.mp taken
    have others : ∀ t : App1, t.rc1 = s.rc1 → ∀ j, j ≠ .fs2 → t.failed j → s.failed j := by
      intro t kept j other failed
      cases j with
      | fs1 => exact fun rc => failed (kept.trans rc)
      | fs2 => exact absurd rfl other
    cases out with
    | some c =>
      cases same
      exact ⟨app1Scanned printing read rfl (fun failed => absurd rfl failed) (others _ rfl),
        fun finished => by cases finished⟩
    | none =>
      cases same
      exact ⟨app1Scanned printing read (List.append_nil _).symm (fun _ => rfl) (others _ rfl),
        fun finished => by cases finished⟩
  | finished =>
    rw [pc] at taken
    contradiction

/- app1_threads.c: main reads fs1 and launchThread fs2, each in a loop of its own. -/
def isSpace (b : Byte) : Bool := b = 32 ∨ 9 ≤ b ∧ b ≤ 13

/- Where a thread is: in the "%c" of its format, in the "\n" after it, which skips white
space and so looks at one more character, before its fprintf, or out of the loop. -/
inductive Place where
  | scanning
  | skipping (c : Byte)
  | printing (c : Byte)
  | returned
  deriving DecidableEq, Repr

structure Threads where
  pool : Streams
  printed : Printed
  place : Stream → Place

def Threads.start : Threads := ⟨Pool.start, [], fun _ => .scanning⟩

def Threads.move (s : Threads) (pool : Streams) (i : Stream) (place : Place) : Threads :=
  {s with pool := pool, place := Function.update s.place i place}

def threadStep (file : List Byte) (s : Threads) (a : Stream × Nat) : Option Threads :=
  match s.place a.1 with
  | .scanning => (readOne file buffSize s.pool a.1 a.2).map fun out => match out.1 with
      | some c => s.move out.2 a.1 (.skipping c)
      | none => s.move out.2 a.1 .returned
  | .skipping c =>
      if Exhausted file s.pool a.1 then some (s.move s.pool a.1 (.printing c))
      else (fill file buffSize s.pool a.1 a.2).bind fun pool => (takeOne pool a.1).map fun out =>
        if isSpace out.1 then {s with pool := out.2} else s.move pool a.1 (.printing c)
  | .printing c => some {s.move s.pool a.1 .scanning with printed := s.printed ++ [(a.1, c)]}
  | .returned => none

def Place.hand : Place → List Byte
  | .skipping c => [c]
  | .printing c => [c]
  | .scanning => []
  | .returned => []

def Threads.Printing (file : List Byte) (s : Threads) : Prop :=
  TwoStreams.Printing file s.pool s.printed (Place.hand ∘ s.place) (fun i => s.place i = .returned)

theorem moveReturned {s : Threads} {pool : Streams} {i j : Stream} {place : Place}
    (returned : (s.move pool i place).place j = .returned) :
    s.place j = .returned ∨ j = i ∧ place = .returned := by
  by_cases here : j = i
  · subst here
    exact .inr ⟨rfl, (Function.update_self _ _ _).symm.trans returned⟩
  · exact .inl ((Function.update_of_ne here _ _).symm.trans returned)

theorem takeBuffered {pool next : Streams} {i : Stream} {c : Byte}
    (took : takeOne pool i = some (c, next)) : c ∈ pool.buffer i := by
  unfold takeOne at took
  split at took
  · contradiction
  · rename_i filled
    cases Option.some.inj took
    rw [filled]
    exact List.mem_cons_self

theorem threadPrinting {file : List Byte} (solid : ∀ b ∈ file, isSpace b = false) {s u : Threads}
    {a : Stream × Nat} (printing : s.Printing file) (taken : threadStep file s a = some u) :
    u.Printing file := by
  have hands : ∀ (pool : Streams) (place : Place), Place.hand ∘ (s.move pool a.1 place).place =
      Function.update (Place.hand ∘ s.place) a.1 place.hand :=
    fun pool place => Function.comp_update _ _ _ _
  unfold threadStep at taken
  cases here : s.place a.1 with
  | scanning =>
    simp only [here] at taken
    obtain ⟨⟨out, next⟩, read, same⟩ := Option.map_eq_some_iff.mp taken
    have free : (Place.hand ∘ s.place) a.1 = [] := by simp [here, Place.hand]
    rw [← same]
    rcases printingRead printing free read with ⟨rfl, ended⟩ | ⟨c, rfl, held⟩
    · unfold Threads.Printing
      rw [hands, Place.hand, ← free, Function.update_eq_self]
      exact printingStops ended (fun j returned => .inl ((moveReturned returned).imp_right And.left))
    · unfold Threads.Printing
      rw [hands]
      exact printingStops held (fun j returned => .inl
        ((moveReturned returned).resolve_right (fun both => by cases both.2)))
  | skipping c =>
    simp only [here] at taken
    have held : (Place.hand ∘ s.place) a.1 = [c] := by simp [here, Place.hand]
    have moved : ∀ pool, TwoStreams.Printing file pool s.printed (Place.hand ∘ s.place)
        (fun i => s.place i = .returned) → (s.move pool a.1 (.printing c)).Printing file := by
      intro pool before
      unfold Threads.Printing
      rw [hands, Place.hand, ← held, Function.update_eq_self]
      exact printingStops before (fun j returned => .inl
        ((moveReturned returned).resolve_right (fun both => by cases both.2)))
    split at taken
    · cases Option.some.inj taken
      exact moved s.pool printing
    · obtain ⟨pool, filled, rest⟩ := Option.bind_eq_some_iff.mp taken
      obtain ⟨⟨d, next⟩, took, same⟩ := Option.map_eq_some_iff.mp rest
      have before := printingFill printing filled
      have inside := bufferedInside before.consistent (takeBuffered took)
      rw [if_neg (by simp [solid d inside])] at same
      rw [← same]
      exact moved pool before
  | printing c =>
    simp only [here] at taken
    cases Option.some.inj taken
    have held : (Place.hand ∘ s.place) a.1 = [c] := by simp [here, Place.hand]
    have shown := printingPrint printing held
    unfold Threads.Printing
    simp only [hands]
    exact printingStops shown (fun j returned => .inl
      ((moveReturned returned).resolve_right (fun both => by cases both.2)))
  | returned =>
    rw [here] at taken
    contradiction

theorem streamsDivide (file : List Byte) :
    (∀ labels last, Run (scan file) (fun _ _ => True) Reading.start labels last →
      (∀ i, last.stopped i = true) → Divided file last.pool.blocks last.printed) ∧
    (∀ labels last, Run (app1Step file) (fun _ _ => True) App1.start labels last →
      last.pc = .finished → Divided file last.pool.blocks last.printed) ∧
    ((∀ b ∈ file, isSpace b = false) → ∀ labels last,
      Run (threadStep file) (fun _ _ => True) Threads.start labels last →
      (∀ i, last.place i = .returned) → Divided file last.pool.blocks last.printed) := by
  refine ⟨?_, ?_, ?_⟩
  · intro labels last run stopped
    have printing := runInvariant (fun s => Printing file s.pool s.printed (fun _ => [])
      (fun i => s.stopped i = true)) (fun _ _ _ before _ taken => scanPrinting before taken) run
      (printingStops (startPrinting file) (fun i stopped => by cases stopped))
    exact printingDivides printing stopped (fun _ => rfl)
  · intro labels last run finished
    have alternating := runInvariant (Alternating file)
      (fun _ _ _ before _ taken => app1Alternating before taken) run
      ⟨printingStops (startPrinting file) (fun i failed => by cases i <;> exact absurd rfl failed),
        fun finished => by cases finished⟩
    exact printingDivides alternating.printing (alternating.last finished) (fun _ => rfl)
  · intro solid labels last run returned
    have printing := runInvariant (Threads.Printing file)
      (fun _ _ _ before _ taken => threadPrinting solid before taken) run
      (printingStops (startPrinting file) (fun i returned => by cases returned))
    exact printingDivides printing returned (fun i => by simp [returned i, Place.hand])

def abc : List Byte := [97, 98, 99]

def abcScans : List (Stream × Nat) :=
  [(.fs1, 2), (.fs2, 1), (.fs2, 0), (.fs1, 0), (.fs1, 0)]
def abcLoops : List Nat := [0, 2, 1, 0, 0, 0, 0, 0, 0, 0]
def abcThreads : List (Stream × Nat) :=
  [(.fs1, 2), (.fs2, 1), (.fs1, 0), (.fs1, 0), (.fs1, 0), (.fs2, 0), (.fs2, 0), (.fs2, 0), (.fs1, 0),
    (.fs1, 0), (.fs1, 0)]

theorem abcDivided :
    (∃ last, Run (scan abc) (fun _ _ => True) Reading.start abcScans last ∧
      Divided abc last.pool.blocks last.printed) ∧
    (∃ last, Run (app1Step abc) (fun _ _ => True) App1.start abcLoops last ∧
      Divided abc last.pool.blocks last.printed) ∧
    (∃ last, Run (threadStep abc) (fun _ _ => True) Threads.start abcThreads last ∧
      Divided abc last.pool.blocks last.printed) := by
  obtain ⟨scans, loops, threads⟩ := streamsDivide abc
  refine ⟨?_, ?_, ?_⟩
  · obtain ⟨last, run, both⟩ := checkedEnd (scan abc) (fun _ _ => True) Reading.start abcScans
      (fun s => (s.stopped .fs1, s.stopped .fs2)) (true, true) (by decide +kernel)
    rw [Prod.mk.injEq] at both
    exact ⟨last, run, scans _ last run (fun i => by
      cases i
      · exact both.1
      · exact both.2)⟩
  · obtain ⟨last, run, pc⟩ := checkedEnd (app1Step abc) (fun _ _ => True) App1.start abcLoops
      App1.pc .finished (by decide +kernel)
    exact ⟨last, run, loops _ last run pc⟩
  · obtain ⟨last, run, both⟩ := checkedEnd (threadStep abc) (fun _ _ => True) Threads.start abcThreads
      (fun s => (s.place .fs1, s.place .fs2)) (.returned, .returned) (by decide +kernel)
    rw [Prod.mk.injEq] at both
    exact ⟨last, run, threads (by simp [abc, isSpace]) _ last run (fun i => by
      cases i
      · exact both.1
      · exact both.2)⟩

end OsLabs.TwoStreams
