import OsLabs.CInteger
import OsLabs.DescriptorTable
import OsLabs.ErrDoit
import OsLabs.TextColumns
import OsLabs.WhileLoop

/-! daemonize of lab_01, from any table of open descriptors, with any limits and any answers of
the system calls. umask, sigemptyset and openlog do not fail, and close frees its descriptor
whatever it returns. -/
namespace OsLabs.Daemonize
open CInteger CMemory DescriptorTable ErrDoit Printf WhileLoop
open ProcInfo (textBytes newline)
open TextColumns (intText)

def rlimInfinity : Nat := 2^64 - 1

/- The kernel keeps rlim_cur at or below rlim_max. -/
structure Limits where
  cur : Nat
  max : Nat
  ordered : cur ≤ max
  range : max < 2^64

inductive Fork where
  | fails
  | parent
  | child
  deriving DecidableEq, Repr

structure Answers where
  getrlimit : Option Limits
  fork : Fork
  setsid : Bool
  sigaction : Bool
  chdir : Bool
  devNull : Bool

inductive File (α : Type*) where
  | inherited (file : α)
  | devNull
  deriving DecidableEq, Repr

/- The leader of a session of its own has no controlling terminal. -/
structure Process (α : Type*) where
  umask : Nat
  leader : Bool
  ignoresHangup : Bool
  cwd : List Byte
  fds : Table (File α)
  log : Option (List Byte)

inductive Failure where
  | getrlimit
  | fork
  | setsid
  | sigaction
  | chdir
  deriving DecidableEq, Repr

def Failure.words : Failure → List Byte
  | .getrlimit => textBytes ": невозможно получить максимальный номер дескриптора"
  | .fork => textBytes ": ошибка вызова функции fork"
  | .setsid => textBytes ": ошибка setsid"
  | .sigaction => textBytes ": невозможно игнорировать сигнал SIGHUP"
  | .chdir => textBytes ": невозможно сделать текущим рабочим каталогом /"

/- How a process leaves daemonize: the parent by exit(0), a failure by exit(1) behind a line to
stderr or to the log, and the daemon by the return. -/
inductive Outcome (α : Type*) where
  | leaves
  | quits (stderr : Option (File α)) (line : List Byte)
  | refuses (line : List Byte)
  | returns (p : Process α)

section Run
variable {α : Type*}

structure Closing (α : Type*) where
  i : Int
  fds : Table (File α)

/- The int is compared as an rlim_t. -/
def closingDone (bound : Nat) (s : Closing α) : Bool := bound ≤ toULong s.i

def closeTurn (s : Closing α) : Except Empty (Closing α) :=
  .ok ⟨toInt (s.i + 1), if s.i < 0 then s.fds else close s.fds s.i.toNat⟩

/- for (int i = 0; i < rl.rlim_max; i++) close(i); no int is met twice. -/
def closeAll (bound : Nat) (fds : Table (File α)) : Option (Table (File α)) :=
  match whileLoop (closingDone bound) closeTurn (2^32 + 1) ⟨0, fds⟩ with
  | some (.ok s) => some s.fds
  | _ => none

def Limits.closes (l : Limits) : Nat := if l.max = rlimInfinity then 1024 else l.max

def descriptor (made : Option (Nat × Table (File α))) (fds : Table (File α)) : Int × Table (File α) :=
  match made with
  | some (fd, grown) => (fd, grown)
  | none => (-1, fds)

def refusal (fd0 fd1 fd2 : Int) : List Byte :=
  textBytes "ошибочные файловые дескрипторы " ++ intText fd0 ++ textBytes " " ++ intText fd1 ++ textBytes " " ++
    intText fd2

def attach (cmd : List Byte) (limit : Nat) (devNull : Bool) (p : Process α) : Outcome α :=
  let fd0 := descriptor (if devNull then install p.fds limit .devNull else none) p.fds
  let fd1 := descriptor (dup fd0.2 limit 0) fd0.2
  let fd2 := descriptor (dup fd1.2 limit 0) fd1.2
  if fd0.1 ≠ 0 ∨ fd1.1 ≠ 1 ∨ fd2.1 ≠ 2 then .refuses (refusal fd0.1 fd1.1 fd2.1)
  else .returns {p with fds := fd2.2, log := some cmd}

def quit (buf : Mem) (cmd : List Byte) (p : Process α) (f : Failure) : Option (Outcome α) :=
  (errQuit buf (percent :: conversion :: f.words) [cmd]).map fun said => .quits (p.fds 2) said.line

def root : List Byte := textBytes "/"

def daemonize (buf : Mem) (cmd : List Byte) (a : Answers) (p : Process α) : Option (Outcome α) :=
  let p := {p with umask := 0}
  match a.getrlimit with
  | none => quit buf cmd p .getrlimit
  | some rl => match a.fork with
    | .fails => quit buf cmd p .fork
    | .parent => some .leaves
    | .child =>
        if a.setsid = false then quit buf cmd p .setsid
        else if a.sigaction = false then quit buf cmd {p with leader := true} .sigaction
        else if a.chdir = false then quit buf cmd {p with leader := true, ignoresHangup := true} .chdir
        else (closeAll rl.closes p.fds).map fun fds =>
          attach cmd rl.cur a.devNull {p with leader := true, ignoresHangup := true, cwd := root, fds := fds}

def turns (i : Int) : Nat := if 0 ≤ i then i.toNat else (i + 2^32).toNat

structure Closed (bound : Nat) (old : Table (File α)) (s : Closing α) : Prop where
  low : -2^31 ≤ s.i
  high : s.i < 2^31
  reached : min (turns s.i) (2^31) ≤ bound
  fds : s.fds = closedBelow old (min (turns s.i) (2^31))

theorem turnsFrom {i : Int} (pos : 0 ≤ i) : turns i = i.toNat := if_pos pos

theorem turnsWrapped {i : Int} (neg : i < 0) : turns i = (i + 2^32).toNat := if_neg (Int.not_le.mpr neg)

theorem toULongWrapped {i : Int} (low : -2^31 ≤ i) (neg : i < 0) : toULong i = turns i + (2^64 - 2^32) := by
  rw [turnsWrapped neg]
  unfold toULong
  omega

theorem toIntNext {i : Int} (low : -2^31 ≤ i) (high : i < 2^31) :
    toInt (i + 1) = if i = 2^31 - 1 then -2^31 else i + 1 := by
  unfold toInt
  split <;> omega

theorem closingTurn {bound : Nat} {old : Table (File α)} {s : Closing α} (closed : Closed bound old s)
    (range : bound < 2^64) (more : closingDone bound s = false) :
    ∃ t, closeTurn s = .ok t ∧ Closed bound old t ∧ 2^32 - turns t.i < 2^32 - turns s.i := by
  obtain ⟨low, high, reached, fds⟩ := closed
  have below : toULong s.i < bound := Nat.lt_of_not_le (of_decide_eq_false more)
  have next := toIntNext low high
  rcases Int.lt_or_le s.i 0 with neg | pos
  · rw [toULongWrapped low neg] at below
    have here := turnsWrapped neg
    rw [if_neg (by omega)] at next
    have later : turns (toInt (s.i + 1)) = turns s.i + 1 := by
      rw [next, turnsWrapped (by omega)]
      omega
    have all : min (turns s.i + 1) (2^31) = min (turns s.i) (2^31) := by omega
    refine ⟨_, rfl, ⟨(toIntRange _).1, (toIntRange _).2, ?_, ?_⟩, ?_⟩
    · rw [later, all]
      exact reached
    · rw [if_pos neg, later, all]
      exact fds
    · dsimp only
      rw [later]
      omega
  · have here := turnsFrom pos
    have later : turns (toInt (s.i + 1)) = turns s.i + 1 := by
      rw [next]
      split
      · rw [turnsWrapped (by decide)]
        omega
      · rw [turnsFrom (by omega)]
        omega
    have value : (toULong s.i : Int) = s.i := toULongExact pos (by omega)
    have low : min (turns s.i) (2^31) = s.i.toNat := by omega
    have more : min (turns s.i + 1) (2^31) = s.i.toNat + 1 := by omega
    refine ⟨_, rfl, ⟨(toIntRange _).1, (toIntRange _).2, ?_, ?_⟩, ?_⟩
    · rw [later, more]
      omega
    · rw [if_neg (Int.not_lt.mpr pos), later, more, fds, low, closeNext]
    · dsimp only
      rw [later]
      omega

theorem closeAllExactly {bound : Nat} (range : bound < 2^64) (old : Table (File α)) :
    closeAll bound old = some (closedBelow old (min bound (2^31))) := by
  have start : Closed bound old (⟨0, old⟩ : Closing α) :=
    ⟨(by decide : (-2^31 : Int) ≤ 0), (by decide : (0 : Int) < 2^31), Nat.zero_le _, rfl⟩
  obtain ⟨s, closed, ended, runs⟩ := whileTotal (Closed bound old) (fun s => 2^32 - turns s.i)
    (fun s closed more => closingTurn closed range more) start
  have done := runs (2^32 + 1) (Nat.lt_succ_of_le (Nat.sub_le _ _))
  have behind : bound ≤ toULong s.i := of_decide_eq_true ended
  have same : min (turns s.i) (2^31) = min bound (2^31) := by
    have reached := closed.reached
    rcases Int.lt_or_le s.i 0 with neg | pos
    · have here := turnsWrapped neg
      have low := closed.low
      omega
    · have here := turnsFrom pos
      have high := closed.high
      have value : (toULong s.i : Int) = s.i := toULongExact pos (by omega)
      omega
  rw [closeAll, done]
  dsimp only
  rw [closed.fds, same]

def answer (limit k : Nat) : Int := if k < limit then k else -1

variable {fds : Table (File α)} {limit : Nat}

theorem openFirst (file : File α) (free : 0 < limit → fds 0 = none) :
    descriptor (install fds limit file) fds = (answer limit 0, filledBelow fds (min limit 1) file) := by
  rcases Nat.eq_zero_or_pos limit with rfl | positive
  · have full := @installFull _ fds 0 file 0 (Nat.le_refl 0) file
    rw [filledNone] at full
    rw [full]
    rfl
  · have first := @installNext _ fds limit file 0 positive (free positive)
    rw [filledNone] at first
    have one : min limit 1 = 0 + 1 := by omega
    rw [first, answer, if_pos positive, one]
    rfl

theorem dupNext {k : Nat} (file : File α) (behind : 0 < k) (free : k < limit → fds k = none) :
    descriptor (dup (filledBelow fds (min limit k) file) limit 0) (filledBelow fds (min limit k) file) =
      (answer limit k, filledBelow fds (min limit (k + 1)) file) := by
  by_cases below : k < limit
  · have here : min limit k = k := by omega
    have next : min limit (k + 1) = k + 1 := by omega
    rw [here, next, dup, filledAt behind, Option.bind_some, installNext below (free below), answer,
      if_pos below]
    rfl
  · have here : min limit k = limit := by omega
    have next : min limit (k + 1) = limit := by omega
    have full : dup (filledBelow fds limit file) limit 0 = none := by
      refine Option.bind_eq_none_iff.mpr fun other _ => installFull (Nat.le_refl limit) other
    rw [here, next, full, answer, if_neg below]
    rfl

theorem dupNone (free : 0 < limit → fds 0 = none) : dup fds limit 0 = none := by
  rcases Nat.eq_zero_or_pos limit with rfl | positive
  · refine Option.bind_eq_none_iff.mpr fun other _ => ?_
    have full := @installFull _ fds 0 other 0 (Nat.le_refl 0) other
    rwa [filledNone] at full
  · rw [dup, free positive]
    rfl

def asked (limit : Nat) (devNull : Bool) (k : Nat) : Int := if devNull then answer limit k else -1

theorem attachExactly (cmd : List Byte) (devNull : Bool) {p : Process α}
    (free : ∀ k < 3, k < limit → p.fds k = none) :
    attach cmd limit devNull p = if devNull = true ∧ 3 ≤ limit then
        .returns {p with fds := filledBelow p.fds 3 .devNull, log := some cmd}
      else .refuses (refusal (asked limit devNull 0) (asked limit devNull 1) (asked limit devNull 2)) := by
  cases devNull with
  | false =>
    have undone := dupNone (free 0 (by decide))
    simp only [attach, Bool.false_eq_true, if_false, undone, descriptor, asked, false_and]
    exact if_pos (.inl (by decide))
  | true =>
    have one := @openFirst _ p.fds limit .devNull (free 0 (by decide))
    have two := @dupNext _ p.fds limit 1 .devNull (by decide) (free 1 (by decide))
    have three := @dupNext _ p.fds limit 2 .devNull (by decide) (free 2 (by decide))
    simp only [attach, if_true, one, two, three, asked, true_and]
    by_cases enough : 3 ≤ limit
    · have all : ∀ k < 3, answer limit k = k := fun k below => if_pos (Nat.lt_of_lt_of_le below enough)
      rw [all 0 (by decide), all 1 (by decide), all 2 (by decide), Nat.min_eq_right enough, if_pos enough]
      rfl
    · have last : answer limit 2 = -1 := if_neg (by omega)
      rw [if_neg enough, last]
      exact if_pos (.inr (.inr (by decide)))

def Answers.failure (a : Answers) : Option Failure :=
  match a.getrlimit, a.fork with
  | none, _ => some .getrlimit
  | some _, .fails => some .fork
  | some _, .parent => none
  | some _, .child =>
      if a.setsid = false then some .setsid
      else if a.sigaction = false then some .sigaction
      else if a.chdir = false then some .chdir
      else none

def Limits.bound (l : Limits) : Nat := min l.closes (2^31)

structure Detached (cmd : List Byte) (l : Limits) (p q : Process α) : Prop where
  umask : q.umask = 0
  leader : q.leader = true
  ignoresHangup : q.ignoresHangup = true
  cwd : q.cwd = root
  log : q.log = some cmd
  standard : ∀ fd < 3, q.fds fd = some .devNull
  closed : ∀ fd, 3 ≤ fd → fd < l.bound → q.fds fd = none
  kept : ∀ fd, l.bound ≤ fd → q.fds fd = p.fds fd
  next : lowest q.fds l.cur = if l.cur = 3 then none else some 3

theorem quitLine (buf : Mem) {cmd : List Byte} (clean : 0 ∉ cmd) (p : Process α) (f : Failure) :
    quit buf cmd p f = some (.quits (p.fds 2) ((cmd ++ f.words).take (maxLine - 2) ++ [newline])) := by
  have words : percent ∉ f.words ∧ 0 ∉ f.words := by
    cases f with
    | getrlimit | fork | setsid | sigaction | chdir => decide +kernel
  have plain : 0 ∉ cmd ++ f.words := fun mem => (List.mem_append.mp mem).elim clean words.2
  obtain ⟨said, done, -, line⟩ :=
    errDoitText buf false (formattedName words.1 cmd) plain List.not_mem_nil
  rw [quit, errQuit, done, Option.map_some, line, message, if_neg Bool.false_ne_true, List.append_nil]

theorem closesEnough (l : Limits) {k : Nat} (small : k < 1024) (below : k < l.cur) : k < l.bound := by
  have ordered := l.ordered
  unfold Limits.bound Limits.closes
  split <;> omega

theorem detachedReturns (cmd : List Byte) (l : Limits) (p : Process α) (enough : 3 ≤ l.cur) :
    Detached cmd l p ⟨0, true, true, root, filledBelow (closedBelow p.fds l.bound) 3 .devNull, some cmd⟩ := by
  have three : 3 ≤ l.bound := closesEnough l (by decide) enough
  have taken : ∀ fd < 3, filledBelow (closedBelow p.fds l.bound) 3 .devNull fd ≠ none := by
    intro fd below
    rw [filledAt below]
    exact Option.some_ne_none _
  refine ⟨rfl, rfl, rfl, rfl, rfl, fun fd below => filledAt below, fun fd behind below => ?_,
    fun fd behind => ?_, ?_⟩
  · exact (filledBehind behind).trans (if_pos below)
  · exact (filledBehind (Nat.le_trans three behind)).trans (if_neg (Nat.not_lt.mpr behind))
  · by_cases last : l.cur = 3
    · rw [if_pos last, last]
      exact lowestNone.mpr taken
    · have room : 3 < l.cur := by omega
      rw [if_neg last]
      have free : filledBelow (closedBelow p.fds l.bound) 3 .devNull 3 = none :=
        (filledBehind (Nat.le_refl 3)).trans (if_pos (closesEnough l (by decide) room))
      exact lowestIs.mpr ⟨room, free, taken⟩

theorem childEnds (cmd : List Byte) (l : Limits) (devNull : Bool) (p : Process α) :
    ∃ o, ((closeAll l.closes p.fds).map fun fds =>
        attach cmd l.cur devNull ⟨0, true, true, root, fds, p.log⟩) = some o ∧
      (devNull = true ∧ 3 ≤ l.cur → ∃ q, o = .returns q ∧ Detached cmd l p q) ∧
      (¬ (devNull = true ∧ 3 ≤ l.cur) →
        o = .refuses (refusal (asked l.cur devNull 0) (asked l.cur devNull 1) (asked l.cur devNull 2))) := by
  have range : l.closes < 2^64 := by
    have range := l.range
    unfold Limits.closes
    split <;> omega
  have free : ∀ k < 3, k < l.cur → closedBelow p.fds l.bound k = none :=
    fun k small below => if_pos (closesEnough l (by omega) below)
  rw [closeAllExactly range, Option.map_some]
  refine ⟨_, rfl, fun serves => ?_, fun missing => ?_⟩
  · exact ⟨_, (attachExactly cmd devNull free).trans (if_pos serves), detachedReturns cmd l p serves.2⟩
  · exact (attachExactly cmd devNull free).trans (if_neg missing)

theorem failureQuits (buf : Mem) {cmd : List Byte} (clean : 0 ∉ cmd) {a : Answers} {f : Failure}
    (failed : a.failure = some f) (p : Process α) : daemonize buf cmd a p =
      some (.quits (p.fds 2) ((cmd ++ f.words).take (maxLine - 2) ++ [newline])) := by
  obtain ⟨getrlimit, fork, setsid, sigaction, chdir, devNull⟩ := a
  cases getrlimit with
  | none =>
    cases Option.some.inj failed
    exact quitLine buf clean _ .getrlimit
  | some l =>
    cases fork with
    | fails =>
      cases Option.some.inj failed
      exact quitLine buf clean _ .fork
    | parent => cases failed
    | child =>
      cases setsid with
      | false =>
        cases Option.some.inj failed
        exact quitLine buf clean _ .setsid
      | true =>
        cases sigaction with
        | false =>
          cases Option.some.inj failed
          exact quitLine buf clean _ .sigaction
        | true =>
          cases chdir with
          | false =>
            cases Option.some.inj failed
            exact quitLine buf clean _ .chdir
          | true => cases failed

theorem noFailure {a : Answers} (unfailing : a.failure = none) : ∃ l, a.getrlimit = some l ∧
    (a.fork = .child → ∀ (buf : Mem) (cmd : List Byte) (p : Process α), daemonize buf cmd a p =
      (closeAll l.closes p.fds).map fun fds =>
        attach cmd l.cur a.devNull ⟨0, true, true, root, fds, p.log⟩) := by
  obtain ⟨getrlimit, fork, setsid, sigaction, chdir, devNull⟩ := a
  cases getrlimit with
  | none => cases unfailing
  | some l =>
    refine ⟨l, rfl, fun child buf cmd p => ?_⟩
    cases child
    cases setsid with
    | false => cases unfailing
    | true =>
      cases sigaction with
      | false => cases unfailing
      | true =>
        cases chdir with
        | false => cases unfailing
        | true => rfl

theorem daemonizeEnds (buf : Mem) {cmd : List Byte} (clean : 0 ∉ cmd) (a : Answers) (p : Process α) :
    (∀ f, a.failure = some f → daemonize buf cmd a p =
      some (.quits (p.fds 2) ((cmd ++ f.words).take (maxLine - 2) ++ [newline]))) ∧
    (a.failure = none → ∃ l, a.getrlimit = some l ∧
      (a.fork = .parent → daemonize buf cmd a p = some .leaves) ∧
      (a.fork = .child → ∃ o, daemonize buf cmd a p = some o ∧
        (a.devNull = true ∧ 3 ≤ l.cur → ∃ q, o = .returns q ∧ Detached cmd l p q) ∧
        (¬ (a.devNull = true ∧ 3 ≤ l.cur) → o = .refuses
          (refusal (asked l.cur a.devNull 0) (asked l.cur a.devNull 1) (asked l.cur a.devNull 2))))) := by
  refine ⟨fun f failed => failureQuits buf clean failed p, fun unfailing => ?_⟩
  obtain ⟨l, limits, childs⟩ := @noFailure α a unfailing
  refine ⟨l, limits, fun parent => ?_, fun child => ?_⟩
  · simp only [daemonize, limits, parent]
  · rw [childs child buf cmd p]
    exact childEnds cmd l a.devNull p

end Run

def limits : Limits := ⟨4, 5, by decide, by decide⟩

def inherited : Table (File Nat) := fun fd => if fd < 8 then some (.inherited fd) else none

theorem fiveClosed : ∃ q, daemonize (fun _ => 255) (textBytes "my_daemon")
    ⟨some limits, .child, true, true, true, true⟩ ⟨18, false, false, [], inherited, none⟩ = some (.returns q) ∧
      q.fds 4 = none ∧ q.fds 5 = some (.inherited 5) := by
  have clean : 0 ∉ textBytes "my_daemon" := by decide +kernel
  obtain ⟨l, known, -, child⟩ := (daemonizeEnds (fun _ => 255) clean
    ⟨some limits, .child, true, true, true, true⟩ ⟨18, false, false, [], inherited, none⟩).2 rfl
  cases Option.some.inj known
  obtain ⟨o, done, returns, -⟩ := child rfl
  obtain ⟨q, rfl, detached⟩ := returns ⟨rfl, by decide⟩
  exact ⟨q, done, detached.closed 4 (by decide) (by decide), detached.kept 5 (by decide)⟩

end OsLabs.Daemonize
