import OsLabs.FtwCalls

/-! What becomes of a failing call in lab_02, over every run: of a malloc in push, pop and
ftw, of a call that leaves its errno behind, and of the first lstat, without which the table
of printStat divides by zero. -/
namespace OsLabs.FtwFailures
open CInteger Runs FtwCalls
open Ftw (Errno Mode Stats sumStat findPercent)

section Allocation
open LinkedStack (Stacked Keeps FailsCleanly)

theorem allocationsExactly {s t : LinkedStack.State} {calls : List LinkedStack.Call}
    {l : List LinkedStack.Item} {u : State} {replies : List Reply} (stacked : Stacked s l)
    (run : Run LinkedStack.step (fun _ _ => True) s calls t)
    (walk : Run step (fun _ _ => True) start replies u) :
    (Run LinkedStack.step Keeps s calls t ↔ Run LinkedStack.step FailsCleanly s calls t) ∧
      (u.pc ≠ .undefined .nullNode ↔ Run step Allocates start replies u) :=
  ⟨LinkedStack.keepsRun stacked run, nullNodeRun Pc.noConfusion walk⟩

def oneElement : LinkedStack.State :=
  LinkedStack.pushCall LinkedStack.start LinkedStack.shortName 1 (LinkedStack.stale 1)
    (some (LinkedStack.stale 2))

theorem oneElementStacked : Stacked oneElement [(LinkedStack.shortName.bytes, 1)] := by
  have fits : LinkedStack.shortName.bytes.length < Ftw.maxName := by decide
  exact (LinkedStack.pushCallStacked LinkedStack.startAlike.stacked fits (by decide)).1

def opening : List Reply := [.done, .path [47], .done, .done]

def entering : List Reply := [.mode .dir, .done, .done, .done, .done]

def denied : Errno := ⟨13, Nat.succ_ne_zero 12⟩

def atNull (s : State) : Bool :=
  match s.pc with
  | .undefined .nullNode => true
  | _ => false

theorem atNullPc {s : State} (null : atNull s = true) : s.pc = .undefined .nullNode := by
  unfold atNull at null
  split at null
  · assumption
  · cases null

theorem failedMallocsLose :
    (∃ s call u l, Stacked s l ∧ LinkedStack.step s call = some u ∧ ¬ Keeps s call) ∧
    ∃ replies t, Run step (fun _ _ => True) start replies t ∧ t.pc = .undefined .nullNode := by
  constructor
  · have taken : LinkedStack.step oneElement (.pop none) =
        some (LinkedStack.popCall oneElement none) := rfl
    refine ⟨oneElement, .pop none, _, _, oneElementStacked, taken, fun keeps => ?_⟩
    rcases (LinkedStack.keepsHere oneElementStacked taken).mp keeps with given | empty
    · cases given
    · cases (LinkedStack.stackedNull oneElementStacked).mp empty
  · obtain ⟨t, run, null⟩ := checkedEnd step (fun _ _ => True) start
      (opening ++ entering ++ [.entry [97], .fails noMemory]) atNull true (by decide +kernel)
    exact ⟨_, t, run, atNullPc null⟩

def refusedPush : List LinkedStack.Call :=
  [.push LinkedStack.dotdotName (-1) (LinkedStack.stale 3) none,
   .push LinkedStack.dotdotName 7 (LinkedStack.stale 4) (some (LinkedStack.stale 5)),
   .pop (some (LinkedStack.stale 6))]

def refusedWalk : List Reply :=
  opening ++ entering ++ [.entry [97], .done, .fails noMemory, .entry [98], .done, .done, .atEnd, .done,
    .done, .mode (.file .reg), .done, .done, .done]

theorem refusedPushKeeps : ∃ t u, Run LinkedStack.step Keeps oneElement refusedPush t ∧
    t.results = [.pushed 0, .pushed (-1), .pushed 0, .popped (some ([46, 46], 7))] ∧
    Run step (fun _ _ => True) start refusedWalk u ∧ u.pc ≠ .undefined .nullNode ∧
    u.shown = [([47], .dir, 0), ([98], .file, 1)] := by
  have run : Run LinkedStack.step FailsCleanly oneElement refusedPush _ :=
    .cons (.inr rfl) rfl (.cons (.inl rfl) rfl (.cons (.inl rfl) rfl (.nil _)))
  obtain ⟨u, walk, shown⟩ := checkedEnd step Allocates start refusedWalk State.shown
    [([47], .dir, 0), ([98], .file, 1)] (by decide +kernel)
  have exactly := allocationsExactly oneElementStacked (runFree run) (runFree walk)
  exact ⟨_, u, exactly.1.mpr run, by decide +kernel, runFree walk, exactly.2.mpr walk, shown⟩

end Allocation

section Errno

theorem endedFine {s u : State} {reply : Reply} (taken : step s reply = some u) :
    (∀ l ∈ ended s reply, l.reported = l.failed) ↔ (reply = .atEnd → s.errno = 0) := by
  obtain ⟨pc, stk, errno, stats, out, shown, listed, rows⟩ := s
  cases reply with
  | atEnd =>
    cases pc <;> cases taken
    have one : ended ⟨.readdir ‹_›, stk, errno, stats, out, shown, listed, rows⟩ .atEnd =
      [⟨false, decide (errno ≠ 0)⟩] := rfl
    simp [one]
  | fails e =>
    refine iff_of_true (fun l mem => ?_) (fun other => Reply.noConfusion other)
    cases pc with
    | readdir depth =>
      rw [List.mem_singleton.mp mem]
      exact decide_eq_true e.nonzero
    | _ => cases mem
  | _ =>
    refine iff_of_true (fun l mem => ?_) (fun other => Reply.noConfusion other)
    cases pc <;> cases mem

theorem reportsRun {s t : State} {replies : List Reply}
    (run : Run step (fun _ _ => True) s replies t) :
    (∀ l ∈ t.listed, l.reported = l.failed) ↔ (∀ l ∈ s.listed, l.reported = l.failed) ∧
      (s.errno ≠ 0 → .atEnd ∉ replies) ∧
      replies.Pairwise fun before later => before.failed = true → later ≠ .atEnd := by
  induction run with
  | nil s => simp
  | @cons s reply u rest t _ taken tail ih =>
    have effect := stepEffect taken
    have fine := endedFine taken
    have logged : (∀ l ∈ u.listed, l.reported = l.failed) ↔
        (∀ l ∈ s.listed, l.reported = l.failed) ∧ (reply = .atEnd → s.errno = 0) := by
      rw [effect.listed, List.forall_mem_append, fine]
    have errno : u.errno ≠ 0 ↔ reply.failed = true ∨ s.errno ≠ 0 := by
      rw [effect.errno]
      cases reply <;> simp [Reply.errno, Reply.failed]
      rename_i e
      exact e.nonzero
    rw [ih, logged, errno, List.pairwise_cons, List.mem_cons, not_or]
    constructor
    · rintro ⟨⟨before, here⟩, later, pairs⟩
      refine ⟨before, fun dirty => ⟨fun same => dirty (here same.symm), later (.inr dirty)⟩,
        fun b mem failed same => ?_, pairs⟩
      exact later (.inl failed) (same ▸ mem)
    · rintro ⟨before, later, first, pairs⟩
      refine ⟨⟨before, fun same => ?_⟩, fun dirty mem => ?_, pairs⟩
      · by_contra dirty
        exact (later dirty).1 same.symm
      · rcases dirty with failed | dirty
        · exact first _ mem failed rfl
        · exact (later dirty).2 mem

theorem reportsExactly {t : State} {replies : List Reply}
    (run : Run step (fun _ _ => True) start replies t) :
    (∀ l ∈ t.listed, l.reported = l.failed) ↔
      replies.Pairwise fun before later => before.failed = true → later ≠ .atEnd := by
  rw [reportsRun run]
  exact ⟨fun all => all.2.2,
    fun pairs => ⟨fun _ mem => absurd mem List.not_mem_nil, fun dirty => absurd rfl dirty, pairs⟩⟩

def staleErrno : List Reply :=
  opening ++ entering ++ [.entry [100], .done, .done, .entry [120], .done, .done, .atEnd, .done,
    .done, .fails denied, .done] ++ entering ++ [.atEnd]

theorem staleErrnoReported : ∃ t, Run step (fun _ _ => True) start staleErrno t ∧
    ¬ ∀ l ∈ t.listed, l.reported = l.failed := by
  obtain ⟨t, run, listed⟩ := checkedEnd step (fun _ _ => True) start staleErrno State.listed
    [⟨false, false⟩, ⟨false, true⟩] (by decide +kernel)
  refine ⟨t, run, fun all => ?_⟩
  rw [listed] at all
  exact Bool.noConfusion (all ⟨false, true⟩ (List.mem_cons_of_mem _ List.mem_cons_self))

def brokenOff : List Reply :=
  opening ++ entering ++ [.entry [120], .done, .done, .entry [100], .done, .done, .atEnd, .done, .done] ++
    entering ++ [.entry [97], .done, .done, .fails denied, .done, .done, .mode (.file .reg), .done, .done,
    .done, .fails denied, .done, .done, .done]

theorem brokenOffReported : ∃ t, Run step (fun _ _ => True) start brokenOff t ∧
    t.listed = [⟨false, false⟩, ⟨true, true⟩] ∧ ∀ l ∈ t.listed, l.reported = l.failed := by
  obtain ⟨t, run, listed⟩ := checkedEnd step (fun _ _ => True) start brokenOff State.listed
    [⟨false, false⟩, ⟨true, true⟩] (by decide +kernel)
  refine ⟨t, run, listed, (reportsExactly run).mpr ?_⟩
  simp [brokenOff, opening, entering, Reply.failed]

end Errno

section Table

/- The per cent of one kind as the table should show it: the conversions of findPercent to int
and its product are exact, and its quotient is the whole part of the share. -/
structure PercentExact (part all : Int) : Prop where
  partInt : toInt part = part
  allInt : toInt all = all
  product : toInt (part * 100) = part * 100
  value : findPercent part all = .ok (100 * part / all)
  low : 0 ≤ 100 * part / all
  high : 100 * part / all ≤ 100

def TableExact (stats : Stats) : Prop := ∀ mode, PercentExact (stats.counter mode) stats.ntotal

/- INT_MAX / 100 -/
def mostCounted : Nat := 21474836

theorem percentExact {part all : Int} (low : 0 ≤ part) (small : part ≤ mostCounted)
    (share : part ≤ all) (counted : 0 < all) (bounded : all < 2^31) : PercentExact part all := by
  have most : mostCounted = 21474836 := rfl
  have first : toInt part = part := toIntExact (by omega) (by omega)
  have second : toInt all = all := toIntExact (by omega) bounded
  have product : toInt (part * 100) = part * 100 := toIntExact (by omega) (by omega)
  have quotient : (part * 100).tdiv all = 100 * part / all := by
    rw [Int.tdiv_eq_ediv_of_nonneg (by omega), Int.mul_comm]
  refine ⟨first, second, product, ?_, Int.ediv_nonneg (by omega) (by omega), ?_⟩
  · rw [findPercent, first, second, product, if_neg (by omega), quotient]
  · refine Int.ediv_le_of_le_mul counted ?_
    omega

theorem percentSmall {part all : Int} (low : 0 ≤ part) (exact : PercentExact part all) :
    part ≤ mostCounted ∧ all ≠ 0 := by
  have most : mostCounted = 21474836 := rfl
  have product := (toIntRange (part * 100)).2
  rw [exact.product] at product
  refine ⟨by omega, fun zero => ?_⟩
  have value := exact.value
  have whole : toInt all = 0 := exact.allInt.trans zero
  rw [findPercent, if_pos (.inl whole)] at value
  cases value

theorem sumBounds {stats : Stats} (natural : ∀ mode, 0 ≤ stats.counter mode) {most : Int}
    (bound : ∀ mode, stats.counter mode ≤ most) :
    stats.sum ≤ 7 * most ∧ ∀ mode, stats.counter mode ≤ stats.sum := by
  have low : ∀ mode, 0 ≤ stats.counter mode ∧ stats.counter mode ≤ most := fun mode =>
    ⟨natural mode, bound mode⟩
  have reg := low (.file .reg)
  have chr := low (.file .chr)
  have blk := low (.file .blk)
  have fifo := low (.file .fifo)
  have lnk := low (.file .lnk)
  have sock := low (.file .sock)
  have dir := low .dir
  simp only [Stats.counter] at reg chr blk fifo lnk sock dir
  simp only [Stats.sum]
  refine ⟨by omega, fun mode => ?_⟩
  rcases mode with (kind | -)
  · cases kind <;> simp only [Stats.counter] <;> omega
  · simp only [Stats.counter]
    omega

theorem sumNone {stats : Stats} (natural : ∀ mode, 0 ≤ stats.counter mode)
    (empty : ∀ mode, ¬ 0 < stats.counter mode) : stats.sum = 0 := by
  obtain ⟨high, share⟩ := sumBounds natural fun mode => Int.not_lt.mp (empty mode)
  exact Int.le_antisymm high (Int.le_trans (natural .dir) (share .dir))

theorem tableCounters {stats : Stats} (natural : ∀ mode, 0 ≤ stats.counter mode) :
    TableExact (sumStat stats) ↔
      (∃ mode, 0 < stats.counter mode) ∧ ∀ mode, stats.counter mode ≤ mostCounted := by
  have total : (sumStat stats).ntotal = toLong stats.sum := rfl
  constructor
  · intro exact
    have small : ∀ mode, stats.counter mode ≤ mostCounted ∧ (sumStat stats).ntotal ≠ 0 := by
      intro mode
      have here := exact mode
      rw [sumStatCounter] at here
      exact percentSmall (natural mode) here
    refine ⟨?_, fun mode => (small mode).1⟩
    by_contra empty
    refine (small .dir).2 ?_
    rw [total, sumNone natural (fun mode counted => empty ⟨mode, counted⟩)]
    exact toLongExact (by decide) (by decide)
  · rintro ⟨⟨found, counted⟩, small⟩ mode
    have most : mostCounted = 21474836 := rfl
    obtain ⟨bound, share⟩ := sumBounds natural small
    have positive := Int.lt_of_lt_of_le counted (share found)
    rw [sumStatCounter, total, toLongExact (by omega) (by omega)]
    exact percentExact (natural mode) (small mode) (share mode) positive (by omega)

theorem runCounted {s t : State} {replies : List Reply}
    (run : Run step (fun _ _ => True) s replies t) (natural : Natural s) (prints : t.pc = .printStat)
    (mode : Mode) :
    t.stats.counter mode = s.stats.counter mode + replies.countP (Reply.counts mode) := by
  induction run with
  | nil s => exact (Int.add_zero _).symm
  | @cons s reply u rest t _ taken tail ih =>
    have goes : u.pc ≠ .undefined .counting := by
      intro stuck
      cases tail with
      | nil => rw [stuck] at prints; cases prints
      | cons _ moved _ => exact stepUndefined stuck _ moved
    have counted := (stepEffect taken).counted natural goes
    have next : Natural u := by
      intro mode
      have before := natural mode
      rw [counted mode]
      split <;> omega
    rw [ih next prints, counted mode, List.countP_cons]
    split <;> omega

theorem startZero (mode : Mode) : start.stats.counter mode = 0 := by
  rcases mode with (kind | -)
  · cases kind <;> rfl
  · rfl

theorem startCounted {t : State} {replies : List Reply}
    (run : Run step (fun _ _ => True) start replies t) (prints : t.pc = .printStat) (mode : Mode) :
    t.stats.counter mode = replies.countP (Reply.counts mode) := by
  rw [runCounted run (fun mode => Int.le_of_eq (startZero mode).symm) prints, startZero, Int.zero_add]

theorem tableExactly {t : State} {replies : List Reply}
    (run : Run step (fun _ _ => True) start replies t) (prints : t.pc = .printStat) :
    TableExact (sumStat t.stats) ↔ (∃ mode, 0 < replies.countP (Reply.counts mode)) ∧
      ∀ mode, replies.countP (Reply.counts mode) ≤ mostCounted := by
  have counted := startCounted run prints
  have natural : ∀ mode, 0 ≤ t.stats.counter mode := by
    intro mode
    rw [counted]
    exact Int.natCast_nonneg _
  rw [tableCounters natural]
  simp only [counted, Int.natCast_pos, Int.ofNat_le]

def atPrint (s : State) : Bool :=
  match s.pc with
  | .printStat => true
  | _ => false

theorem atPrintPc {s : State} (prints : atPrint s = true) : s.pc = .printStat := by
  unfold atPrint at prints
  split at prints
  · assumption
  · cases prints

theorem nothingCounted : ∃ replies t, Run step (fun _ _ => True) start replies t ∧
    t.pc = .printStat ∧ ¬ TableExact (sumStat t.stats) := by
  obtain ⟨t, run, prints⟩ := checkedEnd step (fun _ _ => True) start
    (opening ++ [.fails denied, .done]) atPrint true (by decide +kernel)
  refine ⟨_, t, run, atPrintPc prints, fun exact => ?_⟩
  have zero : ∀ mode, t.stats.counter mode = 0 := startCounted run (atPrintPc prints)
  obtain ⟨⟨mode, counted⟩, -⟩ := (tableCounters fun mode => Int.le_of_eq (zero mode).symm).mp exact
  rw [zero mode] at counted
  exact Int.lt_irrefl 0 counted

theorem brokenOffTable : ∃ t, Run step (fun _ _ => True) start brokenOff t ∧ t.pc = .printStat ∧
    (sumStat t.stats).ntotal = 3 ∧ findPercent (sumStat t.stats).ndir 3 = .ok 66 ∧
    TableExact (sumStat t.stats) := by
  obtain ⟨t, run, seen⟩ := checkedEnd step (fun _ _ => True) start brokenOff
    (fun t => (atPrint t, (sumStat t.stats).ntotal, (sumStat t.stats).ndir)) (true, 3, 2) (by decide +kernel)
  simp only [Prod.mk.injEq] at seen
  obtain ⟨prints, total, dirs⟩ := seen
  have exact : TableExact (sumStat t.stats) := by
    refine (tableExactly run (atPrintPc prints)).mpr ⟨⟨.dir, by decide⟩, fun mode => ?_⟩
    exact Nat.le_trans List.countP_le_length (by decide)
  exact ⟨t, run, atPrintPc prints, total, by rw [dirs]; decide +kernel, exact⟩

end Table

end OsLabs.FtwFailures
