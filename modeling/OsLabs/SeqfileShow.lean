import OsLabs.CyclicList
import OsLabs.FortuneLayout

/-! showFortune of seqfile.c against the cyclic list that fortune.c presents. Only the
place of the string handed to seq_printf is followed here, not what the formatter
makes of it. -/
namespace OsLabs.FortuneStore.Seqfile
open CInteger CMemory Runs CyclicList

structure ShowResult where
  format : Int
  state : State

/- The length is measured before readInd is wrapped. There is no result when no NUL
stands between readInd and the end of the page. -/
def showFortune (s : State) : Option ShowResult :=
  (cstring s.buffer s.readInd (cookieMaxBufSize - s.readInd).toNat).map fun measured =>
    let len := toInt measured.length
    let readInd := if s.writeInd ≤ s.readInd then 0 else s.readInd
    ⟨readInd, {s with readInd := if 0 < len then toInt (readInd + (len + 1)) else readInd}⟩

inductive Op where
  | write (c : WriteCall)
  | showFortune

structure Watched where
  store : State
  cursor : Cursor (List Byte)
  shows : Nat

def start (outside : Mem) : Watched := ⟨initFortune outside, Cursor.empty, 0⟩

def watch (w : Watched) : Op → Option Watched
  | .write c => some ⟨(writeFortune w.store c).state, w.cursor.add (sealText c.user), w.shows⟩
  | .showFortune =>
      some ⟨((showFortune w.store).map ShowResult.state).getD w.store, call w.cursor .serve,
        w.shows + 1⟩

/- The runs considered: successful writes of at least one byte and no NUL that fit the
page with their terminators, and shows once something has been written. -/
def Legal (w : Watched) : Op → Prop
  | .write c => c.copy = .done ∧ c.user ≠ [] ∧ 0 ∉ c.user ∧
      w.store.writeInd + c.len + 1 ≤ cookieMaxBufSize
  | .showFortune => 0 < w.cursor.items.length

instance (w : Watched) (op : Op) : Decidable (Legal w op) := by
  cases op <;> unfold Legal <;> infer_instance

def ShowsTurn (w : Watched) : Op → Prop
  | .write _ => True
  | .showFortune => (showFortune w.store).map ShowResult.format =
      some ((offset w.cursor.items w.cursor.turn : Nat) : Int)

def InFirstPass (w : Watched) : Op → Prop
  | .write _ => True
  | .showFortune => ¬ (w.store.readInd = w.store.writeInd ∧ w.store.writeInd = cookieMaxBufSize) ∧
      (w.shows = 0 ∨ w.store.readInd ≠ 0 ∨ w.cursor.items.length = 1)

instance (w : Watched) (op : Op) : Decidable (InFirstPass w op) := by
  cases op <;> unfold InFirstPass <;> infer_instance

def Tracks (w : Watched) : Prop :=
  w.store.readInd = offset w.cursor.items w.cursor.next ∨
    w.store.readInd = 0 ∧ w.cursor.next = 1

structure Tracked (w : Watched) : Prop where
  layout : Layout w.store w.cursor.items
  page : w.store.writeInd ≤ cookieMaxBufSize
  blank : ∀ j, w.store.writeInd ≤ j → j < cookieMaxBufSize → w.store.buffer j = 0
  fresh : w.shows = 0 ↔ w.cursor.next = 0
  tracks : Tracks w

theorem startTracked (outside : Mem) : Tracked (start outside) := by
  refine ⟨initLayout outside, (initWithin outside).2, ?_, Iff.rfl, Or.inl rfl⟩
  intro j low high
  exact if_pos ⟨low, by omega⟩

theorem writeTracked {w u : Watched} {c : WriteCall} (tracked : Tracked w)
    (legal : Legal w (.write c)) (taken : watch w (.write c) = some u) : Tracked u := by
  cases Option.some.inj taken
  obtain ⟨done, filled, clean, room⟩ := legal
  have used := tracked.layout.used
  have within : Within w.store := ⟨by omega, tracked.page⟩
  have left := spaceLeftExact within.1 within.2
  have fits : ¬ spaceLeft w.store.writeInd < c.len := by omega
  have accepted := writeAccepted within fits done
  refine ⟨writeLayout tracked.layout within fits done filled clean, ?_, ?_, tracked.fresh, ?_⟩
  · simp only [writeFortune, accepted]
    exact room
  · intro j low high
    simp only [writeFortune, accepted] at low ⊢
    rw [WriteCall.len] at low
    rw [WriteCall.len, acceptedFrame _ filled (.inr (by omega))]
    exact tracked.blank j (by omega) high
  · simp only [Tracks, writeFortune, accepted, Cursor.add, offsetAppend w.cursor.inRange]
    exact tracked.tracks

theorem showInside {s : State} {fortunes : List (List Byte)} {n : Nat} (layout : Layout s fortunes)
    (page : s.writeInd ≤ cookieMaxBufSize) (inside : n < fortunes.length)
    (place : s.readInd = offset fortunes n) :
    showFortune s = some ⟨offset fortunes n, {s with readInd := offset fortunes (n + 1)}⟩ := by
  have bound := offsetLt inside
  have used := layout.used
  have text := layoutText layout page inside
  have next := offsetSucc inside
  have positive := List.length_pos_iff.mpr (layout.clean _ (List.getElem_mem inside)).1
  have short : toInt fortunes[n].length = fortunes[n].length := pageInt (by omega) (by omega)
  have stays : ¬ s.writeInd ≤ s.readInd := by omega
  have positive : (0 : Int) < fortunes[n].length := by omega
  have jump : toInt (offset fortunes n + ((fortunes[n].length : Int) + 1)) = offset fortunes (n + 1) := by
    rw [pageInt (by omega) (by omega), next]
    omega
  have room : ((cookieMaxBufSize : Int) - offset fortunes n).toNat =
      cookieMaxBufSize - offset fortunes n := Int.toNat_sub _ _
  unfold showFortune
  rw [place] at stays ⊢
  simp only [room, text, Option.map_some, short, if_pos positive, if_neg stays, jump]

theorem showAtEnd {s : State} (ended : s.readInd = s.writeInd)
    (page : s.writeInd < cookieMaxBufSize) (blank : s.buffer s.writeInd = 0) :
    showFortune s = some ⟨0, {s with readInd := 0}⟩ := by
  obtain ⟨room, more⟩ := Nat.exists_eq_succ_of_ne_zero
    (show ((cookieMaxBufSize : Int) - s.writeInd).toNat ≠ 0 by omega)
  have nothing : cstring s.buffer s.writeInd ((cookieMaxBufSize : Int) - s.writeInd).toNat = some [] := by
    rw [more]
    exact if_pos blank
  have zero : toInt 0 = 0 := pageInt (Int.le_refl 0) (by omega)
  unfold showFortune
  rw [ended, nothing]
  simp [zero]

theorem showPastPage {s : State} (full : s.readInd = cookieMaxBufSize) : showFortune s = none := by
  unfold showFortune
  rw [full, Int.sub_self]
  rfl

section Turn
variable {w : Watched} (tracked : Tracked w)
include tracked

theorem trackedEnd (place : w.store.readInd = offset w.cursor.items w.cursor.next)
    (last : w.cursor.next = w.cursor.items.length) : w.store.readInd = w.store.writeInd := by
  have used := tracked.layout.used
  have ended := offsetEnd w.cursor.items
  rw [← last] at ended
  omega

theorem turnAtEnd (filled : 0 < w.cursor.items.length)
    (place : w.store.readInd = offset w.cursor.items w.cursor.next)
    (last : w.cursor.next = w.cursor.items.length) :
    ShowsTurn w .showFortune ↔ InFirstPass w .showFortune := by
  have atEnd := trackedEnd tracked place last
  have page := tracked.page
  have later : 0 < w.cursor.next := by omega
  have positive := offsetPositive later w.cursor.inRange
  have turn : w.cursor.turn = 0 := if_pos last
  unfold ShowsTurn InFirstPass
  by_cases full : w.store.writeInd = cookieMaxBufSize
  · rw [showPastPage (by omega)]
    simp [atEnd, full]
  · have blank := tracked.blank w.store.writeInd (Int.le_refl _) (by omega)
    rw [showAtEnd atEnd (by omega) blank]
    have moved : w.store.readInd ≠ 0 := by omega
    simp [turn, offsetZero, full, moved]

theorem turnInside (place : w.store.readInd = offset w.cursor.items w.cursor.next)
    (inside : w.cursor.next < w.cursor.items.length) :
    ShowsTurn w .showFortune ↔ InFirstPass w .showFortune := by
  have used := tracked.layout.used
  have bound := offsetLt inside
  have turn : w.cursor.turn = w.cursor.next := if_neg (Nat.ne_of_lt inside)
  have short : w.store.readInd ≠ w.store.writeInd := by omega
  have moved : w.shows = 0 ∨ w.store.readInd ≠ 0 := by
    by_cases first : w.cursor.next = 0
    · exact .inl (tracked.fresh.mpr first)
    · have positive := offsetPositive (Nat.pos_of_ne_zero first) w.cursor.inRange
      right
      omega
  unfold ShowsTurn InFirstPass
  rw [showInside tracked.layout tracked.page inside place]
  simp only [Option.map_some, turn, short, false_and, not_false_eq_true, true_and, true_iff]
  rcases moved with first | later
  · exact .inl first
  · exact .inr (.inl later)

theorem turnWrapped (filled : 0 < w.cursor.items.length) (zero : w.store.readInd = 0)
    (next : w.cursor.next = 1) : ShowsTurn w .showFortune ↔ InFirstPass w .showFortune := by
  have used := tracked.layout.used
  have short := offsetLt filled
  unfold ShowsTurn InFirstPass
  rw [showInside tracked.layout tracked.page filled (by rw [offsetZero]; exact zero)]
  simp only [Option.map_some, offsetZero, Option.some.injEq, Int.natCast_inj]
  constructor
  · intro same
    have turn : w.cursor.turn = 0 := by
      by_contra later
      have positive := offsetPositive (Nat.pos_of_ne_zero later)
        (Nat.le_of_lt (w.cursor.turnLt filled))
      omega
    have last : w.cursor.next = w.cursor.items.length := by
      by_contra other
      rw [Cursor.turn, if_neg other] at turn
      omega
    exact ⟨by omega, .inr (.inr (by omega))⟩
  · rintro ⟨_, first | moved | single⟩
    · have fresh := tracked.fresh.mp first
      omega
    · exact absurd zero moved
    · rw [Cursor.turn, if_pos (by omega), offsetZero]

theorem showsTurnIff (legal : Legal w .showFortune) :
    ShowsTurn w .showFortune ↔ InFirstPass w .showFortune := by
  rcases tracked.tracks with place | ⟨zero, next⟩
  · by_cases last : w.cursor.next = w.cursor.items.length
    · exact turnAtEnd tracked legal place last
    · exact turnInside tracked place (Nat.lt_of_le_of_ne w.cursor.inRange last)
  · exact turnWrapped tracked legal zero next

end Turn

theorem showTracked {w u : Watched} (tracked : Tracked w) (legal : Legal w .showFortune)
    (first : InFirstPass w .showFortune) (taken : watch w .showFortune = some u) : Tracked u := by
  cases Option.some.inj taken
  have filled : 0 < w.cursor.items.length := legal
  have used := tracked.layout.used
  have inRange := w.cursor.inRange
  have page := tracked.page
  -- a show moves readInd only, so the page is still laid out as before
  have kept : ∀ {readInd : Int},
      Tracks ⟨{w.store with readInd := readInd}, w.cursor.advance filled, w.shows + 1⟩ →
      Tracked ⟨{w.store with readInd := readInd}, w.cursor.advance filled, w.shows + 1⟩ := by
    intro readInd tracks
    exact ⟨⟨tracked.layout.bytes, tracked.layout.used, tracked.layout.clean⟩, page, tracked.blank,
      by simp [Cursor.advance], tracks⟩
  rw [call, dif_pos filled]
  rcases tracked.tracks with place | ⟨zero, next⟩
  · by_cases last : w.cursor.next = w.cursor.items.length
    · have atEnd := trackedEnd tracked place last
      have full := first.1
      have blank := tracked.blank w.store.writeInd (Int.le_refl _) (by omega)
      rw [showAtEnd atEnd (by omega) blank]
      exact kept (Or.inr ⟨rfl, by simp [Cursor.advance, Cursor.turn, last]⟩)
    · rw [showInside tracked.layout page (by omega) place]
      refine kept (Or.inl ?_)
      simp only [Cursor.advance, Cursor.turn, if_neg last]
  · have last : w.cursor.next = w.cursor.items.length := by
      rcases first.2 with first | moved | single
      · have := tracked.fresh.mp first
        omega
      · exact absurd zero moved
      · omega
    rw [showInside tracked.layout page filled (by rw [offsetZero]; exact zero)]
    refine kept (Or.inl ?_)
    simp only [Cursor.advance, Cursor.turn, if_pos last]

theorem showsFollowExactly (outside : Mem) (ops : List Op) (last : Watched)
    (legal : Run watch Legal (start outside) ops last) :
    Run watch ShowsTurn (start outside) ops last ↔
      Run watch InFirstPass (start outside) ops last := by
  refine runIff Tracked ?_ ?_ legal (startTracked outside)
  · intro w op u tracked here taken
    cases op with
    | write c => exact Iff.rfl
    | showFortune => exact showsTurnIff tracked here
  · intro w op u tracked here first taken
    cases op with
    | write c => exact writeTracked tracked here taken
    | showFortune => exact showTracked tracked here first taken

def writeA : WriteCall := ⟨[97, 10], by decide, .done⟩
def writeB : WriteCall := ⟨[98, 10], by decide, .done⟩

def firstPass : List Op :=
  [.write writeA, .write writeB, .showFortune, .showFortune, .write writeA, .showFortune]

theorem firstPassFollows : ∃ last, Run watch ShowsTurn (start fun _ => 0) firstPass last ∧
    last.shows = 3 ∧ last.store.readInd = 9 := by
  obtain ⟨last, run, seen⟩ := checkedEnd watch (fun w op => Legal w op ∧ InFirstPass w op)
    (start fun _ => 0) firstPass (fun w => (w.shows, w.store.readInd)) (3, 9) (by decide +kernel)
  rw [Prod.mk.injEq] at seen
  have legal := runWeaken (fun w op both => both.1) run
  have first := runWeaken (fun w op both => both.2) run
  exact ⟨last, (showsFollowExactly _ _ last legal).mpr first, seen⟩

def secondPass : List Op := [.write writeA, .write writeB, .showFortune, .showFortune, .showFortune]

theorem secondPassRepeats : ¬ ∀ outside ops last, Run watch Legal (start outside) ops last →
    Run watch ShowsTurn (start outside) ops last := by
  intro all
  obtain ⟨last, legal⟩ := checkedRun watch Legal (start fun _ => 0)
    (secondPass ++ [.showFortune]) (by decide +kernel)
  obtain ⟨u, before, follows⟩ := runLast secondPass (all _ _ last legal)
  have stale : (exec watch (start fun _ => 0) secondPass).map (fun u =>
      ((showFortune u.store).map ShowResult.format, offset u.cursor.items u.cursor.turn)) =
      some (some 0, 3) := by decide +kernel
  rw [before, Option.map_some, Option.some.injEq, Prod.mk.injEq] at stale
  rw [ShowsTurn, stale.1, stale.2] at follows
  exact absurd follows (by decide)

end OsLabs.FortuneStore.Seqfile
