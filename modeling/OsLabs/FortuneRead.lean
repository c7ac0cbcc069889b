import Mathlib.Algebra.GroupWithZero.Nat
import OsLabs.CyclicList
import OsLabs.FortuneLayout

/-! readFortune of fortune.c and the list it presents to its readers. The offset of an
open file is an argument; the module keeps no state per file. -/
namespace OsLabs.FortuneStore.Fortune
open CInteger CMemory Runs CyclicList

inductive ReadCopy where
  | done
  | fault (copied : Nat)
  deriving DecidableEq, Repr

structure ReadCall where
  len : Nat
  fPos : Int
  copy : ReadCopy
  deriving DecidableEq, Repr

structure ReadResult where
  ret : Int
  delivered : List Byte
  fPos : Int
  state : State

/- `len` is not consulted, as in the source. There is no result when the text has no
terminator inside cookieBuffer, since %s then reads beyond the page. *fPos is not
positive where it is advanced, so the sum cannot overflow. -/
def readFortune (s : State) (c : ReadCall) : Option ReadResult :=
  if 0 < c.fPos ∨ s.writeInd = 0 then some ⟨0, [], c.fPos, s⟩
  else
    let readInd := if s.writeInd ≤ s.readInd then 0 else s.readInd
    (cstring s.buffer readInd (cookieMaxBufSize - readInd).toNat).map fun text =>
      let readLen := toInt (text ++ [newline]).length
      let tmpBuffer := snprintf s.tmpBuffer cookieMaxBufSize (text ++ [newline])
      let printed := readMem tmpBuffer 0 readLen.toNat
      let s := {s with readInd := readInd, tmpBuffer := tmpBuffer}
      match c.copy with
      | .fault copied => ⟨-efault, printed.take copied, c.fPos, s⟩
      | .done => ⟨readLen, printed, c.fPos + readLen,
          {s with readInd := toInt (readInd + readLen)}⟩

inductive Op where
  | write (c : WriteCall)
  | read (c : ReadCall)

inductive Answer where
  | wrote (ret : Int)
  | read (ret : Int) (delivered : List Byte) (fPos : Int)
  deriving DecidableEq, Repr

def react (s : State) : Op → Option (Answer × State)
  | .write c => some (.wrote (writeFortune s c).ret, {s with toStatics := (writeFortune s c).state})
  | .read c => (readFortune s c).map fun r => (.read r.ret r.delivered r.fPos, r.state)

def Op.call : Op → Option (Call (List Byte))
  | .write c => some (.add (sealText c.user))
  | .read c => if 0 < c.fPos then none else some .serve

def cyclicAnswer (cursor : Cursor (List Byte)) : Op → Answer
  | .write c => .wrote c.len
  | .read c =>
      if 0 < c.fPos then .read 0 [] c.fPos
      else if filled : 0 < cursor.items.length then
        .read (cursor.current filled ++ [newline]).length (cursor.current filled ++ [newline])
          (c.fPos + (cursor.current filled ++ [newline]).length)
      else .read 0 [] c.fPos

def cyclicReact (cursor : Cursor (List Byte)) (op : Op) : Answer × Cursor (List Byte) :=
  (cyclicAnswer cursor op, (op.call).elim cursor (call cursor))

theorem readSkipped {s : State} {c : ReadCall} (skip : 0 < c.fPos ∨ s.writeInd = 0) :
    readFortune s c = some ⟨0, [], c.fPos, s⟩ := if_pos skip

theorem readServes {s : State} {c : ReadCall} {fortunes : List (List Byte)} {n : Nat}
    (layout : Layout s.toStatics fortunes) (page : s.writeInd < cookieMaxBufSize)
    (inside : n < fortunes.length) (start : ¬ 0 < c.fPos) (done : c.copy = .done)
    (place : (if s.writeInd ≤ s.readInd then 0 else s.readInd) = offset fortunes n) :
    ∃ tmp, readFortune s c = some ⟨(fortunes[n] ++ [newline]).length, fortunes[n] ++ [newline],
      c.fPos + (fortunes[n] ++ [newline]).length,
      {s with readInd := offset fortunes (n + 1), tmpBuffer := tmp}⟩ := by
  have bound := offsetLt inside
  have used := layout.used
  have text := layoutText layout (Int.le_of_lt page) inside
  have filled : ¬ s.writeInd = 0 := by omega
  have length : (fortunes[n] ++ [newline]).length = fortunes[n].length + 1 := by simp
  have fits : (fortunes[n] ++ [newline]).length < cookieMaxBufSize := by omega
  have printed := readHolds (snprintfHolds s.tmpBuffer fits)
  have next : toInt (offset fortunes n + (fortunes[n] ++ [newline]).length) =
      offset fortunes (n + 1) := by
    rw [pageInt (by omega) (by omega), offsetSucc inside]
    omega
  have short : toInt (fortunes[n] ++ [newline]).length = (fortunes[n] ++ [newline]).length :=
    pageInt (Int.natCast_nonneg _) (Int.ofNat_le.mpr (Nat.le_of_lt fits))
  have room : ((cookieMaxBufSize : Int) - offset fortunes n).toNat =
      cookieMaxBufSize - offset fortunes n := Int.toNat_sub _ _
  refine ⟨snprintf s.tmpBuffer cookieMaxBufSize (fortunes[n] ++ [newline]), ?_⟩
  unfold readFortune
  rw [if_neg (by simp only [start, filled, or_self, not_false_eq_true])]
  simp only [place, room, text, Option.map_some, done, short, Int.toNat_natCast, printed, next]

/- What is asked of a run: successful copies, non-empty writes without NUL, and together
with their terminators the writes leave writeInd below COOKIE_MAX_BUF_SIZE. -/
def Op.stored : Op → Nat
  | .write c => c.len + 1
  | .read _ => 0

def Op.Successful : Op → Prop
  | .write c => c.copy = .done ∧ c.user ≠ [] ∧ 0 ∉ c.user
  | .read c => c.copy = .done

structure Simulated (s : State) (cursor : Cursor (List Byte)) (rest : List Op) : Prop where
  layout : Layout s.toStatics cursor.items
  place : s.readInd = offset cursor.items cursor.next
  successful : ∀ op ∈ rest, op.Successful
  room : s.writeInd + (rest.map Op.stored).sum < cookieMaxBufSize

theorem simulatedPlace {s : State} {cursor : Cursor (List Byte)} {rest : List Op}
    (sim : Simulated s cursor rest) :
    (if s.writeInd ≤ s.readInd then 0 else s.readInd) = offset cursor.items cursor.turn := by
  have used := sim.layout.used
  have inRange := cursor.inRange
  rw [sim.place]
  by_cases last : cursor.next = cursor.items.length
  · have ended := offsetEnd cursor.items
    rw [← last] at ended
    rw [if_pos (by omega), Cursor.turn, if_pos last, offsetZero]
    rfl
  · have present : cursor.next < cursor.items.length := by omega
    have bound := offsetLt present
    rw [if_neg (by omega), Cursor.turn, if_neg last]

theorem writeSimulated {s : State} {cursor : Cursor (List Byte)} {c : WriteCall} {rest : List Op}
    (sim : Simulated s cursor (.write c :: rest)) :
    ∃ u, react s (.write c) = some (.wrote c.len, u) ∧
      Simulated u (cursor.add (sealText c.user)) rest := by
  obtain ⟨done, filled, clean⟩ := sim.successful _ List.mem_cons_self
  have room := sim.room
  have used := sim.layout.used
  simp only [List.map_cons, List.sum_cons, Op.stored] at room
  have within : Within s.toStatics := ⟨by omega, by omega⟩
  have left := spaceLeftExact within.1 within.2
  have fits : ¬ spaceLeft s.writeInd < c.len := by omega
  have layout := writeLayout sim.layout within fits done filled clean
  have accepted := writeAccepted within fits done
  refine ⟨{s with toStatics := (FortuneStore.writeFortune s.toStatics c).state}, ?_, ⟨layout, ?_, ?_, ?_⟩⟩
  · simp only [react, writeFortune, accepted]
  · simp only [accepted, sim.place, Cursor.add, offsetAppend cursor.inRange]
  · exact fun op mem => sim.successful op (List.mem_cons_of_mem _ mem)
  · simp only [accepted]
    omega

theorem readSimulated {s : State} {cursor : Cursor (List Byte)} {c : ReadCall} {rest : List Op}
    (sim : Simulated s cursor (.read c :: rest)) :
    ∃ u, react s (.read c) = some (cyclicAnswer cursor (.read c), u) ∧
      Simulated u ((Op.read c).call.elim cursor (call cursor)) rest := by
  have done : c.copy = .done := sim.successful _ List.mem_cons_self
  have later : Simulated s cursor rest := ⟨sim.layout, sim.place,
    fun op mem => sim.successful op (List.mem_cons_of_mem _ mem),
    by simpa [Op.stored] using sim.room⟩
  have used := sim.layout.used
  by_cases started : 0 < c.fPos
  · refine ⟨s, ?_, ?_⟩
    · simp [react, readSkipped (s := s) (Or.inl started), cyclicAnswer, started]
    · simpa [Op.call, started] using later
  by_cases filled : 0 < cursor.items.length
  · have room := later.room
    obtain ⟨tmp, served⟩ := readServes sim.layout (by omega) (cursor.turnLt filled) started done
      (simulatedPlace sim)
    refine ⟨{s with readInd := offset cursor.items (cursor.turn + 1), tmpBuffer := tmp}, ?_, ?_⟩
    · simp [react, served, cyclicAnswer, started, filled, Cursor.current]
    · simp only [Op.call, if_neg started, Option.elim_some, call, dif_pos filled]
      exact ⟨⟨sim.layout.bytes, sim.layout.used, sim.layout.clean⟩, rfl, later.successful, later.room⟩
  · have empty : cursor.items = [] := List.length_eq_zero_iff.mp (by omega)
    have unwritten : s.writeInd = 0 := by rw [used, empty]; rfl
    refine ⟨s, ?_, ?_⟩
    · simp [react, readSkipped (s := s) (Or.inr unwritten), cyclicAnswer, started, filled]
    · simpa [Op.call, started, call, filled] using later

theorem reactSimulates (s : State) (cursor : Cursor (List Byte)) (op : Op) (rest : List Op)
    (sim : Simulated s cursor (op :: rest)) :
    ∃ u, react s op = some ((cyclicReact cursor op).1, u) ∧
      Simulated u (cyclicReact cursor op).2 rest := by
  cases op with
  | write c => exact writeSimulated sim
  | read c => exact readSimulated sim

def fortunes (ops : List Op) : List (List Byte) :=
  ops.filterMap fun op => match op with
    | .write c => some (sealText c.user)
    | .read _ => none

def Answer.text : Answer → Option (List Byte)
  | .wrote _ => none
  | .read ret delivered _ => if 0 < ret then some delivered else none

theorem currentItem (cursor : Cursor (List Byte)) (filled : 0 < cursor.items.length)
    (more : List (List Byte)) :
    ((cursor.items ++ more)[cursor.turn]?).getD [] = cursor.current filled := by
  rw [List.getElem?_append_left (cursor.turnLt filled),
    List.getElem?_eq_getElem (cursor.turnLt filled)]
  rfl

def cyclicTrace : Cursor (List Byte) → List Op → Option (List Answer) :=
  trace (fun cursor op => some (cyclicReact cursor op))

theorem cyclicTraceStep {cursor next : Cursor (List Byte)} {op : Op} {rest : List Op}
    {answer : Answer} {answers : List Answer} (reacts : cyclicReact cursor op = (answer, next))
    (later : cyclicTrace next rest = some answers) :
    cyclicTrace cursor (op :: rest) = some (answer :: answers) := by
  unfold cyclicTrace at later ⊢
  simp only [trace, reacts, Option.bind_some, later, Option.map_some]

theorem cyclicDelivers (cursor : Cursor (List Byte)) (ops : List Op) :
    ∃ answers, cyclicTrace cursor ops = some answers ∧
      answers.filterMap Answer.text = (turns cursor (ops.filterMap Op.call)).map
        (fun t => ((cursor.items ++ fortunes ops)[t.number]?).getD [] ++ [newline]) := by
  induction ops generalizing cursor with
  | nil => exact ⟨[], rfl, rfl⟩
  | cons op rest ih =>
    cases op with
    | write c =>
      obtain ⟨answers, traced, texts⟩ := ih (cursor.add (sealText c.user))
      have same : (cursor.add (sealText c.user)).items ++ fortunes rest =
          cursor.items ++ fortunes (.write c :: rest) := by simp [Cursor.add, fortunes]
      refine ⟨.wrote c.len :: answers, cyclicTraceStep rfl traced, ?_⟩
      rw [List.filterMap_cons_none rfl, texts, same]
      rfl
    | read c =>
      have same : fortunes (.read c :: rest) = fortunes rest := rfl
      by_cases started : 0 < c.fPos
      · obtain ⟨answers, traced, texts⟩ := ih cursor
        have reacts : cyclicReact cursor (.read c) = (.read 0 [] c.fPos, cursor) := by
          simp [cyclicReact, cyclicAnswer, Op.call, started]
        refine ⟨.read 0 [] c.fPos :: answers, cyclicTraceStep reacts traced, ?_⟩
        rw [List.filterMap_cons_none rfl, texts, same,
          List.filterMap_cons_none (by simp [Op.call, started])]
      have serve : (Op.read c).call = some .serve := by simp [Op.call, started]
      by_cases filled : 0 < cursor.items.length
      · obtain ⟨answers, traced, texts⟩ := ih (cursor.advance filled)
        have reacts : cyclicReact cursor (.read c) =
            (.read (cursor.current filled ++ [newline]).length (cursor.current filled ++ [newline])
              (c.fPos + (cursor.current filled ++ [newline]).length), cursor.advance filled) := by
          simp only [cyclicReact, cyclicAnswer, serve, if_neg started, dif_pos filled,
            Option.elim_some, call]
        have positive : (0 : Int) < (cursor.current filled ++ [newline]).length := by
          rw [List.length_append, List.length_singleton]; omega
        have delivers : Answer.text (.read (cursor.current filled ++ [newline]).length
            (cursor.current filled ++ [newline])
            (c.fPos + (cursor.current filled ++ [newline]).length)) =
            some (cursor.current filled ++ [newline]) := if_pos positive
        refine ⟨_, cyclicTraceStep reacts traced, ?_⟩
        rw [List.filterMap_cons_some delivers, texts, same, List.filterMap_cons_some serve, turns,
          dif_pos filled, List.map_cons, currentItem cursor filled]
        rfl
      · obtain ⟨answers, traced, texts⟩ := ih cursor
        have reacts : cyclicReact cursor (.read c) = (.read 0 [] c.fPos, cursor) := by
          simp only [cyclicReact, cyclicAnswer, serve, if_neg started, dif_neg filled,
            Option.elim_some, call]
        refine ⟨.read 0 [] c.fPos :: answers, cyclicTraceStep reacts traced, ?_⟩
        rw [List.filterMap_cons_none rfl, texts, same, List.filterMap_cons_some serve, turns,
          dif_neg filled]

theorem readsCycle (outside beside : Mem) (ops : List Op)
    (successful : ∀ op ∈ ops, op.Successful)
    (room : (ops.map Op.stored).sum < cookieMaxBufSize) :
    (∃ answers, trace react (initFortune outside beside) ops = some answers ∧
      cyclicTrace Cursor.empty ops = some answers ∧
      answers.filterMap Answer.text = (turns Cursor.empty (ops.filterMap Op.call)).map
        (fun t => ((fortunes ops)[t.number]?).getD [] ++ [newline])) ∧
    (∀ pre first mid last post,
      turns Cursor.empty (ops.filterMap Op.call) = pre ++ first :: mid ++ last :: post →
      first.number = 0 → (∀ t ∈ mid, t.number ≠ 0) → last.number = 0 →
      (first :: mid).map Turn.number = List.range last.present) ∧
    (∀ (s : State) (c : ReadCall), 0 < c.fPos ∨ s.writeInd = 0 →
      readFortune s c = some ⟨0, [], c.fPos, s⟩) := by
  refine ⟨?_, ?_, fun s c skip => readSkipped skip⟩
  · have zero : (initFortune outside beside).writeInd = 0 := rfl
    have start : Simulated (initFortune outside beside) Cursor.empty ops :=
      ⟨initLayout outside, rfl, successful, by omega⟩
    obtain ⟨answers, traced, texts⟩ := cyclicDelivers Cursor.empty ops
    exact ⟨answers, (traceSimulation reactSimulates start).trans traced, traced, texts⟩
  · intro pre first mid last post log fresh inside reset
    exact passExact log fresh inside reset

def makeTest : List Op :=
  [.write ⟨[97, 97, 97, 10], by decide, .done⟩, .write ⟨[98, 98, 98, 10], by decide, .done⟩,
    .read ⟨4096, 0, .done⟩, .read ⟨4096, 0, .done⟩, .read ⟨4096, 0, .done⟩]

theorem makeTestCycles : ∃ answers,
    trace react (initFortune (fun _ => 0) (fun _ => 0)) makeTest = some answers ∧
    answers.filterMap Answer.text =
      [[97, 97, 97, 10, 10], [98, 98, 98, 10, 10], [97, 97, 97, 10, 10]] := by
  have successful : ∀ op ∈ makeTest, op.Successful := by
    intro op mem
    simp only [makeTest, List.mem_cons, List.not_mem_nil, or_false] at mem
    rcases mem with rfl | rfl | rfl | rfl | rfl
    · exact ⟨rfl, by decide, by decide⟩
    · exact ⟨rfl, by decide, by decide⟩
    · rfl
    · rfl
    · rfl
  obtain ⟨⟨answers, traced, _, texts⟩, _⟩ := readsCycle (fun _ => 0) (fun _ => 0) makeTest
    successful (by decide +kernel)
  exact ⟨answers, traced, texts.trans (by decide +kernel)⟩

end OsLabs.FortuneStore.Fortune
