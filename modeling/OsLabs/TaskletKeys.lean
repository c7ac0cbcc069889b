import OsLabs.Runs
import OsLabs.KeyLog

/-! Keystrokes of the loaded tasklet module, from the interrupt to the array simbol. Every
interrupt is on IRQ 1 and replaces the byte in port 0x60; my_handler only schedules, and the
port is read inside the tasklet run. Interrupts may fall before and after that read. A run
ends with its store, the lines for the kernel log are left out. -/
namespace OsLabs.TaskletKeys
open Runs KeyLog

inductive Work where
  | idle
  | started
  | read (code : UInt8)
  deriving DecidableEq, Repr

/- The last three fields only keep the history: the codes of all interrupts, those read and the
symbols written to the array, oldest first. -/
structure State where
  port : UInt8
  scheduled : Bool
  work : Work
  log : SimbolLog
  pressed : List UInt8
  read : List UInt8
  stored : List String

def loaded : State := ⟨0, false, .idle, .empty, [], [], []⟩

def symbol (code : UInt8) : Option String := ascii[code.toNat]?

def entered (log : SimbolLog) (code : UInt8) : Option String :=
  if log.pos < posMax then symbol code else none

inductive Act where
  | interrupt (code : UInt8)
  | taskletStarts
  | inb
  | taskletStores
  deriving DecidableEq, Repr

/- tasklet_schedule leaves a scheduled tasklet as it is. -/
def myHandler (s : State) (code : UInt8) : State :=
  {s with port := code, scheduled := true, pressed := s.pressed ++ [code]}

/- The scheduled state is cleared before the function runs; one tasklet never runs twice at
the same time. -/
def step (s : State) : Act → Option State
  | .interrupt code => some (myHandler s code)
  | .taskletStarts => match s.work with
    | .idle => if s.scheduled then some {s with scheduled := false, work := .started} else none
    | _ => none
  | .inb => match s.work with
    | .started => some {s with work := .read s.port, read := s.read ++ [s.port]}
    | _ => none
  | .taskletStores => match s.work with
    | .read code => some {s with
        work := .idle
        log := s.log.press code
        stored := s.stored ++ (entered s.log code).toList}
    | _ => none

def Idle (s : State) : Prop := s.work = .idle ∧ s.scheduled = false

theorem symbolBelow (code : UInt8) : (symbol code).isSome ↔ code < 84 := by
  rw [symbol, UInt8.lt_iff_toNat_lt]
  by_cases below : code.toNat < ascii.length
  · simp only [List.getElem?_eq_getElem below, Option.isSome_some, true_iff]
    exact below
  · simp only [List.getElem?_eq_none (Nat.le_of_not_lt below), Option.isSome_none, false_iff,
      Bool.false_eq_true]
    exact below

def coming (s : State) : List UInt8 :=
  (match s.work with
    | .idle => []
    | .started => [s.port]
    | .read code => [code]) ++ if s.scheduled then [s.port] else []

/- An interrupt may replace a byte only if every read to come then stores what it should: a
scheduled run was to find no symbol, a started one finds the same symbol as before. -/
def Spared (port code : UInt8) : Work → Bool → Prop
  | .started, true => symbol port = none ∧ symbol code = none
  | .started, false => symbol port = symbol code
  | .idle, true | .read _, true => symbol port = none
  | .idle, false | .read _, false => True

def Fits (log : SimbolLog) : Work → Prop
  | .read code => symbol code = none ∨ log.pos < posMax
  | .idle | .started => True

def Kept (s : State) : Act → Prop
  | .interrupt code => Spared s.port code s.work s.scheduled
  | .taskletStores => Fits s.log s.work
  | .taskletStarts | .inb => True

instance (port code : UInt8) : (work : Work) → (scheduled : Bool) →
    Decidable (Spared port code work scheduled)
  | .started, true => inferInstanceAs (Decidable (symbol port = none ∧ symbol code = none))
  | .started, false => inferInstanceAs (Decidable (symbol port = symbol code))
  | .idle, true | .read _, true => inferInstanceAs (Decidable (symbol port = none))
  | .idle, false | .read _, false => isTrue trivial

instance (log : SimbolLog) : (work : Work) → Decidable (Fits log work)
  | .read code => inferInstanceAs (Decidable (symbol code = none ∨ log.pos < posMax))
  | .idle | .started => isTrue trivial

instance (s : State) : (a : Act) → Decidable (Kept s a)
  | .interrupt code => inferInstanceAs (Decidable (Spared s.port code s.work s.scheduled))
  | .taskletStores => inferInstanceAs (Decidable (Fits s.log s.work))
  | .taskletStarts | .inb => isTrue trivial

def Owed (s : State) : Prop :=
  s.stored ++ (coming s).filterMap symbol = s.pressed.filterMap symbol

theorem readsExactly (s : State) (code : UInt8) :
    (coming s ++ [code]).filterMap symbol = (coming (myHandler s code)).filterMap symbol ↔
      Kept s (.interrupt code) := by
  cases work : s.work with
  | idle | started =>
    cases scheduled : s.scheduled <;> cases before : symbol s.port <;> cases now : symbol code <;>
      simp_all [Kept, Spared, coming, myHandler]
  | read held =>
    cases scheduled : s.scheduled <;> cases before : symbol s.port <;> cases now : symbol code <;>
      cases early : symbol held <;> simp_all [Kept, Spared, coming, myHandler]

theorem interruptExactly {s : State} {code : UInt8} (owed : Owed s) :
    Owed (myHandler s code) ↔ Kept s (.interrupt code) := by
  have before : s.stored ++ (coming s).filterMap symbol = s.pressed.filterMap symbol := owed
  rw [← readsExactly]
  change s.stored ++ (coming (myHandler s code)).filterMap symbol =
    (s.pressed ++ [code]).filterMap symbol ↔ _
  rw [List.filterMap_append, ← before, List.append_assoc, List.append_cancel_left_eq,
    ← List.filterMap_append]
  exact eq_comm

theorem enteredExactly (log : SimbolLog) (code : UInt8) :
    (entered log code).toList = (symbol code).toList ↔ symbol code = none ∨ log.pos < posMax := by
  by_cases room : log.pos < posMax
  · simp only [entered, room, if_true, or_true]
  · cases symbol code <;> simp [entered, room]

theorem storesExactly {s : State} {code : UInt8} (read : s.work = .read code) (owed : Owed s) :
    Owed {s with
      work := .idle
      log := s.log.press code
      stored := s.stored ++ (entered s.log code).toList} ↔ Kept s .taskletStores := by
  have before : s.stored ++ ((symbol code).toList ++
      (if s.scheduled then [s.port] else []).filterMap symbol) = s.pressed.filterMap symbol := by
    cases found : symbol code <;> simpa [Owed, coming, read, found] using owed
  have room : Kept s .taskletStores ↔ symbol code = none ∨ s.log.pos < posMax := by
    simp only [Kept, Fits, read]
  change (s.stored ++ (entered s.log code).toList) ++
    ([] ++ if s.scheduled then [s.port] else []).filterMap symbol = s.pressed.filterMap symbol ↔ _
  rw [room, ← enteredExactly, ← before, List.append_assoc, List.append_cancel_left_eq,
    List.nil_append, List.append_cancel_right_eq]

theorem stepExactly {s u : State} {a : Act} (owed : Owed s) (taken : step s a = some u) :
    Owed u ↔ Kept s a := by
  cases a with
  | interrupt code =>
    cases taken
    exact interruptExactly owed
  | taskletStarts =>
    simp only [step] at taken
    split at taken
    · rename_i idle
      split at taken
      · rename_i scheduled
        cases taken
        exact ⟨fun _ => trivial, fun _ => by simpa [Owed, coming, idle, scheduled] using owed⟩
      · cases taken
    · cases taken
  | inb =>
    simp only [step] at taken
    split at taken
    · rename_i started
      cases taken
      exact ⟨fun _ => trivial, fun _ => by simpa [Owed, coming, started] using owed⟩
    · cases taken
  | taskletStores =>
    simp only [step] at taken
    split at taken
    · rename_i code read
      cases taken
      exact storesExactly read owed
    · cases taken

def Filled (s : State) : Prop :=
  (List.range s.log.pos).map s.log.simbol = s.stored.map some

theorem pressFilled {log : SimbolLog} {code : UInt8} {stored : List String}
    (room : symbol code = none ∨ log.pos < posMax)
    (filled : (List.range log.pos).map log.simbol = stored.map some) :
    (List.range (log.press code).pos).map (log.press code).simbol =
      (stored ++ (entered log code).toList).map some := by
  rw [(enteredExactly log code).mpr room]
  cases found : symbol code with
  | none =>
    have same : log.press code = log := by
      simp only [SimbolLog.press, show ascii[code.toNat]? = none from found]
    rw [same]
    simpa using filled
  | some name =>
    have room : log.pos < posMax := by simpa [found] using room
    have next : log.press code =
        ⟨Function.update log.simbol log.pos (some name), log.pos + 1, room⟩ := by
      simp only [SimbolLog.press, show ascii[code.toNat]? = some name from found, dif_pos room]
    have untouched : (List.range log.pos).map (Function.update log.simbol log.pos (some name)) =
        (List.range log.pos).map log.simbol := by
      apply List.map_congr_left
      intro i inside
      exact Function.update_of_ne (Nat.ne_of_lt (List.mem_range.mp inside)) _ _
    simp only [next, List.range_succ, List.map_append, untouched, filled, List.map_cons,
      List.map_nil, Function.update_self, Option.toList_some]

theorem stepFilled {s u : State} {a : Act} (filled : Filled s) (kept : Kept s a)
    (taken : step s a = some u) : Filled u := by
  cases a with
  | interrupt code =>
    cases taken
    exact filled
  | taskletStarts =>
    simp only [step] at taken
    split at taken
    · split at taken
      · cases taken
        exact filled
      · cases taken
    · cases taken
  | inb =>
    simp only [step] at taken
    split at taken
    · cases taken
      exact filled
    · cases taken
  | taskletStores =>
    simp only [step] at taken
    split at taken
    · rename_i code read
      cases taken
      exact pressFilled (by simpa [Kept, Fits, read] using kept) filled
    · cases taken

theorem keysKept {labels : List Act} {last : State} (run : Run step Kept loaded labels last)
    (idle : Idle last) : last.stored = last.pressed.filterMap symbol ∧
      (List.range last.log.pos).map last.log.simbol = last.stored.map some := by
  have both : Owed last ∧ Filled last :=
    runInvariant (fun s => Owed s ∧ Filled s)
      (fun _ _ _ held kept taken => ⟨(stepExactly held.1 taken).mpr kept, stepFilled held.2 kept taken⟩)
      run ⟨rfl, rfl⟩
  obtain ⟨owed, filled⟩ := both
  obtain ⟨work, scheduled⟩ := idle
  refine ⟨?_, filled⟩
  simpa [Owed, coming, work, scheduled] using owed

def typed : List Act :=
  [.interrupt 30, .taskletStarts, .inb, .interrupt 158, .taskletStores, .interrupt 31,
   .taskletStarts, .inb, .taskletStores]

theorem typedKept : ∃ last, Run step Kept loaded typed last ∧
    last.stored = last.pressed.filterMap symbol ∧
      (List.range last.log.pos).map last.log.simbol = last.stored.map some := by
  obtain ⟨last, run, ended⟩ := checkedEnd step Kept loaded typed
    (fun s => (s.work, s.scheduled)) (.idle, false) (by decide +kernel)
  exact ⟨last, run, keysKept run (Prod.mk.inj ended)⟩

def hurried : List Act := [.interrupt 30, .interrupt 31, .taskletStarts, .inb, .taskletStores]

theorem hurriedLost : ¬ ∀ labels last, Run step (fun _ _ => True) loaded labels last → Idle last →
    last.stored = last.pressed.filterMap symbol := by
  intro always
  obtain ⟨last, run, ended⟩ := checkedEnd step (fun _ _ => True) loaded hurried
    (fun s => ((s.work, s.scheduled), s.stored, s.pressed.filterMap symbol))
    ((.idle, false), ["S"], ["A", "S"]) (by decide +kernel)
  rw [Prod.mk.injEq, Prod.mk.injEq, Prod.mk.injEq] at ended
  obtain ⟨idle, stored, pressed⟩ := ended
  have same := always hurried last run idle
  rw [stored, pressed] at same
  exact absurd same (by decide)

end OsLabs.TaskletKeys
