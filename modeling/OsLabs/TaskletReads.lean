import OsLabs.CoalescedRuns
import OsLabs.TaskletKeys

/-! Which codes the tasklet reads when interrupts come faster than its runs: over every run of
OsLabs.TaskletKeys, kept or not. -/
namespace OsLabs.TaskletKeys
open Runs KeyLog CoalescedRuns

def enter (before : SimbolLog × List String) (code : UInt8) : SimbolLog × List String :=
  (before.1.press code, before.2 ++ (entered before.1 code).toList)

def State.handled (s : State) : List UInt8 :=
  match s.work with
  | .read _ => s.read.dropLast
  | .idle | .started => s.read

def Work.At : Work → Stage → Prop
  | .idle, stage => stage = .idle
  | .started, stage => ∃ requests, stage = .started requests
  | .read _, stage => stage = .looked

structure Reading (s : State) (slot : Slot) (stage : Stage) (looks : List (Nat × Nat)) : Prop where
  serves : Serves slot stage looks s.pressed s.read
  pending : slot.pending = s.scheduled
  stands : s.work.At stage
  port : s.pressed ≠ [] → s.pressed.getLast? = some s.port
  held : ∀ code, s.work = .read code → ∃ before, s.read = before ++ [code]
  stored : (s.log, s.stored) = s.handled.foldl enter (.empty, [])

def Tells (s : State) : Prop := ∃ slot stage looks, Reading s slot stage looks

theorem loadedTells : Tells loaded :=
  ⟨_, _, _, emptyServes, rfl, rfl, fun filled => absurd rfl filled, fun code read => (by cases read), rfl⟩

theorem stepTells {s u : State} {a : Act} (tells : Tells s) (taken : step s a = some u) : Tells u := by
  obtain ⟨slot, stage, looks, serves, pending, stands, port, held, stored⟩ := tells
  cases a with
  | interrupt code =>
    cases taken
    exact ⟨_, _, _, requestServes serves code, rfl, stands, fun _ => List.getLast?_concat, held, stored⟩
  | taskletStarts =>
    simp only [step] at taken
    split at taken
    · rename_i idle
      split at taken
      · rename_i scheduled
        cases taken
        rw [idle] at stands
        cases stands
        rw [State.handled, idle] at stored
        exact ⟨_, _, _, beginServes serves (pending.trans scheduled), rfl, ⟨_, rfl⟩, port,
          fun code read => (by cases read), stored⟩
      · cases taken
    · cases taken
  | inb =>
    simp only [step] at taken
    split at taken
    · rename_i started
      cases taken
      rw [started] at stands
      obtain ⟨requests, rfl⟩ := stands
      obtain ⟨code, newest, looked⟩ := lookServes serves
      have filled : s.pressed ≠ [] := by
        intro empty
        rw [empty] at newest
        cases newest
      obtain rfl : s.port = code := Option.some.inj ((port filled).symm.trans newest)
      rw [State.handled, started] at stored
      refine ⟨_, _, _, looked, pending, rfl, port, fun code read => ?_, ?_⟩
      · cases read
        exact ⟨s.read, rfl⟩
      · rw [State.handled, List.dropLast_concat]
        exact stored
    · cases taken
  | taskletStores =>
    simp only [step] at taken
    split at taken
    · rename_i code read
      cases taken
      rw [read] at stands
      cases stands
      obtain ⟨before, last⟩ := held code read
      rw [State.handled, read, last, List.dropLast_concat] at stored
      refine ⟨_, _, _, endServes serves, pending, rfl, port, fun code same => (by cases same), ?_⟩
      simp only [State.handled, last, List.foldl_append, ← stored]
      rfl
    · cases taken

theorem taskletReads {labels : List Act} {last : State}
    (run : Run step (fun _ _ => True) loaded labels last) :
    ReadInOrder last.pressed last.read ∧
      (last.log, last.stored) = last.handled.foldl enter (.empty, []) ∧
      (Idle last → last.handled = last.read ∧ last.read.getLast? = last.pressed.getLast?) := by
  obtain ⟨slot, stage, looks, serves, pending, stands, -, -, stored⟩ :=
    runInvariant Tells (fun _ _ _ before _ taken => stepTells before taken) run loadedTells
  refine ⟨readsOrdered serves, stored, ?_⟩
  rintro ⟨idle, rest⟩
  rw [idle] at stands
  cases stands
  exact ⟨by rw [State.handled, idle], servesLast serves (pending.trans rest)⟩

theorem hurriedReads : ∃ last, Run step (fun _ _ => True) loaded
      (hurried.take 4 ++ [.interrupt 32, .taskletStores, .taskletStarts, .inb, .taskletStores]) last ∧
    ReadInOrder last.pressed last.read ∧ last.pressed = [30, 31, 32] ∧ last.read = [31, 32] ∧
    (last.log, last.stored) = [31, 32].foldl enter (.empty, []) := by
  obtain ⟨last, run, seen⟩ := checkedEnd step (fun _ _ => True) loaded
    (hurried.take 4 ++ [.interrupt 32, .taskletStores, .taskletStarts, .inb, .taskletStores])
    (fun s => (s.pressed, s.read, s.work, s.scheduled)) ([30, 31, 32], [31, 32], .idle, false)
    (by decide +kernel)
  simp only [Prod.mk.injEq] at seen
  obtain ⟨pressed, read, rest⟩ := seen
  obtain ⟨ordered, stored, ended⟩ := taskletReads run
  rw [(ended rest).1, read] at stored
  exact ⟨last, run, ordered, pressed, read, stored⟩

end OsLabs.TaskletKeys
