import OsLabs.InfoFromFile
import OsLabs.RingWalk
import OsLabs.TextColumns

/-! md_init of part1 of lab_03: a record of the kernel's log for each task of the list from
init_task on, and one for the task that loads the module. The code takes no lock; the list is taken
to stand still. -/
namespace OsLabs.TaskList
open CMemory Function RingWalk TextColumns
open ProcInfo (textBytes)

def taskCommLen : Nat := 16
def space : Byte := 32

structure Task (α : Type*) where
  comm : List Byte
  pid : Int
  state : Int
  staticPrio : Int
  parent : α
  short : comm.length < taskCommLen

structure Tasks (α : Type*) where
  task : α → Task α
  nextTask : α → α
  initTask : α
  current : α

def loaded : List Byte := textBytes "LAB_03 (Part 1): module is loaded.\n"
def nameLabel : List Byte := textBytes "LAB_03 (Part 1): name: "
def thisLabel : List Byte := textBytes "LAB_03 (Part 1): This name: "

/- "%-20s\t id: %-9d state: %-7ld static_prio: %-7d; parent name: %-20s\t id: %-5d", behind a label. -/
def taskLine {α : Type*} (label : List Byte) (t parent : Task α) : List Byte :=
  label ++ padded space 20 t.comm ++ textBytes "\t id: " ++ padded space 9 (intText t.pid) ++
    textBytes " state: " ++ padded space 7 (intText t.state) ++
    textBytes " static_prio: " ++ padded space 7 (intText t.staticPrio) ++
    textBytes "; parent name: " ++ padded space 20 parent.comm ++
    textBytes "\t id: " ++ padded space 5 (intText parent.pid)

structure Row where
  comm : List Byte
  pid : Int
  state : Int
  staticPrio : Int
  parentComm : List Byte
  parentPid : Int
  deriving DecidableEq, Repr

def readTask (label text : List Byte) : Option Row := do
  let comm := readFixed space 20 (← strip label text)
  let pid := readWord space isNumeral (← strip (textBytes "\t id: ") comm.2)
  let state := readWord space isNumeral (← strip (textBytes "state: ") pid.2)
  let prio := readWord space isNumeral (← strip (textBytes "static_prio: ") state.2)
  let parentComm := readFixed space 20 (← strip (textBytes "; parent name: ") prio.2)
  let parentPid := readWord space isNumeral (← strip (textBytes "\t id: ") parentComm.2)
  some ⟨comm.1, readInt pid.1, readInt state.1, readInt prio.1, parentComm.1, readInt parentPid.1⟩

section Lines
variable {α : Type*}

theorem nameBack {t : Task α} (trimmed : Trimmed space t.comm) (rest : List Byte) :
    readFixed space 20 (padded space 20 t.comm ++ rest) = (t.comm, rest) :=
  readFixedBack (Nat.le_of_lt (Nat.lt_of_lt_of_le t.short (by decide))) trimmed rest

theorem numberBack (width n : Nat) (v : Int) {label : List Byte} {b : Byte} (first : label.head? = some b)
    (other : isNumeral b = false ∧ b ≠ space) (rest : List Byte) :
    readWord space isNumeral (padded space width (intText v) ++ (List.replicate n space ++ (label ++ rest))) =
      (intText v, label ++ rest) := by
  rw [padded, List.append_assoc, ← List.append_assoc (List.replicate _ _), List.replicate_append_replicate]
  refine readWordBack intNumerals (by decide) (fun c mem => ?_) _
  rw [List.head?_append, first] at mem
  cases Option.some.inj mem
  exact other

theorem numberLast (width : Nat) (v : Int) :
    readWord space isNumeral (padded space width (intText v)) = (intText v, []) := by
  have back := @readWordBack _ _ space isNumeral (intText v) [] intNumerals (by decide)
    (fun b mem => by cases mem) (width - (intText v).length)
  rwa [List.append_nil] at back

theorem taskBack (label : List Byte) {t parent : Task α} (own : Trimmed space t.comm)
    (theirs : Trimmed space parent.comm) : readTask label (taskLine label t parent) =
      some ⟨t.comm, t.pid, t.state, t.staticPrio, parent.comm, parent.pid⟩ := by
  have states : textBytes " state: " = List.replicate 1 space ++ textBytes "state: " := by decide +kernel
  have prios : textBytes " static_prio: " = List.replicate 1 space ++ textBytes "static_prio: " := by
    decide +kernel
  have pid := @numberBack 9 1 t.pid (textBytes "state: ") 115 (by decide +kernel) (by decide)
  have state := @numberBack 7 1 t.state (textBytes "static_prio: ") 115 (by decide +kernel) (by decide)
  have prio := @numberBack 7 0 t.staticPrio (textBytes "; parent name: ") 59 (by decide +kernel) (by decide)
  simp only [List.replicate_zero, List.nil_append] at prio
  simp only [readTask, taskLine, states, prios, List.append_assoc, stripAppend, bind, Option.bind_some,
    nameBack own, nameBack theirs, pid, state, prio, numberLast, readIntBack]

def mdInit [DecidableEq α] (fuel : Nat) (s : Tasks α) : Option (List (List Byte)) :=
  (walk s.nextTask s.initTask fuel s.initTask).map fun visited =>
    loaded :: visited.map (fun t => taskLine nameLabel (s.task t) (s.task (s.task t).parent)) ++
      [taskLine thisLabel (s.task s.current) (s.task (s.task s.current).parent)]

def Tasks.row (s : Tasks α) (t : α) : Row :=
  ⟨(s.task t).comm, (s.task t).pid, (s.task t).state, (s.task t).staticPrio,
    (s.task (s.task t).parent).comm, (s.task (s.task t).parent).pid⟩

structure Tells (log : List (List Byte)) (rows : List Row) (this : Row) : Prop where
  first : log.head? = some loaded
  listed : log.tail.dropLast.map (readTask nameLabel) = rows.map some
  last : log.getLast?.bind (readTask thisLabel) = some this

theorem logTells (s : Tasks α) (trimmed : ∀ t, Trimmed space (s.task t).comm) (visited : List α) :
    Tells (loaded :: visited.map (fun t => taskLine nameLabel (s.task t) (s.task (s.task t).parent)) ++
        [taskLine thisLabel (s.task s.current) (s.task (s.task s.current).parent)])
      (visited.map s.row) (s.row s.current) := by
  have back : ∀ (label : List Byte) t,
      readTask label (taskLine label (s.task t) (s.task (s.task t).parent)) = some (s.row t) :=
    fun label t => taskBack label (trimmed t) (trimmed _)
  refine ⟨rfl, ?_, ?_⟩
  · rw [List.cons_append, List.tail_cons, List.dropLast_concat, List.map_map, List.map_map]
    exact List.map_congr_left fun t _ => back nameLabel t
  · rw [List.getLast?_concat, Option.bind_some, back]

theorem ringListed [DecidableEq α] (s : Tasks α) (trimmed : ∀ t, Trimmed space (s.task t).comm) :
    (s.initTask ∉ periodicPts s.nextTask → ∀ fuel, mdInit fuel s = none) ∧
    (s.initTask ∈ periodicPts s.nextTask → ∃ visited log, visited.Nodup ∧
      visited = members s.nextTask s.initTask visited.length ∧
      (∀ t, t ∈ visited ↔ ∃ k, s.nextTask^[k] s.initTask = t) ∧
      (∀ fuel, visited.length ≤ fuel → mdInit fuel s = some log) ∧
      Tells log (visited.map s.row) (s.row s.current)) ∧
    (Finite α → ∀ prevTask, LeftInverse prevTask s.nextTask → s.initTask ∈ periodicPts s.nextTask) := by
  refine ⟨fun apart fuel => ?_, fun periodic => ?_, fun finite prevTask linked => ?_⟩
  · refine Option.map_eq_none_iff.mpr (Option.eq_none_iff_forall_ne_some.mpr fun visited ended => ?_)
    exact apart (walkPeriod ended).1
  · refine ⟨_, _, ringNodup s.nextTask s.initTask, ?_, ringMem periodic, fun fuel enough => ?_,
      logTells s trimmed _⟩
    · rw [membersLength]
    · rw [membersLength] at enough
      rw [mdInit, ringWalked periodic enough, Option.map_some]
  · exact linked.injective.mem_periodicPts s.initTask

end Lines

def swapper : Task (Fin 3) := ⟨textBytes "swapper/0", 0, 0, 120, 0, by decide +kernel⟩
def systemd : Task (Fin 3) := ⟨textBytes "systemd", 1, 1, 120, 0, by decide +kernel⟩
def insmod : Task (Fin 3) := ⟨textBytes "insmod", 4711, 0, 120, 1, by decide +kernel⟩

def three : Tasks (Fin 3) :=
  ⟨fun t => if t = 0 then swapper else if t = 1 then systemd else insmod, fun t => t + 1, 0, 2⟩

theorem threeListed : ∃ (visited : List (Fin 3)) (log : List (List Byte)),
    (∀ t, t ∈ visited) ∧ mdInit visited.length three = some log ∧
    Tells log (visited.map three.row) (three.row 2) := by
  have trimmed : ∀ t, Trimmed space (three.task t).comm := by decide +kernel
  have ring := (ringListed three trimmed).2.2 inferInstance (fun t => t - 1)
    (by decide : ∀ t : Fin 3, t + 1 - 1 = t)
  obtain ⟨visited, log, -, -, mem, runs, tells⟩ := (ringListed three trimmed).2.1 ring
  have all : ∀ t, three.nextTask^[t.val] three.initTask = t := by decide
  exact ⟨visited, log, fun t => (mem t).mpr ⟨t.val, all t⟩, runs _ (Nat.le_refl _), tells⟩

end OsLabs.TaskList
