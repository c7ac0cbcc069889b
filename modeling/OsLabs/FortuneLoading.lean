import OsLabs.FortuneFence

/-! Writes that reach a fortune module while initFortune is still running. Once
proc_create has returned, the statements of a writeFortune call and the remaining ones of
initFortune come in any order; the calls follow one another. fortune.c and seqfile.c
contain the same statements, so both are stated over the common statics. -/
namespace OsLabs.FortuneStore.Loading
open CInteger CMemory Runs

inductive Stage where
  | vmalloc | memset | procMkdir | procCreate | procSymlink | resetRead | resetWrite | finish
  | loaded | failed
  deriving DecidableEq, Repr

def Stage.registered : Stage → Bool
  | .procSymlink | .resetRead | .resetWrite | .finish | .loaded => true
  | .vmalloc | .memset | .procMkdir | .procCreate | .failed => false

inductive Point where
  | copyFromUser | advance | putNewline | putNul | finish
  deriving DecidableEq, Repr

structure Call where
  request : WriteCall
  point : Point

structure Loader where
  statics : Statics
  stage : Stage
  call : Option Call
  acknowledged : List (List Byte)

def start (outside : Mem) : Loader := ⟨⟨outside, 0, 0⟩, .vmalloc, none, []⟩

/- `ok` is the outcome of a statement that may fail. remove_proc_entry, in cleanUpFortune,
waits for the calls under way. -/
def initFortune (w : Loader) (ok : Bool) : Option Loader :=
  match w.stage with
  | .vmalloc => some {w with stage := if ok then .memset else .failed}
  | .memset => some {w with
      statics := {w.statics with buffer := CMemory.memset w.statics.buffer 0 0 cookieMaxBufSize}
      stage := .procMkdir}
  | .procMkdir => some {w with stage := if ok then .procCreate else .failed}
  | .procCreate => some {w with stage := if ok then .procSymlink else .failed}
  | .procSymlink =>
      if ok then some {w with stage := .resetRead}
      else if w.call.isNone then some {w with stage := .failed} else none
  | .resetRead => some {w with statics := {w.statics with readInd := 0}, stage := .resetWrite}
  | .resetWrite => some {w with statics := {w.statics with writeInd := 0}, stage := .finish}
  | .finish => some {w with stage := .loaded}
  | .loaded => none
  | .failed => none

def putAt (s : Statics) (index : Int) (value : Byte) : Statics :=
  {s with buffer := put s.buffer ⟨index, value⟩}

def writeFortune (w : Loader) (k : Call) : Loader :=
  let s := w.statics
  let c := k.request
  match k.point with
  | .copyFromUser =>
      match c.copy with
      | .fault copied => {w with
          statics := {s with buffer := putAll s.buffer (copyTo s.writeInd (partialCopy c copied))}
          call := none}
      | .done => {w with
          statics := {s with buffer := putAll s.buffer (copyTo s.writeInd c.user)}
          call := some ⟨c, .advance⟩}
  | .advance => {w with
      statics := {s with writeInd := toInt (s.writeInd + c.len)}
      call := some ⟨c, .putNewline⟩}
  | .putNewline => {w with
      statics := putAt s (toInt (s.writeInd - 1)) newline
      call := some ⟨c, .putNul⟩}
  | .putNul => {w with statics := putAt s s.writeInd 0, call := some ⟨c, .finish⟩}
  | .finish => {w with
      statics := {s with writeInd := toInt (s.writeInd + 1)}
      call := none
      acknowledged := w.acknowledged ++ [sealText c.user]}

inductive Action where
  | init (ok : Bool)
  | write (c : WriteCall)
  | resume

/- A write begins with its space check; a refused one ends there. -/
def loadStep (w : Loader) : Action → Option Loader
  | .init ok => initFortune w ok
  | .write c =>
      if w.stage.registered ∧ w.call.isNone then
        if spaceLeft w.statics.writeInd < c.len then some w
        else some {w with call := some ⟨c, .copyFromUser⟩}
      else none
  | .resume => w.call.map (writeFortune w)

theorem callWhole (w : Loader) (c : WriteCall) (file : w.stage.registered) (idle : w.call = none)
    (room : ¬ spaceLeft w.statics.writeInd < c.len) (done : c.copy = .done) :
    exec loadStep w [.write c, .resume, .resume, .resume, .resume, .resume] =
      some {w with
        statics := (FortuneStore.writeFortune w.statics c).state
        acknowledged := w.acknowledged ++ [sealText c.user]} := by
  simp [exec, loadStep, file, idle, room, writeFortune, done, FortuneStore.writeFortune, putAt,
    putAll]

def Loader.moved (w : Loader) : Nat :=
  match w.call with
  | none | some ⟨_, .copyFromUser⟩ | some ⟨_, .advance⟩ => 0
  | some ⟨c, .putNewline⟩ | some ⟨c, .putNul⟩ | some ⟨c, .finish⟩ => c.len

def Loader.pending (w : Loader) : Nat :=
  match w.call with
  | none => 0
  | some ⟨c, .copyFromUser⟩ => if c.copy = .done then c.len + 1 else 0
  | some ⟨c, .advance⟩ => c.len + 1
  | some ⟨_, .putNewline⟩ | some ⟨_, .putNul⟩ | some ⟨_, .finish⟩ => 1

def Loader.expected (w : Loader) : Nat := (image w.acknowledged).length + w.moved

def Stored (w : Loader) : Prop :=
  Holds w.statics.buffer 0 (image w.acknowledged) ∧
    w.statics.writeInd = (image w.acknowledged).length

/- A call that passes the space check and whose copy succeeds brings a byte and leaves writeInd in
the page. A faulting call does not move writeInd, and stores only behind the fortunes. -/
def Fits (w : Loader) : Action → Prop
  | .write c => c.len ≤ spaceLeft w.statics.writeInd → c.copy = .done →
      c.user ≠ [] ∧ w.statics.writeInd + c.len + 1 ≤ cookieMaxBufSize
  | .init _ => True
  | .resume => True

def Unmoved (w : Loader) : Action → Prop
  | .init _ => w.stage = .resetWrite → w.statics.writeInd = 0
  | .write _ => True
  | .resume => True

instance (w : Loader) : (action : Action) → Decidable (Fits w action)
  | .write _ => inferInstanceAs (Decidable (_ → _ → _))
  | .init _ => inferInstanceAs (Decidable True)
  | .resume => inferInstanceAs (Decidable True)

instance (w : Loader) : (action : Action) → Decidable (Unmoved w action)
  | .init _ => inferInstanceAs (Decidable (_ → _))
  | .write _ => inferInstanceAs (Decidable True)
  | .resume => inferInstanceAs (Decidable True)

def Partway (m : Mem) (base : Int) : Call → Prop
  | ⟨_, .copyFromUser⟩ => True
  | ⟨c, .advance⟩ => Holds m base c.user
  | ⟨c, .putNewline⟩ => Holds m base c.user
  | ⟨c, .putNul⟩ => Holds m base (sealText c.user)
  | ⟨c, .finish⟩ => Holds m base (sealText c.user ++ [0])

structure Sized (w : Loader) : Prop where
  low : 0 ≤ w.statics.writeInd
  room : w.statics.writeInd + w.pending ≤ cookieMaxBufSize
  filled : ∀ k ∈ w.call, k.request.user ≠ []
  early : w.stage.registered = false → w.call = none
  blank : w.stage ∈ [.vmalloc, .memset] → w.acknowledged = []

structure Sound (w : Loader) : Prop extends Sized w where
  bytes : Holds w.statics.buffer 0 (image w.acknowledged)
  used : w.statics.writeInd = w.expected
  partway : ∀ k ∈ w.call, Partway w.statics.buffer (image w.acknowledged).length k

structure Lost (w : Loader) : Prop extends Sized w where
  behind : w.statics.writeInd < w.expected

theorem faultFilled {c : WriteCall} (copied : Fin c.user.length) : c.user ≠ [] :=
  List.length_pos_iff.mp (Nat.zero_lt_of_lt copied.isLt)

theorem startSound (outside : Mem) : Sound (start outside) :=
  ⟨⟨Int.le_refl 0, by simp [start, Loader.pending], by simp [start], fun _ => rfl, fun _ => rfl⟩,
    trivial, rfl, by simp [start]⟩

structure InitStep (w u : Loader) : Prop where
  call : u.call = w.call
  acknowledged : u.acknowledged = w.acknowledged
  buffer : w.stage ≠ .memset → u.statics.buffer = w.statics.buffer
  kept : w.stage ≠ .resetWrite → u.statics.writeInd = w.statics.writeInd
  reset : w.stage = .resetWrite → u.statics.writeInd = 0
  early : u.stage.registered = false → w.stage.registered = false ∨ w.call = none
  blank : u.stage ∈ [.vmalloc, .memset] → w.stage = .vmalloc

theorem initSteps {w u : Loader} {ok : Bool} (taken : initFortune w ok = some u) : InitStep w u := by
  cases stage : w.stage <;> cases ok <;>
    simp only [initFortune, stage, Bool.false_eq_true, if_false, if_true, Option.some.injEq] at taken
  case procSymlink.false =>
    split at taken
    · rename_i idle
      cases Option.some.inj taken
      exact ⟨rfl, rfl, by simp, by simp, by simp [stage], fun _ => .inr (by simpa using idle), by simp⟩
    · contradiction
  all_goals try contradiction
  all_goals
    subst taken
    exact ⟨rfl, rfl, by simp [stage], by simp [stage], by simp [stage],
      by simp [stage, Stage.registered], by simp [stage]⟩

theorem initSized {w u : Loader} (sized : Sized w) (step : InitStep w u) : Sized u := by
  have pending : u.pending = w.pending := by simp only [Loader.pending, step.call]
  have bounds : 0 ≤ u.statics.writeInd ∧ u.statics.writeInd + u.pending ≤ cookieMaxBufSize := by
    have low := sized.low
    have room := sized.room
    by_cases stage : w.stage = .resetWrite
    · have reset := step.reset stage
      omega
    · have kept := step.kept stage
      omega
  refine ⟨bounds.1, bounds.2, ?_, ?_, ?_⟩
  · rw [step.call]
    exact sized.filled
  · intro early
    rw [step.call]
    exact (step.early early).elim sized.early id
  · intro early
    rw [step.acknowledged]
    exact sized.blank (by simp [step.blank early])

theorem initExpected {w u : Loader} (step : InitStep w u) : u.expected = w.expected := by
  simp only [Loader.expected, Loader.moved, step.call, step.acknowledged]

theorem initSound {w u : Loader} (sound : Sound w) (step : InitStep w u)
    (unmoved : w.stage = .resetWrite → w.statics.writeInd = 0) : Sound u := by
  have used : u.statics.writeInd = w.statics.writeInd := by
    by_cases stage : w.stage = .resetWrite
    · rw [step.reset stage, unmoved stage]
    · exact step.kept stage
  refine ⟨initSized sound.toSized step, ?_, by rw [used, initExpected step, sound.used], ?_⟩
  · by_cases stage : w.stage = .memset
    · have nothing : w.acknowledged = [] := sound.blank (by simp [stage])
      rw [step.acknowledged, nothing]
      trivial
    · rw [step.acknowledged, step.buffer stage]
      exact sound.bytes
  · intro k under
    rw [step.call] at under
    by_cases stage : w.stage = .memset
    · have idle := sound.early (by simp [stage, Stage.registered])
      rw [idle] at under
      contradiction
    · rw [step.acknowledged, step.buffer stage]
      exact sound.partway k under

theorem resetLoses {w u : Loader} (sound : Sound w) (step : InitStep w u)
    (stage : w.stage = .resetWrite) (written : w.statics.writeInd ≠ 0) : Lost u := by
  have used := sound.used
  refine ⟨initSized sound.toSized step, ?_⟩
  rw [step.reset stage, initExpected step]
  omega

theorem initLost {w u : Loader} (lost : Lost w) (step : InitStep w u) : Lost u := by
  have behind := lost.behind
  have low := lost.low
  refine ⟨initSized lost.toSized step, ?_⟩
  rw [initExpected step]
  by_cases stage : w.stage = .resetWrite
  · rw [step.reset stage]
    omega
  · rw [step.kept stage]
    omega

structure CallStep (w u : Loader) (c : WriteCall) : Prop where
  stage : u.stage = w.stage
  low : 0 ≤ u.statics.writeInd
  room : u.statics.writeInd + u.pending ≤ cookieMaxBufSize
  request : ∀ k ∈ u.call, k.request = c
  distance : u.expected - u.statics.writeInd = w.expected - w.statics.writeInd

theorem callSteps {w : Loader} {k : Call} (sized : Sized w) (under : w.call = some k) :
    CallStep w (writeFortune w k) k.request := by
  obtain ⟨c, point⟩ := k
  have low := sized.low
  have room := sized.room
  have page := pageSize
  have length : (sealText c.user).length = c.len := sealLength (sized.filled _ under)
  cases point <;> simp only [Loader.pending, under] at room
  case copyFromUser =>
    cases copy : c.copy with
    | fault copied =>
      simp only [copy, reduceCtorEq, if_false] at room
      simp only [writeFortune, copy]
      exact ⟨rfl, low, by simp only [Loader.pending]; omega, by simp,
        by simp [Loader.expected, Loader.moved, under]⟩
    | done =>
      simp only [copy, if_true] at room
      simp only [writeFortune, copy]
      exact ⟨rfl, low, by simp only [Loader.pending]; omega, by simp,
        by simp [Loader.expected, Loader.moved, under]⟩
  case advance =>
    have next : toInt (w.statics.writeInd + c.len) = w.statics.writeInd + c.len :=
      pageInt (by omega) (by omega)
    simp only [writeFortune, next]
    refine ⟨rfl, by simp only; omega, by simp only [Loader.pending]; omega, by simp, ?_⟩
    simp only [Loader.expected, Loader.moved, under]
    omega
  case putNewline =>
    exact ⟨rfl, low, by simp only [writeFortune, putAt, Loader.pending]; omega, by simp [writeFortune],
      by simp [writeFortune, putAt, Loader.expected, Loader.moved, under]⟩
  case putNul =>
    exact ⟨rfl, low, by simp only [writeFortune, putAt, Loader.pending]; omega, by simp [writeFortune],
      by simp [writeFortune, putAt, Loader.expected, Loader.moved, under]⟩
  case finish =>
    have next : toInt (w.statics.writeInd + 1) = w.statics.writeInd + 1 :=
      pageInt (by omega) (by omega)
    simp only [writeFortune, next]
    refine ⟨rfl, by simp only; omega, by simp only [Loader.pending]; omega, by simp, ?_⟩
    simp only [Loader.expected, Loader.moved, under, imageAppend, imageSingle, List.length_append,
      List.length_singleton, length]
    omega

theorem callSized {w u : Loader} {c : WriteCall} (sized : Sized w) {k : Call}
    (under : w.call = some k) (filled : c.user ≠ []) (step : CallStep w u c) : Sized u := by
  have file : w.stage.registered = true := by
    by_contra absent
    have idle := sized.early (by simpa using absent)
    rw [idle] at under
    contradiction
  refine ⟨step.low, step.room, ?_, ?_, ?_⟩
  · intro k later
    rw [step.request k later]
    exact filled
  · intro early
    rw [step.stage, file] at early
    contradiction
  · intro early
    rw [step.stage] at early
    cases stage : w.stage <;> simp [stage, Stage.registered] at early file

theorem heldBelow {m n : Mem} {fortunes : List (List Byte)} (held : Holds m 0 (image fortunes))
    (same : ∀ j : Int, j < (image fortunes).length → n j = m j) : Holds n 0 (image fortunes) :=
  holdsFrame held (fun j _ high => same j (by simpa using high))

theorem putFrame (m : Mem) {index j : Int} (value : Byte) (apart : j ≠ index) :
    put m ⟨index, value⟩ j = m j := if_neg apart

theorem sealHolds {m : Mem} {base : Int} {user : List Byte} (held : Holds m base user)
    (filled : user ≠ []) : Holds (put m ⟨base + user.length - 1, newline⟩) base (sealText user) := by
  have positive := List.length_pos_iff.mpr filled
  have short : (user.dropLast.length : Int) = user.length - 1 := by
    rw [List.length_dropLast]; omega
  rw [← List.dropLast_concat_getLast filled, holdsAppend] at held
  rw [sealText, holdsAppend]
  refine ⟨holdsFrame held.1 (fun j _ high => putFrame m newline (by omega)), ?_, trivial⟩
  exact if_pos (by simp only [short]; omega)

theorem callBytes {w : Loader} {k : Call} (sound : Sound w) (under : w.call = some k) :
    Holds (writeFortune w k).statics.buffer 0 (image (writeFortune w k).acknowledged) := by
  obtain ⟨c, point⟩ := k
  have used := sound.used
  have partway := sound.partway _ under
  have filled : c.user ≠ [] := sound.filled _ under
  have positive := List.length_pos_iff.mpr filled
  have same : c.user.length = c.len := rfl
  have room := sound.room
  have page := pageSize
  cases point <;> simp only [Loader.expected, Loader.moved, Loader.pending, under] at used room
  case copyFromUser =>
    cases copy : c.copy <;> simp only [writeFortune, copy] <;>
      refine heldBelow sound.bytes (fun j below => putAllFrame _ _ _ (fun store mem => ?_)) <;>
      have range := copyToIndex mem <;> omega
  case advance => exact sound.bytes
  case putNewline =>
    have back : toInt (w.statics.writeInd - 1) = w.statics.writeInd - 1 := pageInt (by omega) (by omega)
    simp only [writeFortune, putAt, back]
    exact heldBelow sound.bytes (fun j below => putFrame _ _ (by omega))
  case putNul =>
    simp only [writeFortune, putAt]
    exact heldBelow sound.bytes (fun j below => putFrame _ _ (by omega))
  case finish =>
    simp only [writeFortune, imageAppend, imageSingle, holdsAppend, Int.zero_add]
    simp only [Partway, holdsAppend] at partway
    exact ⟨sound.bytes, partway⟩

theorem callPartway {w : Loader} {k : Call} (sound : Sound w) (under : w.call = some k) :
    ∀ later ∈ (writeFortune w k).call,
      Partway (writeFortune w k).statics.buffer (image (writeFortune w k).acknowledged).length later := by
  obtain ⟨c, point⟩ := k
  have used := sound.used
  have partway := sound.partway _ under
  have filled : c.user ≠ [] := sound.filled _ under
  have positive := List.length_pos_iff.mpr filled
  have length : (sealText c.user).length = c.len := sealLength filled
  have same : c.user.length = c.len := rfl
  have room := sound.room
  have page := pageSize
  cases point <;> simp only [Loader.expected, Loader.moved, Loader.pending, under] at used room
  case copyFromUser =>
    cases copy : c.copy with
    | fault copied => simp [writeFortune, copy]
    | done =>
      have base : w.statics.writeInd = (image w.acknowledged).length := by omega
      simp only [writeFortune, copy, base, Option.mem_some_iff, forall_eq']
      exact copyHolds _ _ _
  case advance =>
    simp only [writeFortune, Option.mem_some_iff, forall_eq']
    exact partway
  case putNewline =>
    have last : toInt (w.statics.writeInd - 1) =
        (image w.acknowledged).length + c.user.length - 1 := by
      rw [pageInt (by omega) (by omega)]
      omega
    simp only [writeFortune, putAt, last, Option.mem_some_iff, forall_eq']
    exact sealHolds partway filled
  case putNul =>
    have last : w.statics.writeInd = (image w.acknowledged).length + (sealText c.user).length := by omega
    simp only [writeFortune, putAt, last, Option.mem_some_iff, forall_eq']
    refine (holdsAppend _ _ _ _).mpr ⟨holdsFrame partway (fun j _ high => putFrame _ _ (by omega)), ?_, trivial⟩
    exact if_pos rfl
  case finish => simp [writeFortune]

theorem callSound {w : Loader} {k : Call} (sound : Sound w) (under : w.call = some k) :
    Sound (writeFortune w k) := by
  have step := callSteps sound.toSized under
  have used := sound.used
  have distance := step.distance
  exact ⟨callSized sound.toSized under (sound.filled k under) step, callBytes sound under, by omega,
    callPartway sound under⟩

theorem callLost {w : Loader} {k : Call} (lost : Lost w) (under : w.call = some k) :
    Lost (writeFortune w k) := by
  have step := callSteps lost.toSized under
  have behind := lost.behind
  have distance := step.distance
  exact ⟨callSized lost.toSized under (lost.filled k under) step, by omega⟩

theorem writeBegins {w u : Loader} {c : WriteCall} (taken : loadStep w (.write c) = some u) :
    u = w ∨ w.stage.registered = true ∧ w.call = none ∧ c.len ≤ spaceLeft w.statics.writeInd ∧
      u = {w with call := some ⟨c, .copyFromUser⟩} := by
  simp only [loadStep] at taken
  split at taken
  · rename_i free
    split at taken
    · exact .inl (Option.some.inj taken).symm
    · rename_i room
      exact .inr ⟨free.1, by simpa using free.2, Nat.le_of_not_lt room, (Option.some.inj taken).symm⟩
  · contradiction

theorem writeSized {w u : Loader} {c : WriteCall} (sized : Sized w) (fits : Fits w (.write c))
    (taken : loadStep w (.write c) = some u) :
    Sized u ∧ u.expected = w.expected ∧ u.statics = w.statics ∧ u.acknowledged = w.acknowledged ∧
      (u = w ∨ u.call = some ⟨c, .copyFromUser⟩) := by
  rcases writeBegins taken with rfl | ⟨file, idle, room, rfl⟩
  · exact ⟨sized, rfl, rfl, rfl, .inl rfl⟩
  · have fitting : c.user ≠ [] ∧ w.statics.writeInd + (if c.copy = .done then c.len + 1 else 0) ≤
        cookieMaxBufSize := by
      cases copy : c.copy with
      | done =>
        obtain ⟨filled, page⟩ := fits room copy
        exact ⟨filled, by simpa [copy, ← Int.add_assoc] using page⟩
      | fault copied =>
        have before := sized.room
        exact ⟨faultFilled copied, by simp; omega⟩
    refine ⟨⟨sized.low, ?_, ?_, ?_, sized.blank⟩, ?_, rfl, rfl, .inr rfl⟩
    · simpa [Loader.pending] using fitting.2
    · simpa using fitting.1
    · intro early
      rw [file] at early
      contradiction
    · simp [Loader.expected, Loader.moved, idle]

theorem stepSound {w u : Loader} {action : Action} (sound : Sound w) (fits : Fits w action)
    (unmoved : Unmoved w action) (taken : loadStep w action = some u) : Sound u := by
  cases action with
  | init ok => exact initSound sound (initSteps taken) unmoved
  | write c =>
    obtain ⟨sized, expected, statics, acknowledged, begun⟩ := writeSized sound.toSized fits taken
    refine ⟨sized, ?_, ?_, ?_⟩
    · rw [statics, acknowledged]
      exact sound.bytes
    · rw [statics, expected]
      exact sound.used
    · rcases begun with rfl | begun
      · exact sound.partway
      · simp [begun, Partway]
  | resume =>
    obtain ⟨k, under, same⟩ := Option.map_eq_some_iff.mp taken
    rw [← same]
    exact callSound sound under

theorem stepLost {w u : Loader} {action : Action} (lost : Lost w) (fits : Fits w action)
    (taken : loadStep w action = some u) : Lost u := by
  cases action with
  | init ok => exact initLost lost (initSteps taken)
  | write c =>
    obtain ⟨sized, expected, statics, _⟩ := writeSized lost.toSized fits taken
    exact ⟨sized, by rw [statics, expected]; exact lost.behind⟩
  | resume =>
    obtain ⟨k, under, same⟩ := Option.map_eq_some_iff.mp taken
    rw [← same]
    exact callLost lost under

theorem stepSplit {w u : Loader} {action : Action} (sound : Sound w) (fits : Fits w action)
    (taken : loadStep w action = some u) :
    Unmoved w action ∧ Sound u ∨ ¬ Unmoved w action ∧ Lost u := by
  by_cases unmoved : Unmoved w action
  · exact .inl ⟨unmoved, stepSound sound fits unmoved taken⟩
  · right
    cases action with
    | init ok =>
      have missed : w.stage = .resetWrite ∧ w.statics.writeInd ≠ 0 := by simpa [Unmoved] using unmoved
      exact ⟨unmoved, resetLoses sound (initSteps taken) missed.1 missed.2⟩
    | write c => exact absurd trivial unmoved
    | resume => exact absurd trivial unmoved

theorem acknowledgedStoredExactly (outside : Mem) (actions : List Action) (last : Loader)
    (run : Run loadStep Fits (start outside) actions last) (idle : last.call = none) :
    Stored last ↔ Run loadStep Unmoved (start outside) actions last := by
  have outcome := runOrDamage Sound Lost (fun w action u sound fits taken => stepSplit sound fits taken)
    (fun w action u lost fits taken => stepLost lost fits taken) run (startSound outside)
  have expected : last.expected = (image last.acknowledged).length := by
    simp [Loader.expected, Loader.moved, idle]
  rcases outcome with ⟨whole, sound⟩ | ⟨broken, lost⟩
  · have used := sound.used
    exact ⟨fun _ => whole, fun _ => ⟨sound.bytes, by omega⟩⟩
  · have behind := lost.behind
    constructor
    · intro stored
      obtain ⟨_, used⟩ := stored
      omega
    · intro whole
      exact absurd whole broken

def loading : List Action := [.init true, .init true, .init true, .init true, .init true]

def lineWrite : List Action := [.write (line 97), .resume, .resume, .resume, .resume, .resume]

theorem lateStored : ∃ last, Run loadStep Unmoved (start fun _ => 0)
    (loading ++ [.init true, .init true, .init true] ++ lineWrite) last ∧
    Stored last ∧ last.acknowledged = [[97, newline]] := by
  obtain ⟨last, run, seen⟩ := checkedEnd loadStep (fun w a => Fits w a ∧ Unmoved w a) (start fun _ => 0)
    (loading ++ [.init true, .init true, .init true] ++ lineWrite)
    (fun w => (w.call.isNone, w.acknowledged)) (true, [[97, newline]]) (by decide +kernel)
  rw [Prod.mk.injEq] at seen
  have fits := runWeaken (fun _ _ both => both.1) run
  have unmoved := runWeaken (fun _ _ both => both.2) run
  exact ⟨last, unmoved,
    (acknowledgedStoredExactly _ _ last fits (by simpa using seen.1)).mpr unmoved, seen.2⟩

theorem earlyLost : ¬ ∀ outside actions last, Run loadStep Fits (start outside) actions last →
    last.stage = .loaded → last.call = none → Stored last := by
  intro all
  obtain ⟨last, run, seen⟩ := checkedEnd loadStep Fits (start fun _ => 0)
    (loading ++ lineWrite ++ [.init true, .init true, .init true])
    (fun w => (w.stage, w.call.isNone, w.statics.writeInd, w.acknowledged))
    (.loaded, true, 0, [[97, newline]]) (by decide +kernel)
  simp only [Prod.mk.injEq] at seen
  obtain ⟨loaded, idle, used, acknowledged⟩ := seen
  have stored := (all _ _ last run loaded (by simpa using idle)).2
  rw [used, acknowledged] at stored
  exact absurd stored (by decide)

end OsLabs.FortuneStore.Loading
