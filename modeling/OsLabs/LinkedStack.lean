import OsLabs.FtwRefines
import OsLabs.LinkedChain
import OsLabs.Runs

/-! The stack of lab_02 as its cells stand in the heap: push and pop walk to the far end of a
singly linked list and copy the element once more. With names that fit it is the list of the
walk, and a stack; a longer name is stored behind the array. -/
namespace OsLabs.LinkedStack
open CMemory LinkedChain Runs
open Ftw (Node maxName linkLast unlinkLast linkLastAppend)

structure EntryName where
  bytes : List Byte
  nonempty : bytes ≠ []
  short : bytes.length ≤ 255
  clean : 0 ∉ bytes

/- fileName, by its first byte, and depth, a long. What is stored behind the array is gone
once depth and next are set, but it has been stored. -/
structure Data where
  fileName : Mem
  depth : Int64

structure Block where
  addr : Addr
  stale : Mem

abbrev Item := List Byte × Int32

inductive Result where
  | pushed (ret : Int)
  | popped (node : Option (List Byte × Int64))
  deriving DecidableEq

/- `wild` stays set once a byte has been stored or looked for outside a fileName array, or a
node where there is none. -/
structure State where
  heap : Heap Data
  stk : Option Addr
  mallocs : Nat
  wild : Bool
  results : List Result

def start : State := ⟨fun _ => none, none, 0, false, []⟩

def isEmpty (s : State) : Int := if s.stk.isNone then 1 else 0

def inArray (store : Store) : Bool := 0 ≤ store.index && store.index < maxName

def nameStores (fileName : List Byte) : List Store := copyTo 0 (fileName ++ [0])

def Block.filled (b : Block) (fileName : List Byte) (depth : Int32) : Data :=
  ⟨putAll b.stale (nameStores fileName), depth.toInt64⟩

def createNode (s : State) (malloc : Option Block) (fileName : List Byte) (depth : Int32) :
    Option Addr × State :=
  match malloc with
  | none => (none, s)
  | some b => (some b.addr, {s with
      heap := s.heap.put b.addr ⟨b.filled fileName depth, none⟩,
      mallocs := s.mallocs + 1,
      wild := s.wild || !(nameStores fileName).all inArray})

def Data.name (d : Data) : Option (List Byte) := cstring d.fileName 0 maxName

/- create_node(node->fileName, node->depth): the long becomes an int. -/
def createCopy (s : State) (malloc : Option Block) (node : Addr) : Option Addr × State :=
  match (s.heap node).bind fun c => c.value.name.map fun name => (name, c.value.depth.toInt32) with
  | none => (none, {s with wild := true})
  | some (name, depth) => createNode s malloc name depth

def append (s : State) (tmp : Addr) : State :=
  match s.stk with
  | none => {s with stk := some tmp}
  | some head => match lastAddr s.heap s.mallocs head with
    | none => {s with wild := true}
    | some last => {s with heap := s.heap.link last (some tmp)}

def push (s : State) (malloc : Option Block) (elem : Addr) : Int × State :=
  match createCopy s malloc elem with
  | (none, s) => (-1, s)
  | (some tmp, s) => (0, append s tmp)

def pop (s : State) (malloc : Option Block) : Option Addr × State :=
  match s.stk with
  | none => (none, s)
  | some head => match (s.heap head).bind Cell.next with
    | none =>
        let (tmp, s) := createCopy s malloc head
        (tmp, {s with heap := s.heap.free head, stk := none})
    | some _ => match beforeLast s.heap s.mallocs head with
      | none => (none, {s with wild := true})
      | some (before, last) =>
          let (tmp, s) := createCopy s malloc last
          (tmp, {s with heap := (s.heap.free last).link before none})

def readNode (s : State) (node : Addr) : Option (List Byte × Int64) :=
  (s.heap node).bind fun c => c.value.name.map fun name => (name, c.value.depth)

/- A call of create_node for the element and of push with it, or of pop, with what the
mallocs give: the element's node is there when push is called. -/
inductive Call where
  | push (name : EntryName) (depth : Int32) (elem : Block) (copy : Option Block)
  | pop (copy : Option Block)

def pushCall (s : State) (name : EntryName) (depth : Int32) (elem : Block) (copy : Option Block) :
    State :=
  let (ret, s) := push (createNode s (some elem) name.bytes depth).2 copy elem.addr
  {s with results := s.results ++ [.pushed ret]}

def popCall (s : State) (copy : Option Block) : State :=
  let (node, s) := pop s copy
  {s with results := s.results ++ [.popped (node.bind (readNode s))]}

def Call.fresh (s : State) : Call → Bool
  | .push _ _ elem copy => (s.heap elem.addr).isNone &&
      copy.all fun b => b.addr != elem.addr && (s.heap b.addr).isNone
  | .pop copy => copy.all fun b => (s.heap b.addr).isNone

/- Nothing is defined any more after a wild access. -/
def step (s : State) (call : Call) : Option State :=
  if s.wild then some s
  else if call.fresh s then
    match call with
    | .push name depth elem copy => some (pushCall s name depth elem copy)
    | .pop copy => some (popCall s copy)
  else none

structure Lifo where
  stack : List Item
  results : List Result

def lifoStep (s : Lifo) : Call → Lifo
  | .push name depth _ _ => ⟨(name.bytes, depth) :: s.stack, s.results ++ [.pushed 0]⟩
  | .pop _ => match s.stack with
    | [] => ⟨[], s.results ++ [.popped none]⟩
    | (name, depth) :: rest => ⟨rest, s.results ++ [.popped (some (name, depth.toInt64))]⟩

def lifo (calls : List Call) : Lifo := calls.foldl lifoStep ⟨[], []⟩

def Data.item (d : Data) : Option Item :=
  d.name.bind fun name =>
    if d.depth.toInt32.toInt64 = d.depth then some (name, d.depth.toInt32) else none

def items (s : State) : Option (List (Option Item)) :=
  (contents s.heap s.mallocs s.stk).map (List.map Data.item)

structure Behaves (t : State) (calls : List Call) : Prop where
  inside : t.wild = false
  results : t.results = (lifo calls).results
  order : items t = some ((lifo calls).stack.reverse.map some)
  empty : isEmpty t = 1 ↔ (lifo calls).stack = []

def Call.succeeds : Call → Bool
  | .push _ _ _ copy => copy.isSome
  | .pop copy => copy.isSome

def Call.NameFits : Call → Prop
  | .push name _ _ _ => name.bytes.length < maxName
  | .pop _ => True

theorem storesInside (fileName : List Byte) :
    (nameStores fileName).all inArray = decide (fileName.length < maxName) := by
  rw [Bool.eq_iff_iff, decide_eq_true_iff, List.all_eq_true]
  have length : (fileName ++ [(0 : Byte)]).length = fileName.length + 1 := by simp
  constructor
  · intro all
    obtain ⟨store, mem, last⟩ := @copyToCovers 0 (fileName ++ [0]) fileName.length (by omega)
      (by rw [length]; omega)
    have inside := all store mem
    simp only [inArray, last, Bool.and_eq_true, decide_eq_true_eq] at inside
    omega
  · intro fits store mem
    have bounds := copyToIndex mem
    rw [length] at bounds
    simp only [inArray, Bool.and_eq_true, decide_eq_true_eq]
    omega

theorem filledName (b : Block) {fileName : List Byte} (depth : Int32) (clean : 0 ∉ fileName)
    (fits : fileName.length < maxName) : (b.filled fileName depth).name = some fileName :=
  cstringOfHolds (copyHolds b.stale 0 (fileName ++ [0])) clean fits

theorem filledItem (b : Block) {fileName : List Byte} (depth : Int32) (clean : 0 ∉ fileName)
    (fits : fileName.length < maxName) :
    (b.filled fileName depth).item = some (fileName, depth) := by
  rw [Data.item, filledName b depth clean fits, Option.bind_some]
  simp [Block.filled]

theorem itemName {d : Data} {x : Item} (holds : d.item = some x) :
    d.name = some x.1 ∧ d.depth = x.2.toInt64 := by
  obtain ⟨name, named, rest⟩ := Option.bind_eq_some_iff.mp holds
  split at rest
  · rename_i int
    cases rest
    exact ⟨named, int.symm⟩
  · cases rest

def State.filled (s : State) (b : Block) (fileName : List Byte) (depth : Int32) : State :=
  {s with heap := s.heap.put b.addr ⟨b.filled fileName depth, none⟩, mallocs := s.mallocs + 1}

theorem createFits (s : State) (b : Block) {fileName : List Byte} (depth : Int32)
    (fits : fileName.length < maxName) :
    createNode s (some b) fileName depth = (some b.addr, s.filled b fileName depth) := by
  have inside := storesInside fileName
  rw [decide_eq_true fits] at inside
  simp only [createNode, inside, Bool.not_true, Bool.or_false]
  rfl

theorem createCopyHolds {s : State} {node : Addr} {c : Cell Data} {x : Item}
    (here : s.heap node = some c) (holds : c.value.item = some x) (malloc : Option Block) :
    createCopy s malloc node = createNode s malloc x.1 x.2 := by
  obtain ⟨named, int⟩ := itemName holds
  have depth : c.value.depth.toInt32 = x.2 := by rw [int, Int32.toInt32_toInt64]
  simp only [createCopy, here, Option.bind_some, named, Option.map_some, depth]

structure Stands (s : State) (addrs : List Addr) (values : List Data) (l : List Item) : Prop where
  inside : s.wild = false
  chain : Chain s.heap s.stk addrs values
  enough : values.length ≤ s.mallocs
  holds : values.map Data.item = l.map some

def Stacked (s : State) (l : List Item) : Prop := ∃ addrs values, Stands s addrs values l

theorem stackedEmpty {s : State} {l : List Item} (stacked : Stacked s l) :
    isEmpty s = 1 ↔ l = [] := by
  obtain ⟨addrs, values, stands⟩ := stacked
  have chain := stands.chain
  have holds := stands.holds
  unfold isEmpty
  cases head : s.stk with
  | none =>
    rw [head] at chain
    rw [(chainNull chain).2] at holds
    exact ⟨fun _ => List.map_eq_nil_iff.mp holds.symm, fun _ => rfl⟩
  | some a =>
    rw [head] at chain
    obtain ⟨cell, rest, tail, -, rfl, -⟩ := chainHead chain
    refine ⟨fun one => absurd one (show (0 : Int) ≠ 1 by decide), fun empty => ?_⟩
    rw [empty] at holds
    cases holds

theorem stackedItems {s : State} {l : List Item} (stacked : Stacked s l) :
    items s = some (l.map some) := by
  obtain ⟨addrs, values, stands⟩ := stacked
  rw [items, chainContents stands.chain stands.enough, Option.map_some, stands.holds]

theorem stackedReported {s : State} {l : List Item} (stacked : Stacked s l)
    (results : List Result) : Stacked {s with results} l := by
  obtain ⟨addrs, values, stands⟩ := stacked
  exact ⟨addrs, values, stands.inside, stands.chain, stands.enough, stands.holds⟩

theorem standsFilled {s : State} {addrs : List Addr} {values : List Data} {l : List Item}
    (stands : Stands s addrs values l) {b : Block} (fresh : s.heap b.addr = none)
    (fileName : List Byte) (depth : Int32) : Stands (s.filled b fileName depth) addrs values l where
  inside := stands.inside
  chain := chainPut stands.chain (chainApart stands.chain fresh) _
  enough := Nat.le_succ_of_le stands.enough
  holds := stands.holds

theorem standsAppend {s : State} {addrs : List Addr} {values : List Data} {l : List Item}
    (stands : Stands s addrs values l) {tmp : Addr} {v : Data} {x : Item}
    (new : s.heap tmp = some ⟨v, none⟩) (apart : tmp ∉ addrs) (holds : v.item = some x)
    (room : values.length < s.mallocs) :
    Stands (append s tmp) (addrs ++ [tmp]) (values ++ [v]) (l ++ [x]) ∧
      (append s tmp).results = s.results := by
  have chain := stands.chain
  have longer : (values ++ [v]).map Data.item = (l ++ [x]).map some := by
    rw [List.map_append, List.map_append, stands.holds, List.map_singleton, holds]
    rfl
  have enough : (values ++ [v]).length ≤ s.mallocs := by
    rw [List.length_append, List.length_singleton]
    exact room
  cases head : s.stk with
  | none =>
    rw [head] at chain
    obtain ⟨rfl, rfl⟩ := chainNull chain
    have only : append s tmp = {s with stk := some tmp} := by rw [append, head]
    rw [only]
    exact ⟨⟨stands.inside, chainCons new List.not_mem_nil .nil, enough, longer⟩, rfl⟩
  | some a =>
    rw [head] at chain
    obtain ⟨last, -, walked, linked⟩ := chainLink new chain apart
      (Nat.le_trans (Nat.le_of_eq (chainLengths chain)) (Nat.le_of_lt room))
    have behind : append s tmp = {s with heap := s.heap.link last (some tmp)} := by
      simp only [append, head, walked]
    rw [behind]
    refine ⟨⟨stands.inside, ?_, enough, longer⟩, rfl⟩
    rw [head]
    exact linked

theorem pushStacked {s : State} {l : List Item} (stacked : Stacked s l) {elem : Addr}
    {c : Cell Data} {x : Item} (here : s.heap elem = some c) (holds : c.value.item = some x)
    {b : Block} (fresh : s.heap b.addr = none) :
    ∃ u, push s (some b) elem = (0, u) ∧ Stacked u (l ++ [x]) ∧ u.results = s.results := by
  obtain ⟨addrs, values, stands⟩ := stacked
  obtain ⟨-, clean, fits⟩ := cstringHolds (itemName holds).1
  have copy : createCopy s (some b) elem = (some b.addr, s.filled b x.1 x.2) :=
    (createCopyHolds here holds _).trans (createFits s b x.2 fits)
  obtain ⟨longer, same⟩ := standsAppend (standsFilled stands fresh x.1 x.2) (putSame _ _)
    (chainApart stands.chain fresh) (filledItem b x.2 clean fits) (Nat.lt_succ_of_le stands.enough)
  refine ⟨append (s.filled b x.1 x.2) b.addr, ?_, ⟨_, _, longer⟩, same⟩
  rw [push, copy]

theorem pushFails {s : State} {elem : Addr} {c : Cell Data} {x : Item}
    (here : s.heap elem = some c) (holds : c.value.item = some x) : push s none elem = (-1, s) := by
  rw [push, createCopyHolds here holds]
  rfl

theorem popEmpty {s : State} (stacked : Stacked s []) (malloc : Option Block) :
    pop s malloc = (none, s) := by
  obtain ⟨addrs, values, stands⟩ := stacked
  have empty : s.stk = none := by
    cases head : s.stk with
    | none => rfl
    | some a =>
      have chain := stands.chain
      rw [head] at chain
      obtain ⟨cell, rest, tail, -, rfl, -⟩ := chainHead chain
      cases stands.holds
  rw [pop, empty]

def State.copied (s : State) : Option Block → Item → State
  | none, _ => s
  | some b, x => s.filled b x.1 x.2

theorem createCopied {s : State} {node : Addr} {c : Cell Data} {x : Item}
    (here : s.heap node = some c) (holds : c.value.item = some x) (malloc : Option Block) :
    createCopy s malloc node = (malloc.map Block.addr, s.copied malloc x) := by
  rw [createCopyHolds here holds]
  cases malloc with
  | none => rfl
  | some b => exact createFits s b x.2 (cstringHolds (itemName holds).1).2.2

theorem copiedSame (s : State) (malloc : Option Block) (x : Item) :
    (s.copied malloc x).stk = s.stk ∧ (s.copied malloc x).wild = s.wild ∧
      (s.copied malloc x).results = s.results ∧ s.mallocs ≤ (s.copied malloc x).mallocs := by
  cases malloc with
  | none => exact ⟨rfl, rfl, rfl, Nat.le_refl _⟩
  | some b => exact ⟨rfl, rfl, rfl, Nat.le_succ _⟩

theorem copiedHeap {s : State} {malloc : Option Block}
    (fresh : ∀ b ∈ malloc, s.heap b.addr = none) (x : Item) {a : Addr} (used : s.heap a ≠ none) :
    (s.copied malloc x).heap a = s.heap a := by
  cases malloc with
  | none => rfl
  | some b =>
    refine putOther (fun same => used ?_) _
    rw [same]
    exact fresh b rfl

theorem copiedRead {u : State} {b : Block} {x : Item} (clean : 0 ∉ x.1)
    (fits : x.1.length < maxName) (here : u.heap b.addr = some ⟨b.filled x.1 x.2, none⟩) :
    readNode u b.addr = some (x.1, x.2.toInt64) := by
  rw [readNode, here, Option.bind_some, filledName b x.2 clean fits]
  rfl

theorem standsTop {s : State} {addrs : List Addr} {values : List Data} {l : List Item} {x : Item}
    (stands : Stands s addrs values (l ++ [x])) : ∃ below top vs v, addrs = below ++ [top] ∧
      values = vs ++ [v] ∧ vs.map Data.item = l.map some ∧ v.item = some x := by
  obtain ⟨vs, last, rfl, below, top⟩ := List.map_eq_append_iff.mp (stands.holds.trans List.map_append)
  have lengths := chainLengths stands.chain
  cases last with
  | nil => cases top
  | cons v rest =>
    obtain ⟨holds, rest⟩ := List.cons.inj top
    obtain rfl := List.map_eq_nil_iff.mp rest
    rcases List.eq_nil_or_concat addrs with rfl | ⟨as, last, rfl⟩
    · simp at lengths
    · exact ⟨as, last, vs, v, List.concat_eq_append, rfl, below, holds⟩

theorem popOne {s : State} {top : Addr} {v : Data} {x : Item}
    (stands : Stands s [top] [v] [x]) (malloc : Option Block) : ∃ u,
      pop s malloc = (malloc.map Block.addr, u) ∧ Stacked u [] ∧ u.results = s.results ∧
      u.heap = (s.copied malloc x).heap.free top := by
  have chain := stands.chain
  obtain ⟨a, head⟩ := chainPointer chain (List.cons_ne_nil _ _)
  rw [head] at chain
  obtain ⟨cell, rest, tail, same, split, here, -, further⟩ := chainHead chain
  obtain ⟨rfl, rfl⟩ := List.cons.inj same
  obtain ⟨rfl, rfl⟩ := List.cons.inj split
  have holds : cell.value.item = some x := (List.cons.inj stands.holds).1
  have ends : cell.next = none := by
    cases next : cell.next with
    | none => rfl
    | some b => rw [next] at further; cases further
  obtain ⟨-, wild, results, -⟩ := copiedSame s malloc x
  refine ⟨{s.copied malloc x with heap := (s.copied malloc x).heap.free top, stk := none}, ?_,
    ⟨[], [], wild.trans stands.inside, .nil, Nat.zero_le _, rfl⟩, results, rfl⟩
  simp only [pop, head, here, Option.bind_some, ends, createCopied here holds malloc]

theorem popMany {s : State} {below : List Addr} {top : Addr} {vs : List Data} {v : Data}
    {l : List Item} {x : Item} (stands : Stands s (below ++ [top]) (vs ++ [v]) (l ++ [x]))
    (more : below ≠ []) (kept : vs.map Data.item = l.map some) (holds : v.item = some x)
    {malloc : Option Block} (fresh : ∀ b ∈ malloc, s.heap b.addr = none) : ∃ u before,
      pop s malloc = (malloc.map Block.addr, u) ∧ Stacked u l ∧ u.results = s.results ∧
      before ∈ below ∧ u.heap = ((s.copied malloc x).heap.free top).link before none := by
  have chain := stands.chain
  have used := chainUsed chain
  obtain ⟨a, head⟩ := chainPointer chain (List.append_ne_nil_of_right_ne_nil _ (List.cons_ne_nil _ _))
  rw [head] at chain
  have lengths := chainLengths chain
  have enough := stands.enough
  simp only [List.length_append, List.length_singleton] at lengths enough
  obtain ⟨before, mem, walked, last, shorter⟩ := @chainUnlink _ _ _ _ _ _ _ chain more s.mallocs
    (by omega)
  obtain ⟨next, follows⟩ : ∃ b, (s.heap a).bind Cell.next = some b := by
    obtain ⟨fuel, counted⟩ : ∃ fuel, s.mallocs = fuel + 1 := ⟨s.mallocs - 1, by omega⟩
    rw [counted, beforeLast] at walked
    obtain ⟨b, follows, -⟩ := Option.bind_eq_some_iff.mp walked
    exact ⟨b, follows⟩
  obtain ⟨stk, wild, results, mallocs⟩ := copiedSame s malloc x
  refine ⟨{s.copied malloc x with
      heap := ((s.copied malloc x).heap.free top).link before none}, before, ?_,
    ⟨below, vs, wild.trans stands.inside, ?_, Nat.le_trans (by omega) mallocs, kept⟩, results, mem,
    rfl⟩
  · simp only [pop, head, follows, walked, createCopied last holds malloc]
  · change Chain _ (s.copied malloc x).stk below vs
    rw [stk, head]
    exact shorter _ fun a mem => copiedHeap fresh x (used a mem)

theorem popStacked {s : State} {l : List Item} {x : Item} (stacked : Stacked s (l ++ [x]))
    {malloc : Option Block} (fresh : ∀ b ∈ malloc, s.heap b.addr = none) :
    ∃ u, pop s malloc = (malloc.map Block.addr, u) ∧ Stacked u l ∧ u.results = s.results ∧
      ∀ b ∈ malloc, readNode u b.addr = some (x.1, x.2.toInt64) := by
  obtain ⟨addrs, values, stands⟩ := stacked
  have used := chainUsed stands.chain
  obtain ⟨below, top, vs, v, rfl, rfl, kept, holds⟩ := standsTop stands
  obtain ⟨-, clean, fits⟩ := cstringHolds (itemName holds).1
  have apart : ∀ b ∈ malloc, ∀ a ∈ below ++ [top], b.addr ≠ a := by
    intro b mem a inside same
    exact used a inside (same ▸ fresh b mem)
  cases below with
  | nil =>
    obtain rfl : vs = [] := by
      have lengths := chainLengths stands.chain
      simpa using lengths
    obtain rfl : l = [] := List.map_eq_nil_iff.mp kept.symm
    obtain ⟨u, popped, empty, results, heap⟩ := popOne stands malloc
    refine ⟨u, popped, empty, results, fun b mem => copiedRead clean fits ?_⟩
    obtain rfl := Option.mem_def.mp mem
    rw [heap, freeOther (apart b mem top List.mem_cons_self)]
    exact putSame _ _
  | cons first rest =>
    obtain ⟨u, before, popped, shorter, results, inside, heap⟩ :=
      popMany stands (List.cons_ne_nil _ _) kept holds fresh
    refine ⟨u, popped, shorter, results, fun b mem => copiedRead clean fits ?_⟩
    obtain rfl := Option.mem_def.mp mem
    rw [heap, linkOther (apart b mem before (List.mem_append_left _ inside)),
      freeOther (apart b mem top (List.mem_append_right _ List.mem_cons_self))]
    exact putSame _ _

def Represents (s : State) (stk : List Node) : Prop :=
  ∃ l, Stacked s l ∧ stk.map Node.view = l.map fun x => (x.1, x.2.toInt)

theorem unlinkLastSplit (head : Node) (rest : List Node) :
    head :: rest = (unlinkLast head rest).1 ++ [(unlinkLast head rest).2] := by
  induction rest generalizing head with
  | nil => rfl
  | cons next rest ih => exact congrArg (head :: ·) (ih next)

theorem pushRepresents {s : State} {stk : List Node} (represents : Represents s stk) {elem : Addr}
    {c : Cell Data} {x : Item} (here : s.heap elem = some c) (holds : c.value.item = some x)
    {node : Node} (view : node.view = (x.1, x.2.toInt)) {b : Block}
    (fresh : s.heap b.addr = none) :
    ∃ u, push s (some b) elem = (0, u) ∧ Represents u (linkLast stk node) := by
  obtain ⟨l, stacked, same⟩ := represents
  obtain ⟨u, pushed, longer, -⟩ := pushStacked stacked here holds fresh
  refine ⟨u, pushed, l ++ [x], longer, ?_⟩
  rw [linkLastAppend, List.map_append, List.map_append, same, List.map_singleton, view]
  rfl

theorem popRepresents {s : State} {head : Node} {rest : List Node}
    (represents : Represents s (head :: rest)) {malloc : Option Block}
    (fresh : ∀ b ∈ malloc, s.heap b.addr = none) :
    ∃ (u : State) (x : Item), pop s malloc = (malloc.map Block.addr, u) ∧
      Represents u (unlinkLast head rest).1 ∧ (unlinkLast head rest).2.view = (x.1, x.2.toInt) ∧
      ∀ b ∈ malloc, readNode u b.addr = some (x.1, x.2.toInt64) := by
  obtain ⟨l, stacked, same⟩ := represents
  rw [unlinkLastSplit, List.map_append] at same
  obtain ⟨kept, last, rfl, below, top⟩ := List.map_eq_append_iff.mp same.symm
  obtain ⟨x, rfl, view⟩ := List.map_eq_singleton_iff.mp top
  obtain ⟨u, popped, shorter, -, read⟩ := popStacked stacked fresh
  exact ⟨u, x, popped, ⟨kept, shorter, below.symm⟩, view.symm, read⟩

theorem createWild {s : State} (wild : s.wild = true) (malloc : Option Block) (name : List Byte)
    (depth : Int32) : (createNode s malloc name depth).2.wild = true := by
  cases malloc with
  | none => exact wild
  | some b => simp only [createNode, wild, Bool.true_or]

theorem pushWild {s : State} (wild : s.wild = true) (malloc : Option Block) (elem : Addr) :
    (push s malloc elem).2.wild = true := by
  have copied : (createCopy s malloc elem).2.wild = true := by
    unfold createCopy
    split
    · rfl
    · exact createWild wild _ _ _
  unfold push
  split
  · rename_i t same
    rw [same] at copied
    exact copied
  · rename_i tmp t same
    rw [same] at copied
    unfold append
    split
    · exact copied
    · split
      · rfl
      · exact copied

theorem pushCallWild (s : State) {name : EntryName} (long : ¬ name.bytes.length < maxName)
    (depth : Int32) (elem : Block) (copy : Option Block) :
    (pushCall s name depth elem copy).wild = true := by
  refine pushWild (s := (createNode s (some elem) name.bytes depth).2) ?_ copy elem.addr
  simp only [createNode, storesInside, decide_eq_false long, Bool.not_false, Bool.or_true]

theorem freshPush {s : State} {name : EntryName} {depth : Int32} {elem : Block}
    {copy : Option Block} (fresh : (Call.push name depth elem copy).fresh s = true) :
    s.heap elem.addr = none ∧ ∀ b ∈ copy, b.addr ≠ elem.addr ∧ s.heap b.addr = none := by
  simp only [Call.fresh, Bool.and_eq_true, Option.isNone_iff_eq_none] at fresh
  refine ⟨fresh.1, fun b mem => ?_⟩
  obtain rfl := Option.mem_def.mp mem
  simpa using fresh.2

theorem freshPop {s : State} {copy : Option Block} (fresh : (Call.pop copy).fresh s = true) :
    ∀ b ∈ copy, s.heap b.addr = none := by
  intro b mem
  obtain rfl := Option.mem_def.mp mem
  simpa [Call.fresh] using fresh

theorem pushCallStacked {s : State} {l : List Item} (stacked : Stacked s l) {name : EntryName}
    {depth : Int32} {elem : Block} {copy : Option Block} (fits : name.bytes.length < maxName)
    (fresh : (Call.push name depth elem copy).fresh s = true) :
    Stacked (pushCall s name depth elem copy)
        (if copy.isSome then l ++ [(name.bytes, depth)] else l) ∧
      (pushCall s name depth elem copy).results =
        s.results ++ [.pushed (if copy.isSome then 0 else -1)] := by
  obtain ⟨unused, others⟩ := freshPush fresh
  obtain ⟨addrs, values, stands⟩ := stacked
  have beside : Stacked (s.filled elem name.bytes depth) l := ⟨_, _, standsFilled stands unused _ _⟩
  have here : (s.filled elem name.bytes depth).heap elem.addr =
    some ⟨elem.filled name.bytes depth, none⟩ := putSame _ _
  have holds := filledItem elem depth name.clean fits
  unfold pushCall
  rw [createFits s elem depth fits]
  cases copy with
  | none =>
    rw [pushFails here holds]
    exact ⟨stackedReported beside _, rfl⟩
  | some b =>
    obtain ⟨apart, free⟩ := others b rfl
    obtain ⟨u, pushed, longer, results⟩ :=
      @pushStacked _ _ beside _ _ _ here holds b ((putOther apart _).trans free)
    rw [pushed]
    exact ⟨stackedReported longer _, congrArg (· ++ [.pushed 0]) results⟩

theorem popCallEmpty {s : State} (stacked : Stacked s []) (copy : Option Block) :
    popCall s copy = {s with results := s.results ++ [.popped none]} := by
  rw [popCall, popEmpty stacked]
  rfl

theorem popCallStacked {s : State} {l : List Item} {x : Item} (stacked : Stacked s (l ++ [x]))
    {copy : Option Block} (fresh : (Call.pop copy).fresh s = true) :
    Stacked (popCall s copy) l ∧ (popCall s copy).results =
      s.results ++ [.popped (copy.map fun _ => (x.1, x.2.toInt64))] := by
  obtain ⟨u, popped, shorter, results, read⟩ := popStacked stacked (freshPop fresh)
  have seen : (copy.map Block.addr).bind (readNode u) =
      copy.map fun _ => (x.1, x.2.toInt64) := by
    cases copy with
    | none => rfl
    | some b => exact read b rfl
  rw [popCall, popped]
  refine ⟨stackedReported shorter _, ?_⟩
  simp only [results, seen]

theorem stepFresh {s u : State} {call : Call} (inside : s.wild = false)
    (taken : step s call = some u) : call.fresh s = true := by
  unfold step at taken
  rw [inside, if_neg Bool.false_ne_true] at taken
  by_cases fresh : call.fresh s = true
  · exact fresh
  · rw [if_neg fresh] at taken
    cases taken

theorem stepPush {s u : State} {name : EntryName} {depth : Int32} {elem : Block}
    {copy : Option Block} (inside : s.wild = false)
    (taken : step s (.push name depth elem copy) = some u) : u = pushCall s name depth elem copy := by
  have fresh := stepFresh inside taken
  rw [step, inside, if_neg Bool.false_ne_true, if_pos fresh] at taken
  exact (Option.some.inj taken).symm

theorem stepPop {s u : State} {copy : Option Block} (inside : s.wild = false)
    (taken : step s (.pop copy) = some u) : u = popCall s copy := by
  have fresh := stepFresh inside taken
  rw [step, inside, if_neg Bool.false_ne_true, if_pos fresh] at taken
  exact (Option.some.inj taken).symm

theorem stepWild {s u : State} {call : Call} (wild : s.wild = true)
    (taken : step s call = some u) : u.wild = true := by
  unfold step at taken
  rw [if_pos wild] at taken
  cases taken
  exact wild

theorem stackedInside {s : State} {l : List Item} (stacked : Stacked s l) : s.wild = false := by
  obtain ⟨addrs, values, stands⟩ := stacked
  exact stands.inside

structure Alike (s : State) (l : Lifo) : Prop where
  stacked : Stacked s l.stack.reverse
  results : s.results = l.results

theorem stepAlike {s u : State} {call : Call} {l : Lifo} (alike : Alike s l)
    (succeeds : call.succeeds = true) (taken : step s call = some u) :
    call.NameFits ∧ Alike u (lifoStep l call) ∨ ¬ call.NameFits ∧ u.wild = true := by
  have inside := stackedInside alike.stacked
  have fresh := stepFresh inside taken
  cases call with
  | push name depth elem copy =>
    obtain rfl := stepPush inside taken
    by_cases fits : name.bytes.length < maxName
    · obtain ⟨stacked, results⟩ := pushCallStacked alike.stacked fits fresh
      rw [show copy.isSome = true from succeeds] at stacked results
      refine .inl ⟨fits, ?_, results.trans (by rw [alike.results]; rfl)⟩
      rw [lifoStep, List.reverse_cons]
      exact stacked
    · exact .inr ⟨fits, pushCallWild s fits depth elem copy⟩
  | pop copy =>
    obtain rfl := stepPop inside taken
    obtain ⟨b, rfl⟩ := Option.isSome_iff_exists.mp succeeds
    refine .inl ⟨trivial, ?_⟩
    obtain ⟨stack, results⟩ := l
    have same : s.results = results := alike.results
    cases stack with
    | nil =>
      rw [popCallEmpty alike.stacked]
      exact ⟨stackedReported alike.stacked _, congrArg (· ++ [.popped none]) same⟩
    | cons x rest =>
      have top := alike.stacked
      simp only [List.reverse_cons] at top
      obtain ⟨stacked, popped⟩ := popCallStacked top fresh
      exact ⟨stacked, popped.trans (by rw [same]; rfl)⟩

theorem runAlike {s t : State} {calls : List Call}
    (run : Run step (fun _ call => call.succeeds = true) s calls t) {l : Lifo} (alike : Alike s l) :
    (∀ call ∈ calls, call.NameFits) ∧ Alike t (calls.foldl lifoStep l) ∨
      ¬ (∀ call ∈ calls, call.NameFits) ∧ t.wild = true := by
  induction run generalizing l with
  | nil s => exact .inl ⟨fun _ mem => absurd mem List.not_mem_nil, alike⟩
  | cons succeeds taken tail ih =>
    rcases stepAlike alike succeeds taken with ⟨fits, next⟩ | ⟨long, wild⟩
    · rcases ih next with ⟨all, last⟩ | ⟨other, wild⟩
      · exact .inl ⟨List.forall_mem_cons.mpr ⟨fits, all⟩, last⟩
      · exact .inr ⟨fun all => other (List.forall_mem_cons.mp all).2, wild⟩
    · refine .inr ⟨fun all => long (all _ List.mem_cons_self), ?_⟩
      exact runInvariant (fun s => s.wild = true) (fun _ _ _ wild _ taken => stepWild wild taken)
        tail wild

theorem startAlike : Alike start ⟨[], []⟩ := ⟨⟨[], [], rfl, .nil, Nat.zero_le _, rfl⟩, rfl⟩

theorem stackExactly {t : State} {calls : List Call}
    (run : Run step (fun _ call => call.succeeds = true) start calls t) :
    Behaves t calls ↔ ∀ call ∈ calls, call.NameFits := by
  rcases runAlike run startAlike with ⟨all, alike⟩ | ⟨long, wild⟩
  · refine iff_of_true ⟨stackedInside alike.stacked, alike.results, stackedItems alike.stacked, ?_⟩ all
    rw [stackedEmpty alike.stacked, List.reverse_eq_nil_iff]
    rfl
  · refine iff_of_false (fun behaves => ?_) long
    rw [behaves.inside] at wild
    cases wild

def longName : EntryName :=
  ⟨List.replicate 200 97, List.cons_ne_nil _ _, by rw [List.length_replicate]; decide,
    fun mem => absurd (List.mem_replicate.mp mem).2 (by decide)⟩

theorem longNameOverruns : ∃ calls t, Run step (fun _ call => call.succeeds = true) start calls t ∧
    ¬ Behaves t calls := by
  have run : Run step (fun _ call => call.succeeds = true) start
      [.push longName 1 ⟨1, fun _ => 0⟩ (some ⟨2, fun _ => 0⟩)] _ := .cons rfl rfl (.nil _)
  refine ⟨_, _, run, fun behaves => ?_⟩
  have long : ¬ longName.bytes.length < maxName := by
    rw [longName, List.length_replicate]
    exact Nat.lt_irrefl 200
  have wild := pushCallWild start long 1 ⟨1, fun _ => 0⟩ (some ⟨2, fun _ => 0⟩)
  rw [behaves.inside] at wild
  cases wild

def shortName : EntryName := ⟨[97], by decide, by decide, by decide⟩
def dotdotName : EntryName := ⟨[46, 46], by decide, by decide, by decide⟩

def stale (addr : Addr) : Block := ⟨addr, fun _ => 255⟩

def mixedCalls : List Call :=
  [.push shortName 1 (stale 1) (some (stale 2)), .push dotdotName (-1) (stale 3) (some (stale 4)),
   .pop (some (stale 5)), .push dotdotName 7 (stale 6) (some (stale 8)), .pop (some (stale 9)),
   .pop (some (stale 10)), .pop (some (stale 11))]

theorem mixedBehaves : ∃ t, Run step (fun _ call => call.succeeds = true) start mixedCalls t ∧
    Behaves t mixedCalls ∧ t.results =
      [.pushed 0, .pushed 0, .popped (some ([46, 46], -1)), .pushed 0, .popped (some ([46, 46], 7)),
        .popped (some ([97], 1)), .popped none] := by
  obtain ⟨t, run⟩ := checkedRun step (fun _ call => call.succeeds = true) start mixedCalls (by decide +kernel)
  have behaves : Behaves t mixedCalls := (stackExactly run).mpr fun call mem => by
    simp only [mixedCalls, List.mem_cons, List.not_mem_nil, or_false] at mem
    rcases mem with rfl | rfl | rfl | rfl | rfl | rfl | rfl <;> first | trivial | exact show _ < 200 by decide
  exact ⟨t, run, behaves, behaves.results.trans (by decide +kernel)⟩

def Call.fails (s : State) : Call → Bool
  | .push _ _ _ copy => copy.isNone
  | .pop copy => copy.isNone && s.stk.isSome

def Call.refused : Call → Result
  | .push _ _ _ _ => .pushed (-1)
  | .pop _ => .popped none

def Keeps (s : State) (call : Call) : Prop :=
  call.fails s = true → ∀ u, step s call = some u →
    items u = items s ∧ u.results = s.results ++ [call.refused]

def FailsCleanly (s : State) : Call → Prop
  | .push _ _ _ copy => copy.isSome = true ∨ s.wild = false
  | .pop copy => copy.isSome = true ∨ s.stk = none

theorem stackedNull {s : State} {l : List Item} (stacked : Stacked s l) : s.stk = none ↔ l = [] := by
  rw [← stackedEmpty stacked, isEmpty]
  cases s.stk with
  | none => exact ⟨fun _ => rfl, fun _ => rfl⟩
  | some a =>
    exact ⟨fun null => absurd null (Option.some_ne_none a),
      fun one => absurd one (show (0 : Int) ≠ 1 by decide)⟩

theorem pushNone (s : State) (elem : Addr) : (push s none elem).1 = -1 ∧
    items (push s none elem).2 = items s ∧ (push s none elem).2.results = s.results := by
  have failed : createCopy s none elem = (none, s) ∨
      createCopy s none elem = (none, {s with wild := true}) := by
    unfold createCopy
    split
    · exact .inr rfl
    · exact .inl rfl
  unfold push
  rcases failed with same | wild
  · rw [same]
    exact ⟨rfl, rfl, rfl⟩
  · rw [wild]
    exact ⟨rfl, rfl, rfl⟩

theorem createItems {s : State} {l : List Item} (stacked : Stacked s l) {b : Block}
    (fresh : s.heap b.addr = none) (fileName : List Byte) (depth : Int32) :
    items (createNode s (some b) fileName depth).2 = items s := by
  rw [stackedItems stacked]
  obtain ⟨addrs, values, stands⟩ := stacked
  have chain := chainPut stands.chain (chainApart stands.chain fresh) ⟨b.filled fileName depth, none⟩
  have beside : contents (createNode s (some b) fileName depth).2.heap
      (createNode s (some b) fileName depth).2.mallocs s.stk = some values :=
    chainContents chain (Nat.le_succ_of_le stands.enough)
  exact (congrArg _ beside).trans (congrArg some stands.holds)

theorem pushRefused {s : State} {l : List Item} (stacked : Stacked s l) {name : EntryName}
    {depth : Int32} {elem : Block} (fresh : (Call.push name depth elem none).fresh s = true) :
    items (pushCall s name depth elem none) = items s ∧
      (pushCall s name depth elem none).results = s.results ++ [.pushed (-1)] := by
  obtain ⟨ret, same, results⟩ := pushNone (createNode s (some elem) name.bytes depth).2 elem.addr
  refine ⟨same.trans (createItems stacked (freshPush fresh).1 _ _), ?_⟩
  unfold pushCall
  simp only [ret, results]
  rfl

theorem popKeeps {s u : State} {copy : Option Block} {l : List Item} (stacked : Stacked s l)
    (taken : step s (.pop copy) = some u) : Keeps s (.pop copy) ↔ FailsCleanly s (.pop copy) := by
  have inside := stackedInside stacked
  have fresh := stepFresh inside taken
  obtain rfl := stepPop inside taken
  cases copy with
  | some b => exact iff_of_true (fun failed => by cases failed) (.inl rfl)
  | none =>
    by_cases null : s.stk = none
    · refine iff_of_true (fun failed => ?_) (.inr null)
      simp [Call.fails, null] at failed
    · refine iff_of_false (fun keeps => ?_) (fun cleanly => ?_)
      · have failed : (Call.pop none).fails s = true := by
          simp [Call.fails, Option.isSome_iff_ne_none, null]
        have same := (keeps failed _ taken).1
        rcases List.eq_nil_or_concat l with rfl | ⟨rest, x, rfl⟩
        · exact null ((stackedNull stacked).mpr rfl)
        · rw [List.concat_eq_append] at stacked
          rw [stackedItems stacked, stackedItems (popCallStacked stacked fresh).1] at same
          have lengths := congrArg List.length (Option.some.inj same)
          simp at lengths
      · rcases cleanly with given | empty
        · cases given
        · exact null empty

theorem pushKeeps {s u : State} {name : EntryName} {depth : Int32} {elem : Block}
    {copy : Option Block} {l : List Item} (stacked : Stacked s l)
    (taken : step s (.push name depth elem copy) = some u) : Keeps s (.push name depth elem copy) := by
  intro failed v again
  have inside := stackedInside stacked
  have fresh := stepFresh inside taken
  cases Option.some.inj (taken.symm.trans again)
  obtain rfl := stepPush inside taken
  obtain rfl : copy = none := Option.isNone_iff_eq_none.mp failed
  exact pushRefused stacked fresh

theorem wildKeeps {s : State} (wild : s.wild = true) (call : Call) :
    Keeps s call ↔ FailsCleanly s call := by
  have silent : Keeps s call ↔ call.fails s = false := by
    constructor
    · intro keeps
      by_contra failed
      have stays : step s call = some s := if_pos wild
      have longer := congrArg List.length (keeps (eq_true_of_ne_false failed) s stays).2
      simp at longer
    · intro fine failed
      rw [fine] at failed
      cases failed
  rw [silent]
  cases call with
  | push name depth elem copy => cases copy <;> simp [Call.fails, FailsCleanly, wild]
  | pop copy => cases copy <;> simp [Call.fails, FailsCleanly]

theorem keepsHere {s u : State} {call : Call} {l : List Item} (stacked : Stacked s l)
    (taken : step s call = some u) : Keeps s call ↔ FailsCleanly s call := by
  cases call with
  | push name depth elem copy =>
    exact iff_of_true (pushKeeps stacked taken) (.inr (stackedInside stacked))
  | pop copy => exact popKeeps stacked taken

theorem stepStacked {s u : State} {call : Call} {l : List Item} (stacked : Stacked s l)
    (taken : step s call = some u) : u.wild = true ∨ ∃ l', Stacked u l' := by
  have inside := stackedInside stacked
  have fresh := stepFresh inside taken
  cases call with
  | push name depth elem copy =>
    obtain rfl := stepPush inside taken
    by_cases fits : name.bytes.length < maxName
    · exact .inr ⟨_, (pushCallStacked stacked fits fresh).1⟩
    · exact .inl (pushCallWild s fits depth elem copy)
  | pop copy =>
    obtain rfl := stepPop inside taken
    rcases List.eq_nil_or_concat l with rfl | ⟨rest, x, rfl⟩
    · rw [popCallEmpty stacked]
      exact .inr ⟨[], stackedReported stacked _⟩
    · rw [List.concat_eq_append] at stacked
      exact .inr ⟨_, (popCallStacked stacked fresh).1⟩

theorem keepsRun {s t : State} {calls : List Call} {l : List Item} (stacked : Stacked s l)
    (run : Run step (fun _ _ => True) s calls t) :
    Run step Keeps s calls t ↔ Run step FailsCleanly s calls t := by
  refine runIff (fun s => s.wild = true ∨ ∃ l, Stacked s l) (fun s call u inv _ taken => ?_)
    (fun s call u inv _ _ taken => ?_) run (.inr ⟨l, stacked⟩)
  · rcases inv with wild | ⟨l, stacked⟩
    · exact wildKeeps wild call
    · exact keepsHere stacked taken
  · rcases inv with wild | ⟨l, stacked⟩
    · exact .inl (stepWild wild taken)
    · exact stepStacked stacked taken

end OsLabs.LinkedStack
