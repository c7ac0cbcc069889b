import OsLabs.CInteger
import OsLabs.FtwTree
import OsLabs.WhileLoop

/-! The walk of lab_02 as the code makes it: one list used as a stack, the working directory
as a state that every relative name depends on, errno as one cell. The file system is static;
chdir("..") and closedir succeed. A malloc may fail, by an oracle that counts the calls.
Nodes that the code leaks are simply forgotten. -/
namespace OsLabs.Ftw
open CMemory CInteger WhileLoop

def maxName : Nat := 200

def dotdot : Name := [46, 46]
def enoent : Nat := 2
def enomem : Nat := 12
def enotdir : Nat := 20

inductive Ub where
  | nullNode
  | strcpyOverflow
  | division
  deriving DecidableEq, Repr

structure Node where
  fileName : Name
  depth : Int
  fits : fileName.length < maxName

structure Stats where
  nreg : Int
  ndir : Int
  nchr : Int
  nblk : Int
  nfifo : Int
  nslink : Int
  nsock : Int
  ntotal : Int
  deriving DecidableEq, Repr

/- Where the process stands: in the start directory or below it, by the names that lead
there, innermost first, or anywhere else. -/
inductive Cwd where
  | elsewhere
  | inside (path : List Name)
  deriving DecidableEq, Repr

inductive FtwType where
  | file
  | dir
  deriving DecidableEq, Repr

inductive Message where
  | cannotOpen
  | cannotEnter
  | notAllRead
  | noDirectory
  | noPath
  deriving DecidableEq, Repr

inductive Call where
  | lstat (cwd : Cwd) (name : Name) (mode : Option Mode)
  | func (cwd : Cwd) (name : Name) (type : FtwType) (depth : Int)
  deriving DecidableEq, Repr

/- The surroundings of one run. `absolute` is what getcwd gives for the start directory,
and the outcomes are those of the calls with that path. -/
structure Env where
  chdirStart : Option Errno
  getcwd : Option Errno
  absolute : Name
  lstat : Option Errno
  opendir : Option Errno
  chdir : Option Errno
  content : Listing
  malloc : Nat → Bool

structure State where
  stk : List Node
  cwd : Cwd
  errno : Nat
  mallocs : Nat
  stats : Stats
  calls : List Call
  out : List (Message × Cwd)

def start : State := ⟨[], .elsewhere, 0, 0, ⟨0, 0, 0, 0, 0, 0, 0, 0⟩, [], []⟩

section FileSystem
variable (env : Env)

def Env.root : Tree := .dir env.lstat env.opendir env.chdir env.content

def Tree.content : Tree → Option Listing
  | .dir _ _ _ content => some content
  | .file _ _ => none

def Env.dirAt : List Name → Option Listing
  | [] => some env.content
  | name :: path => (Env.dirAt path).bind fun l => (l.find name).bind Tree.content

def Env.resolve (cwd : Cwd) (name : Name) : Option Tree :=
  if name = env.absolute then some env.root
  else match cwd with
    | .elsewhere => none
    | .inside path => (env.dirAt path).bind fun l => l.find name

def Env.lstatAt (cwd : Cwd) (name : Name) : Except Nat Mode :=
  match env.resolve cwd name with
  | none => .error enoent
  | some (.file none kind) => .ok (.file kind)
  | some (.dir none _ _ _) => .ok .dir
  | some (.file (some e) _) | some (.dir (some e) _ _ _) => .error e.code

def Env.opendirAt (cwd : Cwd) (name : Name) : Except Nat Listing :=
  match env.resolve cwd name with
  | none => .error enoent
  | some (.file _ _) => .error enotdir
  | some (.dir _ none _ content) => .ok content
  | some (.dir _ (some e) _ _) => .error e.code

def Env.chdirAt (cwd : Cwd) (name : Name) : Except Nat Cwd :=
  if name = dotdot then
    match cwd with
    | .inside (_ :: path) => .ok (.inside path)
    | _ => .ok .elsewhere
  else match env.resolve cwd name with
    | none => .error enoent
    | some (.file _ _) => .error enotdir
    | some (.dir _ _ (some e) _) => .error e.code
    | some (.dir _ _ none _) =>
        if name = env.absolute then .ok (.inside [])
        else match cwd with
          | .inside path => .ok (.inside (name :: path))
          | .elsewhere => .ok .elsewhere

end FileSystem

section Stack
variable (env : Env)

def createNode (s : State) (fileName : Name) (fits : fileName.length < maxName) (depth : Int) :
    Option Node × State :=
  if env.malloc s.mallocs then (some ⟨fileName, depth, fits⟩, {s with mallocs := s.mallocs + 1})
  else (none, {s with mallocs := s.mallocs + 1, errno := enomem})

def isEmpty (s : State) : Bool := s.stk.isEmpty

def linkLast : List Node → Node → List Node
  | [], tmp => [tmp]
  | head :: rest, tmp => head :: linkLast rest tmp

def push (s : State) (elem : Node) : Int × State :=
  match createNode env s elem.fileName elem.fits elem.depth with
  | (none, s) => (-1, s)
  | (some tmp, s) => (0, {s with stk := linkLast s.stk tmp})

def unlinkLast (head : Node) : List Node → List Node × Node
  | [] => ([], head)
  | next :: rest => (head :: (unlinkLast next rest).1, (unlinkLast next rest).2)

/- The last node is freed also when its copy could not be made. -/
def pop (s : State) : Option Node × State :=
  match s.stk with
  | [] => (none, s)
  | head :: rest =>
      let (kept, last) := unlinkLast head rest
      let (copy, s) := createNode env s last.fileName last.fits last.depth
      (copy, {s with stk := kept})

/- create_node and push as doPath and ftw call them: strcpy needs the name to fit, push
needs a node. -/
def createPush (s : State) (fileName : Name) (depth : Int) : Except Ub (Node × State) :=
  if fits : fileName.length < maxName then
    match createNode env s fileName fits depth with
    | (none, _) => .error .nullNode
    | (some elem, s) => .ok (elem, (push env s elem).2)
  else .error .strcpyOverflow

end Stack

def incStat (kind : FileKind) (stats : Stats) : Stats :=
  match kind with
  | .reg => {stats with nreg := toLong (stats.nreg + 1)}
  | .blk => {stats with nblk := toLong (stats.nblk + 1)}
  | .chr => {stats with nchr := toLong (stats.nchr + 1)}
  | .fifo => {stats with nfifo := toLong (stats.nfifo + 1)}
  | .lnk => {stats with nslink := toLong (stats.nslink + 1)}
  | .sock => {stats with nsock := toLong (stats.nsock + 1)}

section Walk
variable (env : Env)

def readEntries (depth : Int) : Listing → State → Except Ub State
  | .nil, s => .ok s
  | .fails e, s => .ok {s with errno := e.code}
  | .dots _ rest, s => readEntries depth rest s
  | .entry name _ rest, s =>
      match createPush env s name depth with
      | .error ub => .error ub
      | .ok (_, s) => readEntries depth rest s

def readDirectory (s : State) (content : Listing) (depth : Int) : Except Ub (Int × State) :=
  match createPush env s dotdot (-1) with
  | .error ub => .error ub
  | .ok (_, s) => match readEntries env depth content s with
    | .error ub => .error ub
    | .ok s =>
        if s.errno ≠ 0 then .ok (0, {s with out := s.out ++ [(.notAllRead, s.cwd)]}) else .ok (0, s)

def doPath (s : State) (fullPath : Name) (depth : Int) : Except Ub (Int × State) :=
  if depth < 0 then
    match env.chdirAt s.cwd fullPath with
    | .error e => .ok (0, {s with errno := e})
    | .ok cwd => .ok (0, {s with cwd := cwd})
  else match env.lstatAt s.cwd fullPath with
    | .error e => .ok (-1, {s with errno := e, calls := s.calls ++ [.lstat s.cwd fullPath none]})
    | .ok (.file kind) => .ok (0, {s with
        stats := incStat kind s.stats,
        calls := s.calls ++ [.lstat s.cwd fullPath (some (.file kind)),
          .func s.cwd fullPath .file depth]})
    | .ok .dir =>
        let s : State := {s with
          stats := {s.stats with ndir := toLong (s.stats.ndir + 1)},
          calls := s.calls ++ [.lstat s.cwd fullPath (some .dir), .func s.cwd fullPath .dir depth]}
        match env.opendirAt s.cwd fullPath with
        | .error e => .ok (-1, {s with errno := e, out := s.out ++ [(.cannotOpen, s.cwd)]})
        | .ok content => match env.chdirAt s.cwd fullPath with
          | .error e => .ok (-1, {s with errno := e, out := s.out ++ [(.cannotEnter, s.cwd)]})
          | .ok cwd => readDirectory env {s with cwd := cwd} content (toInt (depth + 1))

abbrev Turn := Option Node × State

def popped (s : State) : Turn := pop env s

def turn : Turn → Except Ub Turn
  | (none, _) => .error .nullNode
  | (some elem, s) => match doPath env s elem.fileName (toInt elem.depth) with
    | .error ub => .error ub
    | .ok (_, s) => .ok (popped env s)

def walkLoop (fuel : Nat) (t : Turn) : Option (Except Ub Turn) :=
  whileLoop (fun t : Turn => isEmpty t.2) (turn env) fuel t

end Walk

def sumStat (stats : Stats) : Stats :=
  {stats with ntotal := toLong (stats.nreg + stats.nchr + stats.nblk + stats.nfifo + stats.nslink +
    stats.nsock + stats.ndir)}

/- The quotient is a whole number; only its conversion to float is left out. -/
def findPercent (part all : Int) : Except Ub Int :=
  let product := toInt (toInt part * 100)
  if toInt all = 0 ∨ product = -2^31 ∧ toInt all = -1 then .error .division
  else .ok (product.tdiv (toInt all))

/- The lines of the table, counter and per cent: %5d prints the low 32 bits of a long. -/
def printStat (stats : Stats) : Except Ub (List (Int × Int)) :=
  let rows := [stats.nreg, stats.ndir, stats.nblk, stats.nchr, stats.nfifo, stats.nslink, stats.nsock]
  rows.foldr (fun part rest => match findPercent part stats.ntotal, rest with
    | .ok percent, .ok rest => .ok ((toInt part, percent) :: rest)
    | .error ub, _ => .error ub
    | _, .error ub => .error ub) (.ok [])

def ftwStart (env : Env) : Except Ub (Int × State ⊕ Turn) :=
  match env.chdirStart with
  | some e => .ok (.inl (-1, {start with errno := e.code, out := [(.noDirectory, .elsewhere)]}))
  | none => match env.getcwd with
    | some e => .ok (.inl (-1, {start with
        cwd := .inside [], errno := e.code, out := [(.noPath, .inside [])]}))
    | none => match createPush env {start with cwd := .inside []} env.absolute 0 with
      | .error ub => .error ub
      | .ok (elem, s) => .ok (.inr (some elem, s))

def ftw (env : Env) (fuel : Nat) : Option (Except Ub (Int × State × List (Int × Int))) :=
  match ftwStart env with
  | .error ub => some (.error ub)
  | .ok (.inl (ret, s)) => some (.ok (ret, s, []))
  | .ok (.inr t) => (walkLoop env fuel t).map fun walked => match walked with
    | .error ub => .error ub
    | .ok t =>
        let s := {t.2 with stats := sumStat t.2.stats}
        match printStat s.stats with
        | .error ub => .error ub
        | .ok rows => .ok (0, s, rows)

end OsLabs.Ftw
