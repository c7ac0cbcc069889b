import Mathlib.Data.List.Nodup
import OsLabs.CMemory

/-! Directory trees as the walk meets them, and the recursive pre-order walk over them.
A directory is the list of what readdir returns, "." and ".." included; every call that can
fail on an entry carries its outcome. Links are files here, since they are not followed. -/
namespace OsLabs.Ftw
open CMemory

abbrev Name := List Byte

structure Errno where
  code : Nat
  nonzero : code ≠ 0

inductive FileKind where
  | reg
  | blk
  | chr
  | fifo
  | lnk
  | sock
  deriving DecidableEq, Repr

inductive Mode where
  | file (kind : FileKind)
  | dir
  deriving DecidableEq, Repr

mutual

inductive Tree where
  | file (lstat : Option Errno) (kind : FileKind)
  | dir (lstat opendir chdir : Option Errno) (content : Listing)

inductive Listing where
  | nil
  | fails (errno : Errno)        -- readdir returns NULL for an error
  | dots (up : Bool) (rest : Listing)
  | entry (name : Name) (tree : Tree) (rest : Listing)

end

def Tree.mode : Tree → Option Mode
  | .file none kind => some (.file kind)
  | .dir none _ _ _ => some .dir
  | _ => none

def enters (lstat opendir chdir : Option Errno) : Bool :=
  lstat.isNone && opendir.isNone && chdir.isNone

def Tree.entered : Tree → Option Listing
  | .dir lstat opendir chdir content => if enters lstat opendir chdir then some content else none
  | .file _ _ => none

def Listing.find : Listing → Name → Option Tree
  | .nil, _ => none
  | .fails _, _ => none
  | .dots _ rest, name => rest.find name
  | .entry other tree rest, name => if other = name then some tree else rest.find name

def Listing.names : Listing → List Name
  | .nil => []
  | .fails _ => []
  | .dots _ rest => rest.names
  | .entry name _ rest => name :: rest.names

def Listing.Has : Listing → Name → Tree → Prop
  | .nil, _, _ => False
  | .fails _, _, _ => False
  | .dots _ rest, name, tree => rest.Has name tree
  | .entry other t rest, name, tree => (other = name ∧ t = tree) ∨ rest.Has name tree

mutual

def Tree.All (p : Name → Prop) : Tree → Prop
  | .file _ _ => True
  | .dir _ _ _ content => content.All p

def Listing.All (p : Name → Prop) : Listing → Prop
  | .nil => True
  | .fails _ => True
  | .dots _ rest => rest.All p
  | .entry name tree rest => p name ∧ tree.All p ∧ rest.All p

end

mutual

def Tree.Distinct : Tree → Prop
  | .file _ _ => True
  | .dir _ _ _ content => content.names.Nodup ∧ content.Distinct

def Listing.Distinct : Listing → Prop
  | .nil => True
  | .fails _ => True
  | .dots _ rest => rest.Distinct
  | .entry _ tree rest => tree.Distinct ∧ rest.Distinct

end

/- An entry the walk turns to: the directory it is in, innermost name first, what lstat
says of it, and its depth. -/
structure Attempt where
  path : List Name
  name : Name
  mode : Option Mode
  depth : Nat
  deriving DecidableEq, Repr

mutual

def Tree.walk (path : List Name) (name : Name) (depth : Nat) : Tree → List Attempt
  | .file lstat kind => [⟨path, name, (Tree.file lstat kind).mode, depth⟩]
  | .dir lstat opendir chdir content =>
      ⟨path, name, (Tree.dir lstat opendir chdir content).mode, depth⟩ ::
        if enters lstat opendir chdir then content.walk (name :: path) (depth + 1) else []

def Listing.walk (path : List Name) (depth : Nat) : Listing → List Attempt
  | .nil => []
  | .fails _ => []
  | .dots _ rest => rest.walk path depth
  | .entry name tree rest => rest.walk path depth ++ tree.walk path name depth

end

inductive Entry (top : Listing) : List Name → Tree → Prop where
  | top {name : Name} {tree : Tree} (here : top.Has name tree) : Entry top [name] tree
  | inside {path : List Name} {parent : Tree} {content : Listing} {name : Name} {tree : Tree}
      (above : Entry top path parent) (enters : parent.entered = some content)
      (here : content.Has name tree) : Entry top (name :: path) tree

def Attempt.full (a : Attempt) : List Name := a.name :: a.path

theorem walkTree (path : List Name) (name : Name) (depth : Nat) (tree : Tree) :
    tree.walk path name depth = ⟨path, name, tree.mode, depth⟩ ::
      (tree.entered.map fun content => content.walk (name :: path) (depth + 1)).getD [] := by
  cases tree with
  | file lstat kind => rfl
  | dir lstat opendir chdir content =>
    simp only [Tree.walk, Tree.entered]
    split <;> rfl

theorem enteredDir {tree : Tree} {content : Listing} (entered : tree.entered = some content) :
    tree = .dir none none none content := by
  cases tree with
  | file lstat kind => cases entered
  | dir lstat opendir chdir inner =>
    unfold Tree.entered enters at entered
    cases lstat <;> cases opendir <;> cases chdir <;> cases entered
    rfl

theorem modeDir {tree : Tree} (mode : tree.mode = some .dir) :
    ∃ opendir chdir content, tree = .dir none opendir chdir content := by
  cases tree with
  | file lstat kind => cases lstat <;> cases mode
  | dir lstat opendir chdir content =>
    cases lstat with
    | none => exact ⟨opendir, chdir, content, rfl⟩
    | some e => cases mode

theorem hasName {name : Name} {tree : Tree} : ∀ {content : Listing}, content.Has name tree →
    name ∈ content.names
  | .nil, here => here.elim
  | .fails _, here => here.elim
  | .dots _ rest, here => @hasName name tree rest here
  | .entry other t rest, here => by
    rcases here with ⟨rfl, -⟩ | later
    · exact List.mem_cons_self
    · exact List.mem_cons_of_mem _ (hasName later)

theorem nameHas {name : Name} : ∀ {content : Listing}, name ∈ content.names →
    ∃ tree, content.Has name tree
  | .nil, mem => by cases mem
  | .fails _, mem => by cases mem
  | .dots _ rest, mem => @nameHas name rest mem
  | .entry other t rest, mem => by
    rcases List.mem_cons.mp mem with rfl | later
    · exact ⟨t, .inl ⟨rfl, rfl⟩⟩
    · obtain ⟨tree, here⟩ := nameHas later
      exact ⟨tree, .inr here⟩

theorem hasFind {name : Name} {tree : Tree} : ∀ {content : Listing}, content.names.Nodup →
    content.Has name tree → content.find name = some tree
  | .nil, _, here => here.elim
  | .fails _, _, here => here.elim
  | .dots _ rest, nodup, here => @hasFind name tree rest nodup here
  | .entry other t rest, nodup, here => by
    obtain ⟨fresh, later⟩ := List.nodup_cons.mp nodup
    rcases here with ⟨rfl, rfl⟩ | here
    · exact if_pos rfl
    · have apart : other ≠ name := by
        rintro rfl
        exact fresh (hasName here)
      rw [Listing.find, if_neg apart]
      exact hasFind later here

theorem hasAll {p : Name → Prop} {name : Name} {tree : Tree} : ∀ {content : Listing},
    content.All p → content.Has name tree → p name ∧ tree.All p
  | .nil, _, here => here.elim
  | .fails _, _, here => here.elim
  | .dots _ rest, all, here => @hasAll p name tree rest all here
  | .entry other t rest, ⟨own, inner, later⟩, here => by
    rcases here with ⟨rfl, rfl⟩ | here
    · exact ⟨own, inner⟩
    · exact hasAll later here

theorem hasWalk {name : Name} {tree : Tree} (path : List Name) (depth : Nat) :
    ∀ {content : Listing}, content.Has name tree →
      tree.walk path name depth ⊆ content.walk path depth
  | .nil, here => here.elim
  | .fails _, here => here.elim
  | .dots _ rest, here => @hasWalk name tree path depth rest here
  | .entry other t rest, here => by
    rw [Listing.walk]
    rcases here with ⟨rfl, rfl⟩ | later
    · exact List.subset_append_right _ _
    · exact List.Subset.trans (hasWalk path depth later) (List.subset_append_left _ _)

def Sound (top : Listing) (a : Attempt) : Prop :=
  ∃ tree, Entry top a.full tree ∧ a.mode = tree.mode ∧ a.depth = a.full.length

mutual

theorem walkSound (top : Listing) : ∀ (tree : Tree) (path : List Name) (name : Name),
    Entry top (name :: path) tree →
      ∀ a ∈ tree.walk path name (path.length + 1), Sound top a
  | .file lstat kind, path, name, entry => by
    intro a mem
    cases List.mem_singleton.mp mem
    exact ⟨_, entry, rfl, rfl⟩
  | .dir lstat opendir chdir content, path, name, entry => by
    intro a mem
    rw [Tree.walk] at mem
    rcases List.mem_cons.mp mem with rfl | inside
    · exact ⟨_, entry, rfl, rfl⟩
    · split at inside
      · rename_i goes
        have entered : (Tree.dir lstat opendir chdir content).entered = some content := if_pos goes
        exact listingSound top content (name :: path)
          (fun child tree here => .inside entry entered here) a inside
      · cases inside

theorem listingSound (top : Listing) : ∀ (content : Listing) (path : List Name),
    (∀ name tree, content.Has name tree → Entry top (name :: path) tree) →
      ∀ a ∈ content.walk path (path.length + 1), Sound top a
  | .nil, _, _ => by
    intro a mem
    cases mem
  | .fails _, _, _ => by
    intro a mem
    cases mem
  | .dots _ rest, path, entries => listingSound top rest path entries
  | .entry name tree rest, path, entries => by
    intro a mem
    rw [Listing.walk] at mem
    rcases List.mem_append.mp mem with later | here
    · exact listingSound top rest path (fun n t has => entries n t (.inr has)) a later
    · exact walkSound top tree path name (entries name tree (.inl ⟨rfl, rfl⟩)) a here

end

theorem walkComplete {top : Listing} {full : List Name} {tree : Tree} (entry : Entry top full tree) :
    ∃ name path, full = name :: path ∧
      tree.walk path name (path.length + 1) ⊆ top.walk [] 1 := by
  induction entry with
  | @top name tree here => exact ⟨name, [], rfl, hasWalk [] 1 here⟩
  | @inside path parent content name tree above enters here ih =>
    obtain ⟨last, rest, rfl, within⟩ := ih
    refine ⟨name, last :: rest, rfl, List.Subset.trans (hasWalk _ _ here) ?_⟩
    refine List.Subset.trans ?_ within
    rw [walkTree, enters]
    exact List.subset_cons_self _ _

mutual

theorem walkBelow : ∀ (tree : Tree) (path : List Name) (name : Name) (depth : Nat),
    ∀ a ∈ tree.walk path name depth, (name :: path) <:+ a.full
  | .file lstat kind, path, name, depth => by
    intro a mem
    cases List.mem_singleton.mp mem
    exact List.suffix_refl _
  | .dir lstat opendir chdir content, path, name, depth => by
    intro a mem
    rw [Tree.walk] at mem
    rcases List.mem_cons.mp mem with rfl | inside
    · exact List.suffix_refl _
    · split at inside
      · obtain ⟨child, -, below⟩ := listingBelow content (name :: path) (depth + 1) a inside
        exact List.IsSuffix.trans (List.suffix_cons _ _) below
      · cases inside

theorem listingBelow : ∀ (content : Listing) (path : List Name) (depth : Nat),
    ∀ a ∈ content.walk path depth, ∃ name ∈ content.names, (name :: path) <:+ a.full
  | .nil, _, _ => by
    intro a mem
    cases mem
  | .fails _, _, _ => by
    intro a mem
    cases mem
  | .dots _ rest, path, depth => listingBelow rest path depth
  | .entry name tree rest, path, depth => by
    intro a mem
    rw [Listing.walk] at mem
    rcases List.mem_append.mp mem with later | here
    · obtain ⟨child, among, below⟩ := listingBelow rest path depth a later
      exact ⟨child, List.mem_cons_of_mem _ among, below⟩
    · exact ⟨name, List.mem_cons_self, walkBelow tree path name depth a here⟩

end

theorem suffixName {name other : Name} {path full : List Name} (left : (name :: path) <:+ full)
    (right : (other :: path) <:+ full) : name = other := by
  have same := List.suffix_of_suffix_length_le left right (Nat.le_refl _)
  exact (List.cons.inj (List.IsSuffix.eq_of_length same rfl)).1

mutual

theorem walkNodup : ∀ (tree : Tree) (path : List Name) (name : Name) (depth : Nat),
    tree.Distinct → ((tree.walk path name depth).map Attempt.full).Nodup
  | .file lstat kind, path, name, depth, _ => List.nodup_singleton _
  | .dir lstat opendir chdir content, path, name, depth, distinct => by
    rw [Tree.walk, List.map_cons]
    split
    · refine List.nodup_cons.mpr ⟨fun mem => ?_, listingNodup content _ _ distinct.1 distinct.2⟩
      obtain ⟨a, inside, same⟩ := List.mem_map.mp mem
      obtain ⟨child, -, below⟩ := listingBelow content (name :: path) (depth + 1) a inside
      have long := below.length_le
      rw [same] at long
      exact absurd long (Nat.not_succ_le_self _)
    · exact List.nodup_singleton _

theorem listingNodup : ∀ (content : Listing) (path : List Name) (depth : Nat),
    content.names.Nodup → content.Distinct → ((content.walk path depth).map Attempt.full).Nodup
  | .nil, _, _, _, _ => List.nodup_nil
  | .fails _, _, _, _, _ => List.nodup_nil
  | .dots _ rest, path, depth, nodup, distinct => listingNodup rest path depth nodup distinct
  | .entry name tree rest, path, depth, nodup, distinct => by
    obtain ⟨fresh, later⟩ := List.nodup_cons.mp nodup
    rw [Listing.walk, List.map_append]
    refine List.Nodup.append (listingNodup rest path depth later distinct.2)
      (walkNodup tree path name depth distinct.1) ?_
    intro full left right
    obtain ⟨a, here, rfl⟩ := List.mem_map.mp left
    obtain ⟨b, there, same⟩ := List.mem_map.mp right
    obtain ⟨child, among, below⟩ := listingBelow rest path depth a here
    have own := walkBelow tree path name depth b there
    rw [same] at own
    rw [suffixName own below] at fresh
    exact fresh among

end

theorem walkExactly {top : Listing} (nodup : top.names.Nodup) (distinct : top.Distinct) :
    ((top.walk [] 1).map Attempt.full).Nodup ∧
      ∀ full mode depth, (∃ a ∈ top.walk [] 1, a.full = full ∧ a.mode = mode ∧ a.depth = depth) ↔
        ∃ tree, Entry top full tree ∧ tree.mode = mode ∧ depth = full.length := by
  refine ⟨listingNodup top [] 1 nodup distinct, fun full mode depth => ⟨?_, ?_⟩⟩
  · rintro ⟨a, mem, rfl, rfl, rfl⟩
    obtain ⟨tree, entry, same, deep⟩ := listingSound top top [] (fun _ _ here => .top here) a mem
    exact ⟨tree, entry, same.symm, deep⟩
  · rintro ⟨tree, entry, rfl, rfl⟩
    obtain ⟨name, path, rfl, within⟩ := walkComplete entry
    refine ⟨⟨path, name, tree.mode, path.length + 1⟩, within ?_, rfl, rfl, rfl⟩
    rw [walkTree]
    exact List.mem_cons_self

end OsLabs.Ftw
