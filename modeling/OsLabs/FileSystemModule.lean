import OsLabs.ResourceLedger
import OsLabs.Runs

/-! The a23fs module of lab_07 over a ledger of what it acquires: each load, mount, unmount
and unload is one step, with the outcomes of the kernel calls in it. The super block is
mount_nodev's own; a mounted one holds its module and its root. -/
namespace OsLabs.FileSystemModule
open ResourceLedger Runs

inductive Kind where
  | memory
  | cache
  | object (cache : Nat)
  | registration
  | inode
  deriving DecidableEq, Repr

abbrev Resources := Ledger Kind

section Kernel
variable (l : Resources)

def kmalloc (ok : Bool) : Option Nat × Resources := l.allocate .memory ok

def kmemCacheCreate (ok : Bool) : Option Nat × Resources := l.allocate .cache ok

def kmemCacheAlloc (cache : Nat) (ok : Bool) : Option Nat × Resources := l.allocate (.object cache) ok

def newInode (ok : Bool) : Option Nat × Resources := l.allocate .inode ok

def registerFilesystem (ret : Int) : Option Nat × Resources := l.allocate .registration (ret = 0)

def kfree (line : Nat) : Resources := l.release .memory (some line)

def kmemCacheDestroy (cache : Nat) : Resources := l.release .cache (some cache)

/- NULL is no object of the cache. -/
def kmemCacheFree (cache : Nat) (object : Option Nat) : Resources := l.release (.object cache) object

def unregisterFilesystem (registration : Nat) : Resources := l.release .registration (some registration)

def iput (inode : Nat) : Resources := l.release .inode (some inode)

/- The dentry takes over the inode's reference; where there is none, it is put. -/
def dMakeRoot (root : Nat) (ok : Bool) : Option Nat × Resources :=
  if ok then (some root, l) else (none, iput l root)

end Kernel

def enomem : Int := 12

structure Loaded where
  line : Nat
  cache : Nat
  object : Nat
  registration : Nat
  deriving DecidableEq, Repr

structure State where
  resources : Resources
  loaded : Option Loaded
  mounts : List Nat

def start : State := ⟨.empty, none, []⟩

def myfsInit (l : Resources) (mallocOk createOk allocOk : Bool) (register : Int) :
    Int × Option Loaded × Resources :=
  match kmalloc l mallocOk with
  | (none, l) => (-enomem, none, l)
  | (some line, l) => match kmemCacheCreate l createOk with
    | (none, l) => (-enomem, none, kfree l line)
    | (some cache, l) => match kmemCacheAlloc l cache allocOk with
      | (none, l) => (-enomem, none, kfree (kmemCacheDestroy (kmemCacheFree l cache none) cache) line)
      | (some object, l) => match registerFilesystem l register with
        | (none, l) => (register, none, l)
        | (some registration, l) => (0, some ⟨line, cache, object, registration⟩, l)

def myfsExit (l : Resources) (m : Loaded) : Resources :=
  unregisterFilesystem
    (kfree (kmemCacheDestroy (kmemCacheFree l m.cache (some m.object)) m.cache) m.line) m.registration

def myfsMakeInode (l : Resources) (ok : Bool) : Option Nat × Resources := newInode l ok

def myfsFillSb (l : Resources) (inodeOk rootOk : Bool) : Int × Option Nat × Resources :=
  match myfsMakeInode l inodeOk with
  | (none, l) => (-enomem, none, l)
  | (some root, l) => match dMakeRoot l root rootOk with
    | (none, l) => (-enomem, none, iput l root)
    | (some sRoot, l) => (0, some sRoot, l)

/- Also for a super block that could not be filled. -/
def myfsKillAnonSuper (l : Resources) (sRoot : Option Nat) : Resources :=
  match sRoot with
  | none => l
  | some root => iput l root

def myfsMount (l : Resources) (inodeOk rootOk : Bool) : Int × Option Nat × Resources :=
  match myfsFillSb l inodeOk rootOk with
  | (ret, sRoot, l) =>
      if ret = 0 then (ret, sRoot, l) else (ret, none, myfsKillAnonSuper l sRoot)

inductive Call where
  | load (mallocOk createOk allocOk : Bool) (register : Int)
  | mount (inodeOk rootOk : Bool)
  | unmount (root : Nat)
  | unload
  deriving DecidableEq, Repr

/- The return value and the state after a call. A module that is mounted stays loaded, and one
whose init fails is not. -/
def call (s : State) : Call → Option (Int × State)
  | .load mallocOk createOk allocOk register => match s.loaded with
    | some _ => none
    | none =>
        let (ret, loaded, l) := myfsInit s.resources mallocOk createOk allocOk register
        some (ret, {s with resources := l, loaded := loaded})
  | .mount inodeOk rootOk => match s.loaded with
    | none => none
    | some _ =>
        let (ret, sRoot, l) := myfsMount s.resources inodeOk rootOk
        some (ret, {s with resources := l, mounts := sRoot.toList ++ s.mounts})
  | .unmount root =>
      if root ∈ s.mounts then
        some (0, {s with
          resources := myfsKillAnonSuper s.resources (some root), mounts := s.mounts.erase root})
      else none
  | .unload => match s.loaded with
    | none => none
    | some m =>
        if s.mounts = [] then some (0, {s with resources := myfsExit s.resources m, loaded := none})
        else none

def step (s : State) (c : Call) : Option State := (call s c).map Prod.snd

def Loaded.tokens (m : Loaded) : List (Kind × Nat) :=
  [(.registration, m.registration), (.object m.cache, m.object), (.cache, m.cache), (.memory, m.line)]

structure Balanced (s : State) (c : Call) (ret : Int) (u : State) : Prop where
  faults : u.resources.faults = s.resources.faults
  refused : ret ≠ 0 → ∀ token ∈ u.resources.held, token ∈ s.resources.held
  unloaded : c = .unload → ∀ m ∈ s.loaded, ∀ token ∈ m.tokens, token ∉ u.resources.held

def Balances (s : State) (c : Call) : Prop :=
  ∀ ret u, call s c = some (ret, u) → Balanced s c ret u

def Call.Handled : Call → Prop
  | .load mallocOk createOk allocOk register =>
      mallocOk = false ∨ createOk = false ∨ allocOk = true ∧ register = 0
  | .mount inodeOk rootOk => inodeOk = false ∨ rootOk = true
  | .unmount _ => True
  | .unload => True

def State.owned (s : State) : List (Kind × Nat) :=
  s.mounts.map (fun root => (.inode, root)) ++ (s.loaded.map Loaded.tokens).getD []

structure Owns (s : State) : Prop where
  held : s.resources.held = s.owned
  numbered : s.resources.Numbered
  unmounted : s.loaded = none → s.mounts = []

theorem startOwns : Owns start :=
  ⟨rfl, fun _ mem => absurd mem List.not_mem_nil, fun _ => rfl⟩

section Load
variable (n : Nat) (faults : List (Kind × Option Nat))

theorem initMalloc (createOk allocOk : Bool) (register : Int) :
    myfsInit ⟨[], n, faults⟩ false createOk allocOk register = (-enomem, none, ⟨[], n, faults⟩) := rfl

theorem initCreate (allocOk : Bool) (register : Int) :
    myfsInit ⟨[], n, faults⟩ true false allocOk register = (-enomem, none, ⟨[], n + 1, faults⟩) := by
  simp [myfsInit, kmalloc, kmemCacheCreate, kfree, Ledger.allocate, Ledger.acquire, Ledger.release]

theorem initAlloc (register : Int) : myfsInit ⟨[], n, faults⟩ true true false register =
    (-enomem, none, ⟨[], n + 2, faults ++ [(.object (n + 1), none)]⟩) := by
  simp [myfsInit, kmalloc, kmemCacheCreate, kmemCacheAlloc, kmemCacheFree, kmemCacheDestroy, kfree,
    Ledger.allocate, Ledger.acquire, Ledger.release]

def firstLoaded : Loaded := ⟨n, n + 1, n + 2, n + 3⟩

theorem initLoads : myfsInit ⟨[], n, faults⟩ true true true 0 =
    (0, some (firstLoaded n), ⟨(firstLoaded n).tokens, n + 4, faults⟩) := by
  simp [myfsInit, kmalloc, kmemCacheCreate, kmemCacheAlloc, registerFilesystem, Ledger.allocate,
    Ledger.acquire, firstLoaded, Loaded.tokens]

theorem initRegister {register : Int} (refused : register ≠ 0) :
    myfsInit ⟨[], n, faults⟩ true true true register = (register, none,
      ⟨[(.object (n + 1), n + 2), (.cache, n + 1), (.memory, n)], n + 3, faults⟩) := by
  simp [myfsInit, kmalloc, kmemCacheCreate, kmemCacheAlloc, registerFilesystem, Ledger.allocate,
    Ledger.acquire, refused]

theorem exitEmpty (m : Loaded) : myfsExit ⟨m.tokens, n, faults⟩ m = ⟨[], n, faults⟩ := by
  simp [myfsExit, unregisterFilesystem, kfree, kmemCacheDestroy, kmemCacheFree, Loaded.tokens,
    Ledger.release]

end Load

section Mount
variable {l : Resources}

theorem mountInode (l : Resources) (rootOk : Bool) : myfsMount l false rootOk = (-enomem, none, l) :=
  rfl

theorem mountRoot (l : Resources) :
    myfsMount l true true = (0, some l.next, l.acquire .inode) := rfl

theorem mountTwice (l : Resources) : myfsMount l true false =
    (-enomem, none, iput (iput (l.acquire .inode) l.next) l.next) := rfl

end Mount

theorem idleResources {s : State} (owns : Owns s) (idle : s.loaded = none) :
    ∃ n faults, s.resources = ⟨[], n, faults⟩ := by
  have held := owns.held
  rw [State.owned, idle, owns.unmounted idle] at held
  exact ⟨s.resources.next, s.resources.faults, by rw [← show s.resources.held = [] from held]⟩

theorem balancedSame {s u : State} {c : Call} {ret : Int}
    (faults : u.resources.faults = s.resources.faults)
    (held : u.resources.held = s.resources.held) (stays : c ≠ .unload) : Balanced s c ret u :=
  ⟨faults, fun _ _ mem => held ▸ mem, fun same => absurd same stays⟩

theorem loadBalanced {s u : State} (owns : Owns s) {mallocOk createOk allocOk : Bool}
    {register ret : Int} (called : call s (.load mallocOk createOk allocOk register) = some (ret, u)) :
    (Balanced s (.load mallocOk createOk allocOk register) ret u ↔
      (Call.load mallocOk createOk allocOk register).Handled) ∧
    ((Call.load mallocOk createOk allocOk register).Handled → Owns u) := by
  obtain ⟨resources, loaded, mounts⟩ := s
  cases loaded with
  | some m => cases called
  | none =>
    obtain ⟨n, faults, rfl⟩ := idleResources owns rfl
    obtain rfl : mounts = [] := owns.unmounted rfl
    have empty : ∀ k : Nat, Owns ⟨⟨[], k, faults⟩, none, []⟩ := fun k =>
      ⟨rfl, fun _ mem => absurd mem List.not_mem_nil, fun _ => rfl⟩
    simp only [call, Option.some.injEq, Prod.mk.injEq] at called
    obtain ⟨rfl, rfl⟩ := called
    cases mallocOk with
    | false =>
      rw [initMalloc]
      exact ⟨iff_of_true (balancedSame rfl rfl Call.noConfusion) (.inl rfl), fun _ => empty n⟩
    | true =>
      cases createOk with
      | false =>
        rw [initCreate]
        exact ⟨iff_of_true (balancedSame rfl rfl Call.noConfusion) (.inr (.inl rfl)),
          fun _ => empty (n + 1)⟩
      | true =>
        cases allocOk with
        | false =>
          have handled : ¬ (Call.load true true false register).Handled := by simp [Call.Handled]
          rw [initAlloc]
          refine ⟨iff_of_false (fun balanced => ?_) handled, fun other => absurd other handled⟩
          have lengths := congrArg List.length balanced.faults
          simp at lengths
        | true =>
          by_cases given : register = 0
          · subst given
            rw [initLoads]
            refine ⟨iff_of_true ⟨rfl, fun fails => absurd rfl fails, fun same => by cases same⟩
              (.inr (.inr ⟨rfl, rfl⟩)), fun _ => ⟨rfl, ?_, fun same => by cases same⟩⟩
            intro token mem
            simp only [Loaded.tokens, firstLoaded, List.mem_cons, List.not_mem_nil, or_false] at mem
            rcases mem with rfl | rfl | rfl | rfl <;> simp
          · have handled : ¬ (Call.load true true true register).Handled := by
              simp [Call.Handled, given]
            rw [initRegister n faults given]
            refine ⟨iff_of_false (fun balanced => ?_) handled, fun other => absurd other handled⟩
            have left := balanced.refused given (.memory, n) (by simp)
            cases left

theorem mountBalanced {s u : State} (owns : Owns s) {inodeOk rootOk : Bool} {ret : Int}
    (called : call s (.mount inodeOk rootOk) = some (ret, u)) :
    (Balanced s (.mount inodeOk rootOk) ret u ↔ (Call.mount inodeOk rootOk).Handled) ∧
    ((Call.mount inodeOk rootOk).Handled → Owns u) := by
  obtain ⟨resources, loaded, mounts⟩ := s
  cases loaded with
  | none => cases called
  | some m =>
    simp only [call, Option.some.injEq, Prod.mk.injEq] at called
    obtain ⟨rfl, rfl⟩ := called
    cases inodeOk with
    | false =>
      rw [mountInode]
      exact ⟨iff_of_true (balancedSame rfl rfl Call.noConfusion) (.inl rfl), fun _ => owns⟩
    | true =>
      cases rootOk with
      | true =>
        rw [mountRoot]
        refine ⟨iff_of_true ⟨rfl, fun fails => absurd rfl fails, fun same => by cases same⟩ (.inr rfl),
          fun _ => ⟨?_, acquireNumbered owns.numbered _, fun same => by cases same⟩⟩
        exact congrArg ((Kind.inode, resources.next) :: ·) owns.held
      | false =>
        have handled : ¬ (Call.mount true false).Handled := by simp [Call.Handled]
        rw [mountTwice]
        refine ⟨iff_of_false (fun balanced => ?_) handled, fun other => absurd other handled⟩
        have twice := (@releaseTwice _ _ Kind.inode _ owns.numbered).symm.trans balanced.faults
        have lengths := congrArg List.length twice
        simp at lengths

theorem unmountBalanced {s u : State} (owns : Owns s) {root : Nat} {ret : Int}
    (called : call s (.unmount root) = some (ret, u)) :
    Balanced s (.unmount root) ret u ∧ Owns u := by
  simp only [call] at called
  split at called
  · rename_i mounted
    cases called
    have inside : (Kind.inode, root) ∈ s.mounts.map fun root => (Kind.inode, root) :=
      List.mem_map.mpr ⟨root, mounted, rfl⟩
    have held : (Kind.inode, root) ∈ s.resources.held := by
      rw [owns.held]
      exact List.mem_append_left _ inside
    have given : myfsKillAnonSuper s.resources (some root) =
        {s.resources with held := s.resources.held.erase (.inode, root)} := releaseHeld held
    have injective : Function.Injective fun root : Nat => (Kind.inode, root) :=
      fun a b same => (Prod.mk.inj same).2
    rw [given]
    refine ⟨⟨rfl, fun fails => absurd rfl fails, fun same => by cases same⟩, ?_, ?_, ?_⟩
    · change s.resources.held.erase (.inode, root) = _
      rw [owns.held, State.owned, List.erase_append_left _ inside]
      exact congrArg (· ++ _) (List.map_erase injective s.mounts).symm
    · exact fun token mem => owns.numbered token (List.mem_of_mem_erase mem)
    · intro gone
      have empty := owns.unmounted gone
      rw [empty] at mounted
      cases mounted
  · cases called

theorem unloadBalanced {s u : State} (owns : Owns s) {ret : Int}
    (called : call s .unload = some (ret, u)) : Balanced s .unload ret u ∧ Owns u := by
  obtain ⟨⟨held, n, faults⟩, loaded, mounts⟩ := s
  cases loaded with
  | none => cases called
  | some m =>
    simp only [call] at called
    split at called
    · rename_i empty
      subst empty
      obtain rfl : held = m.tokens := owns.held
      cases called
      rw [exitEmpty]
      exact ⟨⟨rfl, fun fails => absurd rfl fails, fun _ _ _ _ _ => List.not_mem_nil⟩,
        rfl, fun _ mem => absurd mem List.not_mem_nil, fun _ => rfl⟩
    · cases called

theorem callBalanced {s u : State} (owns : Owns s) {c : Call} {ret : Int}
    (called : call s c = some (ret, u)) :
    (Balanced s c ret u ↔ c.Handled) ∧ (c.Handled → Owns u) := by
  cases c with
  | load mallocOk createOk allocOk register => exact loadBalanced owns called
  | mount inodeOk rootOk => exact mountBalanced owns called
  | unmount root =>
    obtain ⟨balanced, next⟩ := unmountBalanced owns called
    exact ⟨iff_of_true balanced trivial, fun _ => next⟩
  | unload =>
    obtain ⟨balanced, next⟩ := unloadBalanced owns called
    exact ⟨iff_of_true balanced trivial, fun _ => next⟩

theorem stepBalances {s u : State} (owns : Owns s) {c : Call} (taken : step s c = some u) :
    (Balances s c ↔ c.Handled) ∧ (c.Handled → Owns u) := by
  obtain ⟨⟨ret, v⟩, called, rfl⟩ := Option.map_eq_some_iff.mp taken
  obtain ⟨balanced, next⟩ := callBalanced owns called
  refine ⟨⟨fun all => balanced.mp (all ret v called), fun handled ret' u' again => ?_⟩, next⟩
  cases Option.some.inj (called.symm.trans again)
  exact balanced.mpr handled

theorem balancedExactly {t : State} {calls : List Call}
    (run : Run step (fun _ _ => True) start calls t) :
    Run step Balances start calls t ↔ ∀ c ∈ calls, c.Handled := by
  have handled : Run step Balances start calls t ↔ Run step (fun _ c => c.Handled) start calls t :=
    runIff Owns (fun s c u owns _ taken => (stepBalances owns taken).1)
      (fun s c u owns _ handled taken => (stepBalances owns taken).2 handled) run startOwns
  exact handled.trans (runLabels run)

theorem handledOwned {t : State} {calls : List Call}
    (run : Run step (fun _ c => c.Handled) start calls t) :
    t.resources.held = t.owned ∧ t.resources.faults = [] := by
  have kept := runInvariant (fun s => Owns s ∧ s.resources.faults = [])
    (fun s c u inv handled taken => ?_) run ⟨startOwns, rfl⟩
  · exact ⟨kept.1.held, kept.2⟩
  · obtain ⟨balanced, next⟩ := stepBalances inv.1 taken
    obtain ⟨⟨ret, v⟩, called, rfl⟩ := Option.map_eq_some_iff.mp taken
    exact ⟨next handled, ((balanced.mpr handled) ret v called).faults.trans inv.2⟩

def failingAlloc : List Call := [.load true true false 0]

theorem nullFreed : ∃ t, Run step (fun _ _ => True) start failingAlloc t ∧
    ¬ Run step Balances start failingAlloc t := by
  obtain ⟨t, run, faults⟩ := checkedEnd step (fun _ _ => True) start failingAlloc
    (fun t => t.resources.faults) [(.object 1, none)] (by decide)
  refine ⟨t, run, fun balances => ?_⟩
  cases balances with
  | cons balanced taken tail =>
    cases tail
    obtain ⟨⟨ret, v⟩, called, rfl⟩ := Option.map_eq_some_iff.mp taken
    have kept := (balanced ret v called).faults.symm.trans faults
    cases kept

def mountedTwice : List Call :=
  [.load true true true 0, .mount true true, .mount false true, .unmount 4, .unload]

theorem mountedBalanced : ∃ t, Run step Balances start mountedTwice t := by
  obtain ⟨t, run⟩ := checkedRun step (fun _ _ => True) start mountedTwice (by decide)
  refine ⟨t, (balancedExactly run).mpr fun c mem => ?_⟩
  simp only [mountedTwice, List.mem_cons, List.not_mem_nil, or_false] at mem
  rcases mem with rfl | rfl | rfl | rfl | rfl <;> simp [Call.Handled]

end OsLabs.FileSystemModule
