import OsLabs.SelectServer

/-! The connection table of the server: its entries are always distinct open sockets, and
every accepted socket has an entry exactly as long as none was accepted with all entries
taken. A stopped server keeps its descriptors here. -/
namespace OsLabs.SelectServer
open Runs

structure Entries (s : Sys) : Prop where
  live : ∀ i, s.arrSock i ≠ 0 → ∃ c, s.fds (s.arrSock i) = some c
  distinct : ∀ i j, s.arrSock i ≠ 0 → s.arrSock i = s.arrSock j → i = j

def AllHeld (host : Host) (s : Sys) : Prop :=
  ∀ fd c, s.fds fd = some c → (∃! i, s.arrSock i = fd) ∧ fd ∈ asked host s

def Roomy (s : Sys) : Act → Prop
  | .accept _ => (freeSlot s).isSome
  | _ => True

instance (s : Sys) : (a : Act) → Decidable (Roomy s a)
  | .accept _ => inferInstanceAs (Decidable ((freeSlot s).isSome = true))
  | .connect | .sends _ _ | .closes _ | .resets _ | .select | .selectFails | .acceptFails | .next
  | .recv _ | .send | .sendFails | .sigpipe => isTrue trivial

structure Quiet (s t : Sys) (a : Act) : Prop where
  act : ∀ newsock, a ≠ .accept newsock
  table : t.arrSock = s.arrSock
  fds : t.fds = s.fds

structure Accepted (host : Host) (s t : Sys) (a : Act) (newsock : Fd) : Prop where
  act : a = .accept newsock
  free : freeFd host s newsock
  opened : ∃ c, t.fds = Function.update s.fds newsock (some c)
  stored : (∃ i, freeSlot s = some i ∧ t.arrSock = Function.update s.arrSock i newsock) ∨
    freeSlot s = none ∧ t.arrSock = s.arrSock

structure Closed (s t : Sys) (a : Act) (i : Slot) : Prop where
  act : ∃ count, a = .recv count
  used : s.arrSock i ≠ 0
  freed : t.fds = Function.update s.fds (s.arrSock i) none
  cleared : t.arrSock = Function.update s.arrSock i 0

theorem clientQuiet {s t : Sys} {a : Act} (taken : clientStep s a = some t) : Quiet s t a := by
  cases clientMoved taken with
  | connect | sends | closes | resets => exact ⟨nofun, rfl, rfl⟩

theorem reportedUsed {s : Sys} {set : List Fd} {i : Nat} {slot : Slot}
    (due : reported s set i = some slot) : s.arrSock slot ≠ 0 ∧ s.arrSock slot ∈ set := by
  unfold reported at due
  split at due
  · split at due
    · rename_i used
      cases due
      exact used
    · cases due
  · cases due

theorem insertTable (s : Sys) (newsock : Fd) : (insert s newsock).fds = s.fds ∧
    ((∃ i, freeSlot s = some i ∧ (insert s newsock).arrSock = Function.update s.arrSock i newsock) ∨
      freeSlot s = none ∧ (insert s newsock).arrSock = s.arrSock) := by
  unfold insert
  cases free : freeSlot s with
  | none => exact ⟨rfl, .inr ⟨rfl, rfl⟩⟩
  | some i => exact ⟨rfl, .inl ⟨i, rfl, rfl⟩⟩

theorem stepTable {host : Host} {s t : Sys} {a : Act} (taken : step host s a = some t) :
    Quiet s t a ∨ (∃ newsock, Accepted host s t a newsock) ∨ ∃ i, Closed s t a i := by
  unfold step at taken
  split at taken
  · exact .inl (clientQuiet taken)
  · cases serverMoved taken with
    | @accept set newsock c rest pc backlog free =>
      obtain ⟨opened, stored⟩ := insertTable (s.opened set newsock c rest) newsock
      exact .inr (.inl ⟨newsock, rfl, free, ⟨c, opened⟩, stored⟩)
    | @disconnects set slot c count pc due live =>
      exact .inr (.inr ⟨slot, ⟨count, rfl⟩, (reportedUsed due).1, rfl, rfl⟩)
    | _ => exact .inl ⟨nofun, rfl, rfl⟩

theorem freeSlotUnused {s : Sys} {i : Slot} (free : freeSlot s = some i) : s.arrSock i = 0 := by
  simpa using List.find?_some free

/- The descriptor 0 is never given out, so that it can mark a free entry. -/
structure Sound (s : Sys) : Prop extends Entries s where
  zero : s.fds 0 = none

theorem bootTable (stack : Buf) : Sound (boot stack) :=
  ⟨⟨fun _ used => absurd rfl used, fun _ _ used => absurd rfl used⟩, rfl⟩

theorem freshUnused {host : Host} {s : Sys} {newsock : Fd} (sound : Sound s)
    (free : freeFd host s newsock) (j : Slot) : s.arrSock j ≠ newsock := by
  obtain ⟨own, -, -, fresh⟩ := free
  intro same
  obtain ⟨d, live⟩ := sound.live j (by rw [same]; exact Nat.ne_zero_of_lt own)
  rw [same, fresh] at live
  cases live

theorem acceptedSound {host : Host} {s t : Sys} {a : Act} {newsock : Fd} (sound : Sound s)
    (accepted : Accepted host s t a newsock) : Sound t := by
  obtain ⟨-, free, ⟨c, fds⟩, stored⟩ := accepted
  have old := freshUnused sound free
  have zero : t.fds 0 = none := by
    rw [fds, Function.update_of_ne (Nat.ne_zero_of_lt free.1).symm]
    exact sound.zero
  have kept : ∀ j, s.arrSock j ≠ 0 → ∃ d, t.fds (s.arrSock j) = some d := by
    intro j used
    rw [fds, Function.update_of_ne (old j)]
    exact sound.live j used
  rcases stored with ⟨i, free, table⟩ | ⟨-, table⟩
  · refine ⟨⟨fun j used => ?_, fun j k used same => ?_⟩, zero⟩
    · by_cases mine : j = i
      · rw [mine, table, Function.update_self, fds, Function.update_self]
        exact ⟨c, rfl⟩
      · rw [table, Function.update_of_ne mine] at used ⊢
        exact kept j used
    · rw [table] at used same
      by_cases left : j = i <;> by_cases right : k = i
      · rw [left, right]
      · rw [left, Function.update_self, Function.update_of_ne right] at same
        exact absurd same.symm (old k)
      · rw [right, Function.update_self, Function.update_of_ne left] at same
        exact absurd same (old j)
      · rw [Function.update_of_ne left] at used same
        rw [Function.update_of_ne right] at same
        exact sound.distinct j k used same
  · refine ⟨⟨?_, ?_⟩, zero⟩
    · rw [table]
      exact kept
    · rw [table]
      exact sound.distinct

theorem clearedEntry {arrSock : Slot → Fd} {i j : Slot} (used : Function.update arrSock i 0 j ≠ 0) :
    j ≠ i ∧ Function.update arrSock i 0 j = arrSock j := by
  have other : j ≠ i := by
    rintro rfl
    exact used (Function.update_self _ _ _)
  exact ⟨other, Function.update_of_ne other _ _⟩

theorem closedSound {s t : Sys} {a : Act} {i : Slot} (sound : Sound s) (closed : Closed s t a i) :
    Sound t := by
  obtain ⟨-, used, fds, table⟩ := closed
  refine ⟨⟨fun j live => ?_, fun j k live same => ?_⟩, ?_⟩
  · rw [table] at live ⊢
    obtain ⟨other, kept⟩ := clearedEntry live
    rw [kept] at live ⊢
    have apart : s.arrSock j ≠ s.arrSock i := fun same => other (sound.distinct j i live same)
    rw [fds, Function.update_of_ne apart]
    exact sound.live j live
  · rw [table] at live same
    have second := (clearedEntry (same ▸ live)).2
    have first := (clearedEntry live).2
    rw [first] at live
    rw [first, second] at same
    exact sound.distinct j k live same
  · rw [fds, Function.update_of_ne (Ne.symm used)]
    exact sound.zero

theorem stepEntries {host : Host} {s t : Sys} {a : Act} (sound : Sound s)
    (taken : step host s a = some t) : Sound t := by
  rcases stepTable taken with ⟨plain, table, fds⟩ | ⟨newsock, accepted⟩ | ⟨i, closed⟩
  · refine ⟨⟨?_, ?_⟩, ?_⟩
    · rw [table, fds]
      exact sound.live
    · rw [table]
      exact sound.distinct
    · rw [fds]
      exact sound.zero
  · exact acceptedSound sound accepted
  · exact closedSound sound closed

def Leaked (s : Sys) : Prop := ∃ fd c, s.fds fd = some c ∧ ∀ i, s.arrSock i ≠ fd

theorem acceptLeaks {host : Host} {s t : Sys} {a : Act} (sound : Sound s) (held : ¬ Leaked s)
    (taken : step host s a = some t) : Roomy s a ∧ ¬ Leaked t ∨ ¬ Roomy s a ∧ Leaked t := by
  rcases stepTable taken with ⟨plain, table, fds⟩ | ⟨newsock, accepted⟩ | ⟨i, closed⟩
  · have roomy : Roomy s a := by
      cases a with
      | accept newsock => exact absurd rfl (plain newsock)
      | _ => trivial
    refine .inl ⟨roomy, ?_⟩
    rintro ⟨fd, c, live, absent⟩
    rw [fds] at live
    rw [table] at absent
    exact held ⟨fd, c, live, absent⟩
  · obtain ⟨rfl, fresh, ⟨c, fds⟩, stored⟩ := accepted
    rcases stored with ⟨i, free, table⟩ | ⟨full, table⟩
    · refine .inl ⟨by simp [Roomy, free], ?_⟩
      rintro ⟨fd, d, live, absent⟩
      rw [table] at absent
      have mine := absent i
      rw [Function.update_self] at mine
      rw [fds, Function.update_of_ne (Ne.symm mine)] at live
      refine held ⟨fd, d, live, fun j same => ?_⟩
      by_cases here : j = i
      · rw [here, freeSlotUnused free] at same
        rw [← same, sound.zero] at live
        cases live
      · have other := absent j
        rw [Function.update_of_ne here] at other
        exact other same
    · refine .inr ⟨by simp [Roomy, full], newsock, c, by rw [fds, Function.update_self], fun j same => ?_⟩
      rw [table] at same
      exact freshUnused sound fresh j same
  · obtain ⟨⟨count, rfl⟩, used, fds, table⟩ := closed
    refine .inl ⟨trivial, ?_⟩
    rintro ⟨fd, d, live, absent⟩
    have apart : fd ≠ s.arrSock i := by
      rintro rfl
      rw [fds, Function.update_self] at live
      cases live
    rw [fds, Function.update_of_ne apart] at live
    refine held ⟨fd, d, live, fun j same => ?_⟩
    have other := absent j
    rw [table] at other
    by_cases here : j = i
    · rw [here] at same
      exact apart same.symm
    · rw [Function.update_of_ne here] at other
      exact other same

theorem leakStays {host : Host} {s t : Sys} {a : Act} (sound : Sound s) (leaked : Leaked s)
    (taken : step host s a = some t) : Leaked t := by
  obtain ⟨fd, c, live, absent⟩ := leaked
  have positive : fd ≠ 0 := by
    rintro rfl
    rw [sound.zero] at live
    cases live
  rcases stepTable taken with ⟨plain, table, fds⟩ | ⟨newsock, accepted⟩ | ⟨i, closed⟩
  · exact ⟨fd, c, by rw [fds]; exact live, by rw [table]; exact absent⟩
  · obtain ⟨-, ⟨-, -, -, fresh⟩, ⟨d, fds⟩, stored⟩ := accepted
    have other : fd ≠ newsock := by
      rintro rfl
      rw [fresh] at live
      cases live
    refine ⟨fd, c, by rw [fds, Function.update_of_ne other]; exact live, fun j => ?_⟩
    rcases stored with ⟨i, -, table⟩ | ⟨-, table⟩
    · rw [table, Function.update_apply]
      split
      · exact Ne.symm other
      · exact absent j
    · rw [table]; exact absent j
  · obtain ⟨-, used, fds, table⟩ := closed
    refine ⟨fd, c, by rw [fds, Function.update_of_ne (Ne.symm (absent i))]; exact live, fun j => ?_⟩
    rw [table, Function.update_apply]
    split
    · exact Ne.symm positive
    · exact absent j

theorem heldIff (host : Host) {s : Sys} (sound : Sound s) : AllHeld host s ↔ ¬ Leaked s := by
  constructor
  · rintro held ⟨fd, c, live, absent⟩
    obtain ⟨⟨i, same, -⟩, -⟩ := held fd c live
    exact absent i same
  · intro held fd c live
    have found : ∃ i, s.arrSock i = fd := by
      by_contra absent
      exact held ⟨fd, c, live, fun i same => absent ⟨i, same⟩⟩
    obtain ⟨i, same⟩ := found
    have positive : fd ≠ 0 := by
      rintro rfl
      rw [sound.zero] at live
      cases live
    refine ⟨⟨i, same, fun j other => ?_⟩, ?_⟩
    · exact sound.distinct j i (by rw [other]; exact positive) (other.trans same.symm)
    · refine List.mem_cons_of_mem _ (List.mem_filter.mpr ⟨?_, ?_⟩)
      · exact (List.mem_ofFn' _ _).mpr ⟨i, same⟩
      · exact decide_eq_true (Nat.pos_of_ne_zero positive)

theorem tableHoldsExactly (host : Host) (stack : Buf) {labels : List Act} {last : Sys}
    (run : Run (step host) (fun _ _ => True) (boot stack) labels last) :
    Entries last ∧ (AllHeld host last ↔ Run (step host) Roomy (boot stack) labels last) := by
  have sound : Sound last :=
    runInvariant Sound (fun _ _ _ before _ taken => stepEntries before taken) run (bootTable stack)
  refine ⟨sound.toEntries, (heldIff host sound).trans ?_⟩
  have exactly : ¬ (Sound last ∧ Leaked last) ↔ Run (step host) Roomy (boot stack) labels last := by
    refine runSticky (fun s => Sound s ∧ ¬ Leaked s) (fun s => Sound s ∧ Leaked s) ?_ ?_ ?_ run ?_
    · exact fun s held both => held.2 both.2
    · intro s a u held _ taken
      have after := stepEntries held.1 taken
      rcases acceptLeaks held.1 held.2 taken with ⟨roomy, kept⟩ | ⟨full, leaked⟩
      · exact .inl ⟨roomy, after, kept⟩
      · exact .inr ⟨full, after, leaked⟩
    · exact fun s a u leaked _ taken =>
        ⟨stepEntries leaked.1 taken, leakStays leaked.1 leaked.2 taken⟩
    · refine ⟨bootTable stack, ?_⟩
      rintro ⟨fd, c, live, -⟩
      cases live
  rw [← exactly]
  exact ⟨fun held both => held both.2, fun held leaked => held ⟨sound, leaked⟩⟩

def someHost : Host := ⟨3, 1024, 4242⟩

def arrival (newsock : Fd) : List Act :=
  [.connect, .select, .accept newsock] ++ List.replicate (maxCountSock + 1) .next

def reuse : List Act :=
  arrival 4 ++ arrival 5 ++ [.closes 0, .select, .recv 1] ++ List.replicate maxCountSock .next ++
    arrival 4

theorem reuseHolds : ∃ last, Run (step someHost) (fun _ _ => True) (boot fun _ => 0) reuse last ∧
    AllHeld someHost last := by
  obtain ⟨last, run⟩ := checkedRun (step someHost) Roomy (boot fun _ => 0) reuse (by decide +kernel)
  exact ⟨last, runFree run, (tableHoldsExactly someHost _ (runFree run)).2.mpr run⟩

def crowd : List Act := (List.range (maxCountSock + 1)).flatMap (fun k => arrival (4 + k))

theorem eleventhLeaks : ¬ ∀ host stack labels last,
    Run (step host) (fun _ _ => True) (boot stack) labels last → last.pc = .select →
      Entries last ∧ AllHeld host last := by
  intro always
  obtain ⟨last, run, reached⟩ := checkedEnd (step someHost) (fun _ _ => True) (boot fun _ => 0) crowd
    (fun s => (s.pc, s.fds 14, List.ofFn s.arrSock))
    (.select, some 10, [4, 5, 6, 7, 8, 9, 10, 11, 12, 13]) (by decide +kernel)
  rw [Prod.mk.injEq, Prod.mk.injEq] at reached
  obtain ⟨atSelect, live, table⟩ := reached
  obtain ⟨⟨i, same, -⟩, -⟩ := (always _ _ _ _ run atSelect).2 14 10 live
  have member : 14 ∈ List.ofFn last.arrSock := (List.mem_ofFn' _ _).mpr ⟨i, same⟩
  rw [table] at member
  exact absurd member (by decide)

end OsLabs.SelectServer
