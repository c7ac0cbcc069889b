import OsLabs.BufferedWriter
import OsLabs.CMemory
import OsLabs.Runs

/-! app3.c of lab_05: two streams opened for writing on one file, each with its own
offset. stdio passes buffered bytes on whenever it likes between two statements of main,
and in fclose at the latest. Opens and writes succeed; getInfo keeps st_size and the
position. -/
namespace OsLabs.TwoWriters
open CMemory (Byte)
open BufferedWriter Runs

inductive Stream where
  | f1
  | f2
  deriving DecidableEq, Repr

inductive Pc where
  | openF1
  | openF2
  | loop
  | closeF1
  | closeF2
  | finished
  deriving DecidableEq, Repr

structure App3 where
  writers : Writers Stream Byte
  c : Nat
  pc : Pc
  reports : List (Nat × Nat)

def App3.start (old : List Byte) : App3 := ⟨Writers.opened old, 65, .openF1, []⟩

def ftell (w : Writers Stream Byte) (i : Stream) : Nat := w.offset i + (w.buffer i).length

def fclose (w : Writers Stream Byte) (i : Stream) : Writers Stream Byte :=
  passAt w i (w.buffer i).length

def App3.getInfo (s : App3) (fPos : Nat) : App3 :=
  {s with reports := s.reports ++ [(s.writers.file.length, fPos)]}

/- fopen with "w" cuts the file. -/
def App3.fopen (s : App3) (pc : Pc) : App3 := {s with writers := {s.writers with file := []}, pc := pc}

inductive Act where
  | main
  | passes (i : Stream) (k : Nat)
  deriving DecidableEq, Repr

def turn (c : Nat) : Stream := if c % 2 ≠ 0 then .f1 else .f2

def step (s : App3) : Act → Option App3
  | .main => match s.pc with
      | .openF1 => some ((s.fopen .openF2).getInfo (ftell s.writers .f1))
      | .openF2 => some ((s.fopen .loop).getInfo (ftell s.writers .f2))
      | .loop =>
          if s.c ≤ 90 then
            some {s with writers := put s.writers (turn s.c) (UInt8.ofNat s.c), c := s.c + 1}
          else some {s with pc := .closeF1}
      | .closeF1 => some ({s with writers := fclose s.writers .f1, pc := .closeF2}.getInfo
          (ftell s.writers .f1))
      | .closeF2 => some ({s with writers := fclose s.writers .f2, pc := .finished}.getInfo
          (ftell s.writers .f2))
      | .finished => none
  | .passes i k =>
      if 0 < k ∧ k ≤ (s.writers.buffer i).length then some {s with writers := passAt s.writers i k}
      else none

def lettersBefore (i : Stream) (c : Nat) : List Byte :=
  ((List.range' 65 (c - 65)).filter (fun d => turn d = i)).map UInt8.ofNat

def letters : Stream → List Byte
  | .f1 => (List.range 13).map (fun p => UInt8.ofNat (65 + 2 * p))
  | .f2 => (List.range 13).map (fun p => UInt8.ofNat (66 + 2 * p))

theorem lettersAll (i : Stream) : lettersBefore i 91 = letters i := by
  cases i <;> decide

theorem lettersNext {c : Nat} (range : 65 ≤ c) (i : Stream) :
    lettersBefore i (c + 1) = lettersBefore i c ++ (if turn c = i then [UInt8.ofNat c] else []) := by
  have one : c + 1 - 65 = c - 65 + 1 := by omega
  have last : 65 + (c - 65) = c := by omega
  rw [lettersBefore, one, List.range'_concat, Nat.one_mul, last, List.filter_append, List.map_append]
  congr 1
  by_cases here : turn c = i <;> simp [here]

theorem lettersApart {c : Nat} (range : c ≤ 91) {i j : Stream} (other : j ≠ i) :
    ∀ x ∈ lettersBefore i c, x ∉ lettersBefore j c := by
  intro x here there
  obtain ⟨d, mem, same⟩ := List.mem_map.mp here
  obtain ⟨e, mem', same'⟩ := List.mem_map.mp there
  simp only [List.mem_filter, List.mem_range', decide_eq_true_eq] at mem mem'
  obtain ⟨⟨n, less, rfl⟩, own⟩ := mem
  obtain ⟨⟨m, less', rfl⟩, own'⟩ := mem'
  have equal := congrArg UInt8.toNat (same.trans same'.symm)
  simp only [UInt8.toNat_ofNat'] at equal
  have codes : 65 + 1 * n = 65 + 1 * m := by omega
  exact other (own'.symm.trans ((congrArg turn codes.symm).trans own))

theorem lettersLength (i : Stream) : (letters i).length = 13 := by
  cases i <;> rfl

def reported : Pc → List (Nat × Nat)
  | .openF1 => []
  | .openF2 => [(0, 0)]
  | .loop => [(0, 0), (0, 0)]
  | .closeF1 => [(0, 0), (0, 0)]
  | .closeF2 => [(0, 0), (0, 0), (13, 13)]
  | .finished => [(0, 0), (0, 0), (13, 13), (13, 13)]

def Pc.opening : Pc → Bool
  | .openF1 | .openF2 => true
  | _ => false

def Pc.ended : Pc → Bool
  | .closeF1 | .closeF2 | .finished => true
  | _ => false

def Pc.closed : Pc → Stream → Bool
  | .closeF2, .f1 => true
  | .finished, _ => true
  | _, _ => false

structure Writing (s : App3) : Prop where
  fresh : s.pc.opening = true → s.writers = Writers.opened s.writers.file ∧ s.c = 65
  placed : s.pc ≠ .openF1 → Placed s.writers
  range : 65 ≤ s.c ∧ s.c ≤ 91
  given : ∀ i, s.writers.given i = lettersBefore i s.c
  ended : s.pc.ended = true → s.c = 91
  closed : ∀ i, s.pc.closed i = true → s.writers.buffer i = []
  reports : s.reports = reported s.pc

theorem startWriting (old : List Byte) : Writing (App3.start old) :=
  ⟨fun _ => ⟨rfl, rfl⟩, fun moved => absurd rfl moved, ⟨Nat.le_refl 65, Nat.le_add_right 65 26⟩, fun _ => rfl,
    fun ended => Bool.noConfusion ended, fun _ closed => Bool.noConfusion closed, rfl⟩

theorem closedBuffer (w : Writers Stream Byte) (i : Stream) : (fclose w i).buffer i = [] := by
  simp only [fclose, passAt, Function.update_self, List.drop_length]

theorem passedEmpty {w : Writers Stream Byte} {i j : Stream} (k : Nat) (empty : w.buffer j = []) :
    (passAt w i k).buffer j = [] := by
  by_cases here : j = i
  · subst here
    simp only [passAt, Function.update_self, empty, List.drop_nil]
  · simp only [passAt, Function.update_of_ne here, empty]

theorem positionFull {w : Writers Stream Byte} (placed : Placed w)
    (given : ∀ i, w.given i = letters i) (i : Stream) : ftell w i = 13 := by
  have length := congrArg List.length (given i)
  rw [lettersLength] at length
  have bound := placed.given i
  rw [ftell, placed.rest i, List.length_drop]
  omega

theorem sizeFull {w : Writers Stream Byte} (placed : Placed w) (given : ∀ i, w.given i = letters i)
    {i : Stream} (empty : w.buffer i = []) : w.file.length = 13 := by
  have position := positionFull placed given
  have passed : w.offset i = 13 := by
    have all := position i
    rwa [ftell, empty, List.length_nil, Nat.add_zero] at all
  refine Nat.le_antisymm (Nat.le_of_not_lt fun longer => ?_) (passed ▸ placed.inside i)
  obtain ⟨j, further, _⟩ := placed.filled _ longer
  have all := position j
  rw [ftell] at all
  omega

theorem openWriting {s : App3} (writing : Writing s) (opening : s.pc.opening = true) (i : Stream) :
    ({s.writers with file := []} : Writers Stream Byte) = Writers.opened [] ∧ s.c = 65 ∧
      ftell s.writers i = 0 := by
  obtain ⟨same, first⟩ := writing.fresh opening
  exact ⟨by rw [same]; rfl, first, by rw [same]; rfl⟩

theorem closeWriting {s : App3} (writing : Writing s) (ended : s.pc.ended = true) (i : Stream) :
    Placed (fclose s.writers i) ∧ ftell s.writers i = 13 ∧ (fclose s.writers i).file.length = 13 := by
  have begun : s.pc ≠ .openF1 := by
    intro pc
    rw [pc] at ended
    exact Bool.noConfusion ended
  have placed := writing.placed begun
  have given : ∀ j, s.writers.given j = letters j := by
    intro j
    rw [writing.given, writing.ended ended, lettersAll]
  have passed := passPlaced placed i (s.writers.buffer i).length
  exact ⟨passed, positionFull placed given i, sizeFull passed given (closedBuffer s.writers i)⟩

theorem opensWriting {s : App3} {next : Pc} (writing : Writing s) (opening : s.pc.opening = true)
    (ended : next.ended = false) (closed : ∀ i, next.closed i = false)
    (shown : reported next = reported s.pc ++ [(0, 0)]) (i : Stream) :
    Writing ((s.fopen next).getInfo (ftell s.writers i)) := by
  obtain ⟨same, first, position⟩ := openWriting writing opening i
  refine ⟨fun _ => ⟨same, first⟩, fun _ => (congrArg Placed same).mpr openedPlaced, writing.range,
    writing.given, fun late => ?_, fun j shut => ?_, ?_⟩
  · exact Bool.noConfusion (ended.symm.trans late)
  · exact Bool.noConfusion ((closed j).symm.trans shut)
  · simp only [App3.getInfo, App3.fopen, writing.reports, position, shown, List.length_nil]

theorem printsWriting {s : App3} (writing : Writing s) (pc : s.pc = .loop) (inside : s.c ≤ 90) :
    Writing {s with writers := put s.writers (turn s.c) (UInt8.ofNat s.c), c := s.c + 1} := by
  have placed := writing.placed (by rw [pc]; decide)
  obtain ⟨low, high⟩ := writing.range
  have opens : s.pc.opening = false := by rw [pc]; rfl
  have ends : s.pc.ended = false := by rw [pc]; rfl
  have shuts : ∀ i, s.pc.closed i = false := fun i => by rw [pc]; rfl
  refine ⟨fun opening => Bool.noConfusion (opens.symm.trans opening), fun _ => putPlaced placed _ _,
    ⟨Nat.le_succ_of_le low, Nat.succ_le_succ inside⟩, fun i => ?_,
    fun ended => Bool.noConfusion (ends.symm.trans ended),
    fun i closed => Bool.noConfusion ((shuts i).symm.trans closed), writing.reports⟩
  rw [lettersNext low]
  by_cases here : i = turn s.c
  · subst here
    simp only [put, Function.update_self, writing.given, if_pos]
  · simp only [put, Function.update_of_ne here, writing.given, if_neg (Ne.symm here), List.append_nil]

theorem endedOpens {pc : Pc} (ended : pc.ended = true) : pc.opening = false := by
  cases pc <;> first | rfl | contradiction

theorem closesWriting {s : App3} {next : Pc} {i : Stream} (writing : Writing s) (ended : s.pc.ended = true)
    (after : next.ended = true) (closed : ∀ j, next.closed j = true → j = i ∨ s.pc.closed j = true)
    (shown : reported next = reported s.pc ++ [(13, 13)]) :
    Writing ({s with writers := fclose s.writers i, pc := next}.getInfo (ftell s.writers i)) := by
  obtain ⟨placed, position, size⟩ := closeWriting writing ended i
  refine ⟨fun opening => ?_, fun _ => placed, writing.range, writing.given, fun _ => writing.ended ended,
    fun j shut => ?_, ?_⟩
  · exact Bool.noConfusion ((endedOpens after).symm.trans opening)
  · rcases closed j shut with rfl | before
    · exact closedBuffer s.writers j
    · exact passedEmpty _ (writing.closed j before)
  · simp only [App3.getInfo, writing.reports, position, size, shown]

theorem passesWriting {s : App3} {i : Stream} {k : Nat} (writing : Writing s)
    (held : 0 < k ∧ k ≤ (s.writers.buffer i).length) :
    Writing {s with writers := passAt s.writers i k} := by
  have begun : s.pc.opening ≠ true := by
    intro pc
    have empty : s.writers.buffer i = [] := by rw [(writing.fresh pc).1]; rfl
    rw [empty, List.length_nil] at held
    omega
  exact ⟨fun pc => absurd pc begun, fun pc => passPlaced (writing.placed pc) i k, writing.range,
    writing.given, writing.ended, fun j pc => passedEmpty k (writing.closed j pc), writing.reports⟩

theorem stepWriting {s u : App3} {a : Act} (writing : Writing s) (taken : step s a = some u) :
    Writing u := by
  cases a with
  | passes i k =>
    simp only [step] at taken
    split at taken
    · rename_i held
      cases Option.some.inj taken
      exact passesWriting writing held
    · contradiction
  | main =>
    cases pc : s.pc with
    | openF1 =>
      simp only [step, pc] at taken
      cases Option.some.inj taken
      exact opensWriting writing (by rw [pc]; rfl) rfl (fun _ => rfl) (by rw [pc]; rfl) .f1
    | openF2 =>
      simp only [step, pc] at taken
      cases Option.some.inj taken
      exact opensWriting writing (by rw [pc]; rfl) rfl (fun _ => rfl) (by rw [pc]; rfl) .f2
    | loop =>
      have placed := writing.placed (by rw [pc]; decide)
      have range := writing.range
      simp only [step, pc] at taken
      split at taken
      · rename_i inside
        cases Option.some.inj taken
        have kept := printsWriting writing pc inside
        rwa [pc] at kept
      · cases Option.some.inj taken
        refine ⟨fun opening => Bool.noConfusion opening, fun _ => placed, writing.range, writing.given,
          fun _ => by simp only; omega, fun _ closed => Bool.noConfusion closed, ?_⟩
        rw [writing.reports, pc]
        rfl
    | closeF1 =>
      simp only [step, pc] at taken
      cases Option.some.inj taken
      refine closesWriting writing (by rw [pc]; rfl) rfl (fun j shut => ?_) (by rw [pc]; rfl)
      cases j with
      | f1 => exact .inl rfl
      | f2 => exact Bool.noConfusion shut
    | closeF2 =>
      simp only [step, pc] at taken
      cases Option.some.inj taken
      refine closesWriting writing (by rw [pc]; rfl) rfl (fun j _ => ?_) (by rw [pc]; rfl)
      cases j with
      | f1 => exact .inr (by rw [pc]; rfl)
      | f2 => exact .inl rfl
    | finished =>
      simp only [step, pc] at taken
      contradiction

/- The step puts no byte of the other stream over one of `i`: what it passes on comes from
`i` itself or belongs behind all that `i` has passed on. -/
def Clear (s : App3) (i j : Stream) : Prop :=
  j = i ∨ s.writers.buffer j = [] ∨ s.writers.offset i ≤ s.writers.offset j

instance (s : App3) (i j : Stream) : Decidable (Clear s i j) := inferInstanceAs (Decidable (_ ∨ _ ∨ _))

def writer (s : App3) : Act → Option Stream
  | .passes j _ => some j
  | .main => match s.pc with
      | .closeF1 => some .f1
      | .closeF2 => some .f2
      | _ => none

def Spares (i : Stream) (s : App3) (a : Act) : Prop := ∀ j ∈ writer s a, Clear s i j

instance (i : Stream) (s : App3) (a : Act) : Decidable (Spares i s a) :=
  inferInstanceAs (Decidable (∀ j ∈ writer s a, Clear s i j))

inductive Moves (s u : App3) : Option Stream → Prop where
  | opens (before : s.writers = Writers.opened s.writers.file) (after : u.writers = Writers.opened []) :
      Moves s u none
  | prints (i : Stream) (c : Byte) (begun : s.pc ≠ .openF1) (put : u.writers = put s.writers i c) :
      Moves s u none
  | leaves (begun : s.pc ≠ .openF1) (same : u.writers = s.writers) : Moves s u none
  | passes (j : Stream) (k : Nat) (begun : s.pc ≠ .openF1) (whole : k = 0 → s.writers.buffer j = [])
      (passed : u.writers = passAt s.writers j k) : Moves s u (some j)

theorem stepMoves {s u : App3} {a : Act} (writing : Writing s) (taken : step s a = some u) :
    Moves s u (writer s a) := by
  cases a with
  | passes j k =>
    simp only [step] at taken
    split at taken
    · rename_i held
      cases Option.some.inj taken
      refine .passes j k (fun pc => ?_) (fun zero => by omega) rfl
      have empty : s.writers.buffer j = [] := by rw [(writing.fresh (by rw [pc]; rfl)).1]; rfl
      rw [empty, List.length_nil] at held
      omega
    · contradiction
  | main =>
    cases pc : s.pc with
    | openF1 =>
      obtain ⟨same, _, _⟩ := openWriting writing (by rw [pc]; rfl) .f1
      simp only [step, pc, App3.fopen, same] at taken
      cases Option.some.inj taken
      simp only [writer, pc]
      exact .opens (writing.fresh (by rw [pc]; rfl)).1 rfl
    | openF2 =>
      obtain ⟨same, _, _⟩ := openWriting writing (by rw [pc]; rfl) .f2
      simp only [step, pc, App3.fopen, same] at taken
      cases Option.some.inj taken
      simp only [writer, pc]
      exact .opens (writing.fresh (by rw [pc]; rfl)).1 rfl
    | loop =>
      have begun : s.pc ≠ .openF1 := by rw [pc]; decide
      simp only [step, pc] at taken
      simp only [writer, pc]
      split at taken
      · cases Option.some.inj taken
        exact .prints _ _ begun rfl
      · cases Option.some.inj taken
        exact .leaves begun rfl
    | closeF1 =>
      simp only [step, pc] at taken
      cases Option.some.inj taken
      simp only [writer, pc]
      exact .passes .f1 _ (by rw [pc]; decide) List.length_eq_zero_iff.mp rfl
    | closeF2 =>
      simp only [step, pc] at taken
      cases Option.some.inj taken
      simp only [writer, pc]
      exact .passes .f2 _ (by rw [pc]; decide) List.length_eq_zero_iff.mp rfl
    | finished =>
      simp only [step, pc] at taken
      contradiction

theorem passSplits {s : App3} {i j : Stream} {k : Nat} (placed : Placed s.writers)
    (prevails : Prevails s.writers i) (whole : k = 0 → s.writers.buffer j = []) :
    Clear s i j ∧ Prevails (passAt s.writers j k) i ∨
      ¬ Clear s i j ∧ Overwritten (passAt s.writers j k) i := by
  by_cases clear : Clear s i j
  · refine .inl ⟨clear, passPrevails placed prevails (clear.imp_right (Or.imp_left fun empty => ?_))⟩
    rw [empty, List.take_nil]
  · refine .inr ⟨clear, passOverwrites placed (fun same => clear (.inl same)) (fun empty => ?_)
      (Nat.lt_of_not_le fun behind => clear (.inr (.inr behind)))⟩
    exact clear (.inr (.inl ((List.take_eq_nil_iff.mp empty).elim whole id)))

theorem sparesOrOverwrites {i : Stream} {s u : App3} {a : Act} (writing : Writing s)
    (prevails : Prevails s.writers i) (taken : step s a = some u) :
    Spares i s a ∧ Prevails u.writers i ∨ ¬ Spares i s a ∧ Overwritten u.writers i := by
  have moves := stepMoves writing taken
  unfold Spares
  cases writes : writer s a with
  | none =>
    rw [writes] at moves
    refine .inl ⟨fun j mem => absurd mem (Option.not_mem_none j), ?_⟩
    cases moves with
    | opens before after =>
      rw [after]
      exact fun p passed => absurd passed (Nat.not_lt_zero p)
    | prints j c begun put =>
      rw [put]
      exact putPrevails (writing.placed begun) prevails j c
    | leaves begun same => rw [same]; exact prevails
  | some j =>
    rw [writes] at moves
    cases moves with
    | passes j k begun whole passed =>
      rw [passed]
      refine (passSplits (writing.placed begun) prevails whole).imp (fun both => ⟨fun l mem => ?_, both.2⟩)
        (fun both => ⟨fun clear => both.1 (clear j rfl), both.2⟩)
      cases Option.mem_some_iff.mp mem
      exact both.1

theorem overwrittenStays {i : Stream} {s u : App3} {a : Act} (writing : Writing s)
    (overwritten : Overwritten s.writers i) (taken : step s a = some u) : Overwritten u.writers i := by
  have moves := stepMoves writing taken
  generalize writer s a = who at moves
  cases moves with
  | opens before after =>
    obtain ⟨_, p, _, passed, _⟩ := overwritten
    rw [before] at passed
    exact absurd passed (Nat.not_lt_zero p)
  | prints j c begun put =>
    rw [put]
    exact putOverwritten (writing.placed begun) overwritten j c
  | leaves begun same => rw [same]; exact overwritten
  | passes j k begun whole passed =>
    rw [passed]
    exact passOverwritten (writing.placed begun) overwritten

def FullOnly (n : Nat) (s : App3) : Act → Prop
  | .passes j k => s.pc = .loop ∧ s.c ≤ 90 ∧ j = turn s.c ∧ k = n ∧ (s.writers.buffer j).length = n
  | .main => s.pc = .loop → s.c ≤ 90 → (s.writers.buffer (turn s.c)).length < n

instance (n : Nat) (s : App3) : (a : Act) → Decidable (FullOnly n s a)
  | .passes _ _ => inferInstanceAs (Decidable (_ ∧ _ ∧ _ ∧ _ ∧ _))
  | .main => inferInstanceAs (Decidable (_ → _ → _))

structure Even (n : Nat) (w : Writers Stream Byte) : Prop where
  ahead : w.offset .f2 ≤ w.offset .f1
  blocks : ∀ i, n ∣ w.offset i
  room : ∀ i, (w.buffer i).length ≤ n

theorem lettersCount {c : Nat} (low : 65 ≤ c) (high : c ≤ 91) :
    (lettersBefore .f1 c).length = (c - 64) / 2 ∧ (lettersBefore .f2 c).length = (c - 65) / 2 := by
  have all : ∀ n, n < 27 → (lettersBefore .f1 (65 + n)).length = (n + 1) / 2 ∧
      (lettersBefore .f2 (65 + n)).length = n / 2 := by decide
  have here := all (c - 65) (by omega)
  rw [Nat.add_sub_cancel' low] at here
  exact ⟨here.1.trans (by omega), here.2⟩

theorem openedEven (n : Nat) (file : List Byte) : Even n (Writers.opened file) :=
  ⟨Nat.le_refl 0, fun _ => Nat.dvd_zero n, fun _ => Nat.zero_le n⟩

theorem evenPut {n : Nat} {w : Writers Stream Byte} (even : Even n w) {i : Stream}
    (room : (w.buffer i).length < n) (c : Byte) : Even n (put w i c) := by
  refine ⟨even.ahead, even.blocks, fun j => ?_⟩
  by_cases here : j = i
  · subst here
    simp only [put, Function.update_self, List.length_append, List.length_singleton]
    omega
  · simp only [put, Function.update_of_ne here]
    exact even.room j

theorem evenPass {n : Nat} {s : App3} (even : Even n s.writers) (writing : Writing s)
    (placed : Placed s.writers) (inside : s.c ≤ 90)
    (full : (s.writers.buffer (turn s.c)).length = n) : Even n (passAt s.writers (turn s.c) n) := by
  have whole : ((s.writers.buffer (turn s.c)).take n).length = n := by
    rw [List.length_take, full, Nat.min_self]
  refine ⟨?_, fun j => ?_, fun j => ?_⟩
  · have ahead := even.ahead
    obtain ⟨low, high⟩ := writing.range
    obtain ⟨first, second⟩ := lettersCount low high
    have counts : ∀ j, s.writers.offset j + (s.writers.buffer j).length =
        (lettersBefore j s.c).length := by
      intro j
      have bound := placed.given j
      rw [placed.rest j, List.length_drop, ← writing.given j]
      omega
    by_cases odd : s.c % 2 = 1
    · have which : turn s.c = .f1 := by rw [turn, if_pos (by omega)]
      rw [which] at whole ⊢
      simp only [passAt, Function.update_self, whole]
      rw [Function.update_of_ne (by decide)]
      omega
    · have which : turn s.c = .f2 := by rw [turn, if_neg (by omega)]
      rw [which] at whole full ⊢
      simp only [passAt, Function.update_self, whole]
      rw [Function.update_of_ne (by decide)]
      -- f1 holds one letter more, so at least one buffer more has left it
      have one := counts .f1
      have two := counts .f2
      have room := even.room .f1
      obtain ⟨a, left⟩ := even.blocks .f1
      obtain ⟨b, right⟩ := even.blocks .f2
      have more : b < a := by
        refine Nat.lt_of_mul_lt_mul_left (a := n) ?_
        omega
      rw [left, right, ← Nat.mul_succ]
      exact Nat.mul_le_mul_left n more
  · by_cases here : j = turn s.c
    · subst here
      simp only [passAt, Function.update_self, whole]
      exact Nat.dvd_add (even.blocks _) (Nat.dvd_refl n)
    · simp only [passAt, Function.update_of_ne here]
      exact even.blocks j
  · by_cases here : j = turn s.c
    · subst here
      simp only [passAt, Function.update_self, List.length_drop]
      omega
    · simp only [passAt, Function.update_of_ne here]
      exact even.room j

theorem fullSpares {n : Nat} {s u : App3} {a : Act}
    (inv : Writing s ∧ (s.pc ≠ .closeF2 → s.pc ≠ .finished → Even n s.writers)) (full : FullOnly n s a)
    (taken : step s a = some u) :
    Spares .f2 s a ∧ Writing u ∧ (u.pc ≠ .closeF2 → u.pc ≠ .finished → Even n u.writers) := by
  obtain ⟨writing, even⟩ := inv
  have next := stepWriting writing taken
  cases a with
  | passes j k =>
    obtain ⟨pc, inside, rfl, rfl, whole⟩ := full
    simp only [step] at taken
    split at taken
    · cases Option.some.inj taken
      have even := even (by rw [pc]; decide) (by rw [pc]; decide)
      have placed := writing.placed (by rw [pc]; decide)
      refine ⟨fun j mem => ?_, next, fun _ _ => evenPass even writing placed inside whole⟩
      cases Option.mem_some_iff.mp mem
      by_cases own : turn s.c = .f2
      · exact .inl own
      · have first : turn s.c = .f1 := by
          cases which : turn s.c with
          | f1 => rfl
          | f2 => exact absurd which own
        rw [first]
        exact .inr (.inr even.ahead)
    · contradiction
  | main =>
    have closing : s.pc = .closeF1 → Even n s.writers := fun pc => even (by rw [pc]; decide) (by rw [pc]; decide)
    refine ⟨fun j mem => ?_, next, fun notClosed notFinished => ?_⟩
    · simp only [writer] at mem
      split at mem
      · rename_i pc
        cases Option.mem_some_iff.mp mem
        exact .inr (.inr (closing pc).ahead)
      · cases Option.mem_some_iff.mp mem
        exact .inl rfl
      · exact absurd mem (Option.not_mem_none j)
    · cases pc : s.pc with
      | openF1 | openF2 =>
        obtain ⟨same, _, _⟩ := openWriting writing (by rw [pc]; rfl) .f1
        simp only [step, pc, App3.fopen, same] at taken
        cases Option.some.inj taken
        exact openedEven n []
      | loop =>
        have before := even (by rw [pc]; decide) (by rw [pc]; decide)
        simp only [step, pc] at taken
        split at taken
        · rename_i inside
          cases Option.some.inj taken
          exact evenPut before (full pc inside) _
        · cases Option.some.inj taken
          exact before
      | closeF1 =>
        simp only [step, pc] at taken
        cases Option.some.inj taken
        exact absurd rfl notClosed
      | closeF2 =>
        simp only [step, pc] at taken
        cases Option.some.inj taken
        exact absurd rfl notFinished
      | finished =>
        simp only [step, pc] at taken
        contradiction

/- Whatever stdio does, the file ends with thirteen of the twenty-six letters, and all four
reports are the same. At each place stands the letter of one stream; the letters of a stream
are the whole file exactly when no step put the other's over them, and with full buffers of
any one size those of f2 are. -/
theorem halfTheLetters (old : List Byte) (labels : List Act) (last : App3)
    (run : Run step (fun _ _ => True) (App3.start old) labels last) (finished : last.pc = .finished) :
    last.reports = [(0, 0), (0, 0), (13, 13), (13, 13)] ∧
    last.writers.file.length = 13 ∧
    (∀ p, p < 13 → ∃ i, last.writers.file[p]? = (letters i)[p]?) ∧
    (∀ i, last.writers.file = letters i ↔ Run step (Spares i) (App3.start old) labels last) ∧
    (∀ n, Run step (FullOnly n) (App3.start old) labels last → last.writers.file = letters .f2) := by
  have writing := runInvariant Writing (fun _ _ _ before _ taken => stepWriting before taken) run
    (startWriting old)
  have placed := writing.placed (by rw [finished]; decide)
  have all := writing.ended (by rw [finished]; rfl)
  have given : ∀ i, last.writers.given i = letters i := by
    intro i
    rw [writing.given, all, lettersAll]
  have empty : ∀ i, last.writers.buffer i = [] := by
    intro i
    exact writing.closed i (by rw [finished]; cases i <;> rfl)
  have size := sizeFull placed given (empty .f1)
  have exact : ∀ i, last.writers.file = letters i ↔ Run step (Spares i) (App3.start old) labels last := by
    intro i
    have length : ∀ j, last.writers.offset j = 13 := by
      intro j
      have position := positionFull placed given j
      rwa [ftell, empty, List.length_nil, Nat.add_zero] at position
    rcases runOrDamage (fun s => Writing s ∧ Prevails s.writers i)
        (fun s => Writing s ∧ Overwritten s.writers i)
        (fun s a u before _ taken => (sparesOrOverwrites before.1 before.2 taken).imp
          (fun both => ⟨both.1, stepWriting before.1 taken, both.2⟩)
          (fun both => ⟨both.1, stepWriting before.1 taken, both.2⟩))
        (fun s a u before _ taken => ⟨stepWriting before.1 taken, overwrittenStays before.1 before.2 taken⟩)
        run ⟨startWriting old, fun p passed => absurd passed (Nat.not_lt_zero p)⟩
      with ⟨spared, _, prevails⟩ | ⟨broken, _, overwritten⟩
    · have whole := prevailsWhole placed prevails (empty i) (fun j => Nat.le_of_eq ((length j).trans (length i).symm))
      exact ⟨fun _ => spared, fun _ => whole.trans (given i)⟩
    · refine ⟨fun whole => ?_, fun spared => absurd spared broken⟩
      have prevails : Prevails last.writers i := by
        intro p _
        rw [whole, given]
      refine absurd overwritten (prevailsApart placed prevails fun j other => ?_)
      rw [writing.given, writing.given, all]
      exact lettersApart (Nat.le_refl 91) other
  refine ⟨by rw [writing.reports, finished]; rfl, size, fun p less => ?_, exact, fun n full => ?_⟩
  · obtain ⟨i, _, same⟩ := placed.filled p (size ▸ less)
    exact ⟨i, by rw [same, given]⟩
  · rw [exact]
    exact runStrengthen _ (fun _ _ _ before here taken => fullSpares before here taken) full
      ⟨startWriting old, fun _ _ => openedEven n old⟩

def tenBytes : List Act :=
  List.replicate 22 .main ++ [.passes .f1 10, .main, .passes .f2 10] ++ List.replicate 8 .main

theorem tenBytesLose : ∃ last, Run step (FullOnly 10) (App3.start [33]) tenBytes last ∧
    last.writers.file = letters .f2 := by
  obtain ⟨last, run, finished⟩ := checkedEnd step (FullOnly 10) (App3.start [33]) tenBytes App3.pc .finished
    (by decide +kernel)
  obtain ⟨_, _, _, _, full⟩ := halfTheLetters [33] tenBytes last (runFree run) finished
  exact ⟨last, run, full 10 run⟩

end OsLabs.TwoWriters
