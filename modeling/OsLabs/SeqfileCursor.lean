import OsLabs.FortuneFence
import OsLabs.SeqfileShow

/-! Where readInd of seqfile.c stands, and how far the strlen of a show reads, when writes
may fail. A show from the end of the data measures what lies beyond it. -/
namespace OsLabs.FortuneStore.Seqfile
open CInteger CMemory Runs

/- The module beside the fortunes it has accepted. A show whose strlen leaves the page
has no result in the model and breaks `Measured`. -/
structure Catalog where
  store : State
  stored : List (List Byte)

def Catalog.start (outside : Mem) : Catalog := ⟨initFortune outside, []⟩

def catalogStep (w : Catalog) : Op → Option Catalog
  | .write c => some ⟨(writeFortune w.store c).state, storedAfter w.store c w.stored⟩
  | .showFortune => some ⟨((showFortune w.store).map ShowResult.state).getD w.store, w.stored⟩

def Written (w : Catalog) : Op → Prop
  | .write c => Fitting w.store c ∧ 0 ∉ c.user
  | .showFortune => True

def Measured (w : Catalog) : Op → Prop
  | .write _ => True
  | .showFortune => ∃ text, cstring w.store.buffer w.store.readInd
      (cookieMaxBufSize - w.store.readInd).toNat = some text

def Placed (w : Catalog) : Prop :=
  w.store.readInd = w.store.writeInd ∨
    ∃ n < w.stored.length, w.store.readInd = offset w.stored n

def Clear (w : Catalog) : Op → Prop
  | .write _ => True
  | .showFortune => w.store.readInd = w.store.writeInd →
      w.store.writeInd < cookieMaxBufSize ∧ w.store.buffer w.store.writeInd = 0

instance (w : Catalog) : (op : Op) → Decidable (Written w op)
  | .write c => inferInstanceAs (Decidable (Fitting w.store c ∧ 0 ∉ c.user))
  | .showFortune => inferInstanceAs (Decidable True)

instance (w : Catalog) : (op : Op) → Decidable (Clear w op)
  | .write _ => inferInstanceAs (Decidable True)
  | .showFortune => inferInstanceAs (Decidable (_ → _))

structure Catalogued (w : Catalog) : Prop where
  layout : Layout w.store w.stored
  within : Within w.store
  place : ∃ n ≤ w.stored.length, w.store.readInd = offset w.stored n

theorem startCatalogued (outside : Mem) : Catalogued (Catalog.start outside) :=
  ⟨initLayout outside, initWithin outside, 0, Nat.le_refl 0, rfl⟩

theorem cataloguedPlaced {w : Catalog} (catalogued : Catalogued w) : Placed w := by
  obtain ⟨n, range, place⟩ := catalogued.place
  rcases Nat.lt_or_eq_of_le range with inside | last
  · exact .inr ⟨n, inside, place⟩
  · have used := catalogued.layout.used
    rw [last, offsetEnd] at place
    exact .inl (place.trans used.symm)

theorem writeCatalogued {w : Catalog} {c : WriteCall} (catalogued : Catalogued w)
    (written : Written w (.write c)) :
    Catalogued ⟨(writeFortune w.store c).state, storedAfter w.store c w.stored⟩ := by
  obtain ⟨fitting, clean⟩ := written
  obtain ⟨n, range, place⟩ := catalogued.place
  obtain ⟨more, same⟩ := @storedGrows w.store c w.stored n range
  have within := catalogued.within
  refine ⟨storedLayout catalogued.layout within fitting.1 clean,
    ⟨Int.le_trans within.1 (writeGrows within.1 (withinUnwrapped within c)), fitting.2⟩, n, more, ?_⟩
  rw [same, ← place]
  exact writeKeepsCursor w.store c

theorem showCatalogued {w : Catalog} (catalogued : Catalogued w) (clear : Clear w .showFortune) :
    Measured w .showFortune ∧
      Catalogued ⟨((showFortune w.store).map ShowResult.state).getD w.store, w.stored⟩ := by
  have layout := catalogued.layout
  have page := catalogued.within.2
  obtain ⟨n, range, place⟩ := catalogued.place
  rcases Nat.lt_or_eq_of_le range with inside | last
  · have text := layoutText layout page inside
    rw [showInside layout page inside place]
    refine ⟨⟨w.stored[n], ?_⟩, ⟨layout.bytes, layout.used, layout.clean⟩, catalogued.within,
      n + 1, inside, rfl⟩
    rw [place, Int.toNat_sub]
    exact text
  · have ended : w.store.readInd = w.store.writeInd := by
      rw [place, last, offsetEnd]
      exact layout.used.symm
    obtain ⟨before, blank⟩ := clear ended
    rw [showAtEnd ended before blank]
    obtain ⟨text, found, _⟩ := @cstringEnds w.store.buffer w.store.readInd w.store.readInd
      (cookieMaxBufSize - w.store.readInd).toNat (Int.le_refl _) (by omega) (by rwa [ended])
    exact ⟨⟨text, found⟩, ⟨layout.bytes, layout.used, layout.clean⟩, catalogued.within,
      0, Nat.zero_le _, rfl⟩

/- While every show from the end of the data finds a NUL there, all shows measure strings
of the page and the cursor stays at the start of a fortune or at the end. -/
theorem cursorPlaced (outside : Mem) (ops : List Op) (last : Catalog)
    (run : Run catalogStep (fun w op => Written w op ∧ Clear w op) (Catalog.start outside) ops last) :
    Run catalogStep Measured (Catalog.start outside) ops last ∧ Placed last := by
  have kept : ∀ w op u, Catalogued w → Written w op ∧ Clear w op → catalogStep w op = some u →
      Measured w op ∧ Catalogued u := by
    intro w op u catalogued legal taken
    cases op with
    | write c =>
      rw [← Option.some.inj taken]
      exact ⟨trivial, writeCatalogued catalogued legal.1⟩
    | showFortune =>
      rw [← Option.some.inj taken]
      exact showCatalogued catalogued legal.2
  have sound := runInvariant Catalogued (fun w op u before legal taken => (kept w op u before legal taken).2)
    run (startCatalogued outside)
  exact ⟨runStrengthen Catalogued kept run (startCatalogued outside), cataloguedPlaced sound⟩

def tornWrite : WriteCall := ⟨[120, newline], by decide, .fault 1⟩
def fullLine : WriteCall := ⟨List.replicate 4095 97, by rw [List.length_replicate]; decide, .done⟩

theorem linesPlaced : ∃ last, Run catalogStep Measured (Catalog.start fun _ => 0)
    [.write (line 97), .write (line 98), .write tornWrite, .showFortune, .showFortune] last ∧ Placed last := by
  obtain ⟨last, run⟩ := checkedRun catalogStep (fun w op => Written w op ∧ Clear w op)
    (Catalog.start fun _ => 0)
    [.write (line 97), .write (line 98), .write tornWrite, .showFortune, .showFortune] (by decide +kernel)
  exact ⟨last, cursorPlaced _ _ last run⟩

theorem fullWritten (outside : Mem) : ∃ w,
    Run catalogStep Written (Catalog.start outside) [.write fullLine, .showFortune] w ∧
    w.store.readInd = cookieMaxBufSize := by
  have page := pageSize
  have length : fullLine.len = 4095 := List.length_replicate
  have filled : fullLine.user ≠ [] :=
    List.length_pos_iff.mp (by rw [fullLine, List.length_replicate]; decide)
  have within := initWithin outside
  have zero : (initStatics outside).writeInd = 0 := rfl
  have left := spaceLeftExact within.1 within.2
  have accepted := @writeAccepted (initStatics outside) fullLine within (by omega) rfl
  have used : (FortuneStore.writeFortune (initStatics outside) fullLine).state.writeInd =
      cookieMaxBufSize := by
    rw [accepted]
    simp only
    omega
  have clean : ∀ n, (0 : Byte) ∉ List.replicate n 97 := by
    intro n mem
    exact absurd (List.eq_of_mem_replicate mem) (by decide)
  have written : Fitting (initStatics outside) fullLine ∧ 0 ∉ fullLine.user :=
    ⟨⟨filled, Int.le_of_eq used⟩, clean 4095⟩
  have stored : storedAfter (initStatics outside) fullLine [] = [sealText fullLine.user] := by
    refine if_pos ?_
    rw [accepted]
    exact Int.natCast_nonneg _
  have layout := storedLayout (initLayout outside) within filled written.2
  rw [stored] at layout
  have cursor := writeKeepsCursor (initStatics outside) fullLine
  have shown := @showInside _ _ 0 layout (Int.le_of_eq used) Nat.one_pos (by rw [cursor, offsetZero]; rfl)
  have ended : offset [sealText fullLine.user] 1 = (image [sealText fullLine.user]).length :=
    offsetEnd [sealText fullLine.user]
  have full := layout.used
  have first : catalogStep (Catalog.start outside) (.write fullLine) =
      some ⟨(FortuneStore.writeFortune (initStatics outside) fullLine).state,
        [sealText fullLine.user]⟩ := by
    rw [← stored]
    rfl
  have second : catalogStep ⟨(FortuneStore.writeFortune (initStatics outside) fullLine).state,
      [sealText fullLine.user]⟩ .showFortune =
      some ⟨{(FortuneStore.writeFortune (initStatics outside) fullLine).state with
        readInd := offset [sealText fullLine.user] 1}, [sealText fullLine.user]⟩ := by
    simp only [catalogStep, shown, Option.map_some, Option.getD_some, Nat.zero_add]
  exact ⟨_, .cons written first (.cons trivial second (.nil _)), by simp only; omega⟩

theorem endShowsAstray :
    ¬ (∀ outside ops last, Run catalogStep Written (Catalog.start outside) ops last →
      Run catalogStep Measured (Catalog.start outside) ops last) ∧
    ¬ (∀ outside ops last, Run catalogStep Written (Catalog.start outside) ops last →
      Placed last) := by
  constructor
  · intro all
    obtain ⟨w, run, full⟩ := fullWritten (fun _ => 0)
    have legal : Run catalogStep Written (Catalog.start fun _ => 0)
        ([.write fullLine, .showFortune] ++ [.showFortune]) _ := runAppend run (.cons trivial rfl (.nil _))
    obtain ⟨u, before, measured⟩ := runLast _ (all _ _ _ legal)
    rw [runExec run] at before
    cases before
    obtain ⟨text, found⟩ := measured
    rw [full, Int.sub_self] at found
    cases found
  · intro all
    obtain ⟨last, run, state⟩ := checkedEnd catalogStep Written (Catalog.start fun _ => 0)
      [.write (line 97), .showFortune, .write tornWrite, .showFortune]
      (fun w => (w.store.readInd, w.store.writeInd, w.stored)) (2, 3, [[97, newline]])
      (by decide +kernel)
    rw [Prod.mk.injEq, Prod.mk.injEq] at state
    obtain ⟨cursor, used, stored⟩ := state
    rcases all _ _ last run with ended | ⟨n, inside, place⟩
    · omega
    · rw [stored] at inside place
      have first : n = 0 := by simpa using inside
      rw [first, offsetZero, cursor] at place
      exact absurd place (by decide)

end OsLabs.FortuneStore.Seqfile
