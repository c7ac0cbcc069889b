import OsLabs.Printf
import OsLabs.FortuneFence
import OsLabs.SeqfileShow

/-! What a show of seqfile.c emits. seq_printf gets the stored text in the place of its
format and nothing after it. -/
namespace OsLabs.FortuneStore.Seqfile
open CInteger CMemory Printf

/- seq_printf(seqFile, buffer + readInd); the format ends at the first NUL. -/
def seqPrintf (s : State) (r : ShowResult) : Option (List Byte) :=
  (cstring s.buffer r.format (cookieMaxBufSize - r.format).toNat).bind printf

structure Stands (s : State) (place : Int) (text : List Byte) : Prop where
  bytes : Holds s.buffer place (text ++ [0])
  low : 0 ≤ place
  page : place + text.length < cookieMaxBufSize

structure Taken (s : State) (c : WriteCall) : Prop where
  accepted : (writeFortune s c).ret = c.len
  page : (writeFortune s c).state.writeInd ≤ cookieMaxBufSize
  clean : 0 ∉ c.user
  ends : c.user.getLast? = some newline

instance (s : State) (c : WriteCall) : Decidable (Taken s c) :=
  decidable_of_iff ((writeFortune s c).ret = c.len ∧
    (writeFortune s c).state.writeInd ≤ cookieMaxBufSize ∧ 0 ∉ c.user ∧
    c.user.getLast? = some newline)
    ⟨fun ⟨accepted, page, clean, ends⟩ => ⟨accepted, page, clean, ends⟩,
      fun taken => ⟨taken.accepted, taken.page, taken.clean, taken.ends⟩⟩

theorem sealedLine {user : List Byte} (ends : user.getLast? = some newline) :
    sealText user = user := by
  obtain ⟨text, rfl⟩ := List.getLast?_eq_some_iff.mp ends
  simp [sealText]

theorem takenStands {s : State} {c : WriteCall} (within : Within s) (taken : Taken s c) :
    Stands (writeFortune s c).state s.writeInd c.user := by
  have filled : c.user ≠ [] := by
    intro empty
    simpa [empty] using taken.ends
  have accepted := taken.accepted
  have page := taken.page
  cases writeCases within.1 (withinUnwrapped within c) with
  | refused tooLong same =>
    simp only [Seqfile.writeFortune, same, enospc] at accepted
    omega
  | faulted copied same =>
    simp only [Seqfile.writeFortune, same, efault] at accepted
    omega
  | accepted room done same =>
    simp only [Seqfile.writeFortune, same] at page ⊢
    have stored := sealedHolds s.buffer s.writeInd filled
    rw [sealedLine taken.ends] at stored
    exact ⟨stored, within.1, by simp only [WriteCall.len] at page; omega⟩

theorem standsText {s : State} {place : Int} {text : List Byte} (stands : Stands s place text)
    (clean : 0 ∉ text) : cstring s.buffer place (cookieMaxBufSize - place).toNat = some text := by
  have page := stands.page
  exact cstringOfHolds stands.bytes clean (by omega)

theorem standsShown {s : State} {place : Int} {text : List Byte} (stands : Stands s place text)
    (clean : 0 ∉ text) (cursor : s.readInd = place) (before : place < s.writeInd) :
    ∃ r, showFortune s = some r ∧ r.format = place := by
  have inside : ¬ s.writeInd ≤ s.readInd := by omega
  rw [← cursor] at stands
  simp only [showFortune, standsText stands clean, Option.map_some, if_neg inside]
  exact ⟨_, rfl, cursor⟩

theorem standsEmitted {s : State} {place : Int} {text : List Byte} (stands : Stands s place text)
    (clean : 0 ∉ text) {r : ShowResult} (shown : r.format = place) :
    seqPrintf s r = some text ↔ percent ∉ text := by
  rw [seqPrintf, shown, standsText stands clean, Option.bind_some]
  exact printfItself text

theorem textShownExactly (s : State) (c : WriteCall) (within : Within s) (taken : Taken s c) :
    Stands (writeFortune s c).state s.writeInd c.user ∧
    ∀ t : State, Stands t s.writeInd c.user →
      (t.readInd = s.writeInd → s.writeInd < t.writeInd →
        ∃ r, showFortune t = some r ∧ r.format = s.writeInd) ∧
      ∀ r, showFortune t = some r → r.format = s.writeInd →
        (seqPrintf t r = some c.user ↔ percent ∉ c.user) := by
  refine ⟨takenStands within taken, fun t stands => ⟨?_, ?_⟩⟩
  · intro cursor before
    exact standsShown stands taken.clean cursor before
  · intro r _ place
    exact standsEmitted stands taken.clean place

def nineLine : WriteCall := ⟨[57, newline], by decide, .done⟩
def doubledLine : WriteCall := ⟨[57, percent, percent, newline], by decide, .done⟩

theorem nineShown : ∃ r, showFortune (writeFortune (initFortune fun _ => 0) nineLine).state = some r ∧
    seqPrintf (writeFortune (initFortune fun _ => 0) nineLine).state r = some [57, newline] := by
  obtain ⟨stands, exactly⟩ := textShownExactly (initFortune fun _ => 0) nineLine (initWithin _)
    (by decide +kernel)
  obtain ⟨starts, emits⟩ := exactly _ stands
  obtain ⟨r, shown, place⟩ := starts (by decide +kernel) (by decide +kernel)
  exact ⟨r, shown, (emits r shown place).mpr (by decide)⟩

theorem doubledShortened : ¬ ∀ (s : State) (c : WriteCall), Within s → Taken s c →
    ∀ t : State, Stands t s.writeInd c.user → ∀ r, showFortune t = some r →
      r.format = s.writeInd → seqPrintf t r = some c.user := by
  intro all
  have taken : Taken (initFortune fun _ => 0) doubledLine := by decide +kernel
  have stands := takenStands (initWithin _) taken
  obtain ⟨r, shown, place⟩ := standsShown stands taken.clean (by decide +kernel) (by decide +kernel)
  have whole := all _ doubledLine (initWithin _) taken _ stands r shown place
  exact (standsEmitted stands taken.clean place).mp whole (by decide)

end OsLabs.FortuneStore.Seqfile
