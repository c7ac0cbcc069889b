import OsLabs.CMemory

/-! A printf format that is handed no arguments: `%%` prints one percent sign, and every
other directive asks for an argument that was not passed or is none of printf's. -/
namespace OsLabs.Printf
open CMemory

def percent : Byte := 37

def printf : List Byte → Option (List Byte)
  | [] => some []
  | b :: rest =>
      if b = percent then
        match rest with
        | [] => none
        | c :: more => if c = percent then (printf more).map (percent :: ·) else none
      else (printf rest).map (b :: ·)

theorem printfOther {b : Byte} (other : b ≠ percent) (rest : List Byte) :
    printf (b :: rest) = (printf rest).map (b :: ·) := by
  cases rest with
  | nil => exact if_neg other
  | cons c more => exact if_neg other

theorem printfPlain {format : List Byte} (plain : percent ∉ format) :
    printf format = some format := by
  induction format with
  | nil => rfl
  | cons b rest ih =>
    have here : b ≠ percent := fun same => plain (same ▸ List.mem_cons_self)
    have later := ih (fun mem => plain (List.mem_cons_of_mem _ mem))
    rw [printfOther here, later, Option.map_some]

theorem printfLength {format output : List Byte} (printed : printf format = some output) :
    output.length ≤ format.length ∧ (percent ∈ format → output.length < format.length) := by
  induction format using printf.induct generalizing output with
  | case1 =>
    cases Option.some.inj printed
    simp
  | case2 => simp [printf] at printed
  | case3 more ih =>
    simp only [printf, if_true] at printed
    obtain ⟨tail, later, same⟩ := Option.map_eq_some_iff.mp printed
    have bound := (ih later).1
    rw [← same]
    simp only [List.length_cons]
    omega
  | case4 c more other => simp [printf, other] at printed
  | case5 b rest here ih =>
    rw [printfOther here] at printed
    obtain ⟨tail, later, same⟩ := Option.map_eq_some_iff.mp printed
    obtain ⟨bound, strict⟩ := ih later
    have first : percent ≠ b := fun same => here same.symm
    rw [← same]
    simp only [List.length_cons, List.mem_cons, first, false_or]
    exact ⟨by omega, fun mem => by have := strict mem; omega⟩

theorem printfItself (format : List Byte) : printf format = some format ↔ percent ∉ format := by
  constructor
  · intro printed mem
    have shorter := (printfLength printed).2 mem
    omega
  · exact printfPlain

end OsLabs.Printf
