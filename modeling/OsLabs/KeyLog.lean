import Mathlib.Logic.Function.Basic

/-! The scan-code table that both keyboard modules print from, and the array of symbols
that the tasklet fills. The lines sent to the kernel log are left out. -/
namespace OsLabs.KeyLog

def ascii : List String :=
  [" ", "Esc", "1", "2", "3", "4", "5", "6", "7", "8", "9", "0", "-", "+", "Backspace",
   "Tab", "Q", "W", "E", "R", "T", "Y", "U", "I", "O", "P", "[", "]", "Enter", "Ctrl",
   "A", "S", "D", "F", "G", "H", "J", "K", "L", ";", "\"", "'", "Shift (left)", "|",
   "Z", "X", "C", "V", "B", "N", "M", "<", ">", "?", "Shift (right)",
   "*", "Alt", "Space", "CapsLock",
   "F1", "F2", "F3", "F4", "F5", "F6", "F7", "F8", "F9", "F10",
   "NumLock", "ScrollLock", "Home", "Up", "Page-Up", "-", "Left",
   " ", "Right", "+", "End", "Down", "Page-Down", "Insert", "Delete"]

def posMax : Nat := 1000

/- The array simbol with pos_simbol; the entries start as null pointers. -/
structure SimbolLog where
  simbol : Nat → Option String
  pos : Nat
  inArray : pos ≤ posMax

def SimbolLog.empty : SimbolLog := ⟨fun _ => none, 0, Nat.zero_le _⟩

def SimbolLog.entries (log : SimbolLog) : List (Option String) := (List.range log.pos).map log.simbol

/- A full array is only restarted: the code that finds it full is not stored. -/
def SimbolLog.press (log : SimbolLog) (code : UInt8) : SimbolLog :=
  match ascii[code.toNat]? with
  | none => log
  | some name =>
      if room : log.pos < posMax then
        ⟨Function.update log.simbol log.pos (some name), log.pos + 1, room⟩
      else ⟨log.simbol, 0, Nat.zero_le _⟩

end OsLabs.KeyLog
