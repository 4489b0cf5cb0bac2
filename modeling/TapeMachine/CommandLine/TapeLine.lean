import TapeMachine.Machine.Event
import TapeMachine.Text.Numeral

/-!
# Tape lines

A displayed run shows the tape after each visible instruction: the index and the
character of the instruction, then five characters for each cell, the current
one in brackets.
-/
namespace TapeMachine.CommandLine

/-- A cell value in three columns, in brackets if the cell is the current one. -/
def cellText (current : Bool) (value : UInt8) : List Char :=
  let digits := Text.padded ' ' 3 value.toNat
  if current then ['['] ++ digits ++ [']'] else [' '] ++ digits ++ [' ']

/-- The tape after an instruction, as one line without its end. -/
def tapeLine (s : Snapshot) : List Char :=
  Text.padded '0' 4 s.index ++ [' ', s.instruction.toChar, ' ', '|'] ++
    s.tape.cells.toList.zipIdx.flatMap fun (value, i) => cellText (i = s.tape.pointer) value

theorem length_toDigits_toNat_le (value : UInt8) : (Nat.toDigits 10 value.toNat).length ≤ 3 :=
  (Nat.length_toDigits_le_iff (by decide) (by decide)).2
    (Nat.lt_of_lt_of_le value.toNat_lt (by decide))

end TapeMachine.CommandLine
