/-!
# Instructions of the tape language

The language has eight instructions, each written as one ASCII character. Every
other byte of a program text is a comment.
-/
namespace TapeMachine

inductive Instruction where
  | moveRight
  | moveLeft
  | increment
  | decrement
  | write
  | read
  | loopStart
  | loopEnd
  deriving DecidableEq

namespace Instruction

def toChar : Instruction → Char
  | moveRight => '>'
  | moveLeft => '<'
  | increment => '+'
  | decrement => '-'
  | write => '.'
  | read => ','
  | loopStart => '['
  | loopEnd => ']'

def toByte (i : Instruction) : UInt8 :=
  i.toChar.toUInt8

/-- The instruction that a byte stands for, if it stands for one. -/
def ofByte? (b : UInt8) : Option Instruction :=
  if b = toByte moveRight then some moveRight
  else if b = toByte moveLeft then some moveLeft
  else if b = toByte increment then some increment
  else if b = toByte decrement then some decrement
  else if b = toByte write then some write
  else if b = toByte read then some read
  else if b = toByte loopStart then some loopStart
  else if b = toByte loopEnd then some loopEnd
  else none

/-- Visible instructions move the pointer, change a cell or write. A paced run
pauses after them and a displayed run shows the tape after them. -/
def isVisible : Instruction → Bool
  | moveRight | moveLeft | increment | decrement | write => true
  | read | loopStart | loopEnd => false

def isBracket : Instruction → Bool
  | loopStart | loopEnd => true
  | _ => false

def text (code : List Instruction) : String :=
  String.ofList (code.map toChar)

theorem ofByte?_toByte (i : Instruction) : ofByte? i.toByte = some i := by
  cases i <;> decide

theorem toByte_of_ofByte? {b : UInt8} {i : Instruction} (h : ofByte? b = some i) :
    i.toByte = b := by
  unfold ofByte? at h
  repeat' split at h
  all_goals simp_all

theorem ofByte?_eq_some_iff {b : UInt8} {i : Instruction} :
    ofByte? b = some i ↔ i.toByte = b :=
  ⟨toByte_of_ofByte?, fun h => h ▸ ofByte?_toByte i⟩

theorem toChar_injective {i j : Instruction} (h : i.toChar = j.toChar) : i = j := by
  cases i <;> cases j <;> first | rfl | (revert h; decide)

end Instruction

end TapeMachine
