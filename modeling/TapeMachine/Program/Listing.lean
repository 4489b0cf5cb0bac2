import TapeMachine.Text.Numeral
import TapeMachine.Program.Basic

/-!
# Program listings

A listing has one line for each instruction: its index, its character and, for
a bracket, the index of the partner.
-/
namespace TapeMachine.Program

variable (p : Program)

def arrow (partner : Nat) : List Char :=
  "  -> ".toList ++ Text.padded '0' 4 partner

def line (index : Nat) (i : Instruction) : List Char :=
  Text.padded '0' 4 index ++ [' ', ' ', i.toChar] ++
    ((p.partner? index).map arrow).getD [] ++ ['\n']

def listing : String :=
  String.ofList (p.code.toList.zipIdx.flatMap fun (i, index) => p.line index i)

end TapeMachine.Program
