import TapeMachine.CommandLine.Files
import TapeMachine.Machine.Setup
import TapeMachine.Program.Brackets
import TapeMachine.Text.Bytes

/-!
# Exits and failures

A command leaves an exit code, the bytes of its output and its diagnostics. A
failure has code 1 and nothing but its message.
-/
namespace TapeMachine.CommandLine

inductive Failure where
  | access (error : AccessError)
  | program (error : LoadError)
  | setup (error : SetupError)
  deriving DecidableEq

/-- An output that could not be written is reported like a program that could
not be read. -/
def Failure.message : Failure → String
  | access error => "could not read program: " ++ error.message
  | program error => "invalid program: " ++ error.message
  | setup error => "invalid configuration: " ++ error.message

structure Exit where
  code : UInt32
  output : List UInt8
  diagnostics : String
  deriving DecidableEq

namespace Exit

def success (output : List UInt8) (diagnostics : String) : Exit :=
  ⟨0, output, diagnostics⟩

def failure (f : Failure) : Exit :=
  ⟨1, [], f.message ++ "\n"⟩

def refused : Exit := ⟨2, [], ""⟩

/-- A text that cannot be printed ends the command on the spot. -/
def broken (diagnostics : String) : Exit :=
  ⟨101, [], diagnostics ++ "failed printing to stdout: " ++ AccessError.noSpace.message ++ "\n"⟩

end Exit

end TapeMachine.CommandLine
