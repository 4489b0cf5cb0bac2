import TapeMachine.CommandLine.Display
import TapeMachine.CommandLine.Figures
import TapeMachine.Verdict
import TapeMachine.Program.Listing

/-!
# Executing commands

Each command is executed in its surroundings and leaves an exit. A command whose
run has no end leaves none.
-/
namespace TapeMachine.CommandLine

variable (w : Surroundings)

def GolfOptions.setup (o : GolfOptions) : Setup :=
  { Setup.golf with tapeSize := o.tapeSize }

def verdictText (v : Verdict) (m : Machine) : String :=
  if v.solved then
    "solved\nYour program is " ++ toString v.programSize ++
      " instructions long. Can you make it shorter?\n"
  else
    "not solved, cells differ at " ++ Text.bracketed v.missed ++ "\ntape: " ++
      Text.bracketed (m.store.tape.cells.toList.map UInt8.toNat) ++ "\n"

def print (text diagnostics : String) : Exit :=
  if w.outputFull ∧ text ≠ "" then .broken diagnostics
  else .success (Text.bytes text) diagnostics

/-- The tape is judged as the run leaves it, also at the step limit. -/
def GolfOptions.perform (o : GolfOptions) (m : Machine) : Exit :=
  let e := m.runWithin #[] o.maxSteps
  let stopped := if e.outcome = .outOfSteps then
    "stopped at step limit (" ++ toString e.machine.store.steps.toNat ++ " steps)\n" else ""
  print w (verdictText (.ofMachine e.machine o.targets) e.machine) stopped

def listSource (source : Source) : Except Failure Exit := do
  let text ← readSource w source
  let p ← (Program.ofText text).mapError .program
  if w.outputFull ∧ p.size ≠ 0 then return .broken ""
  return .success (Text.bytes p.listing) (toString p.size ++ " instructions\n")

def settle : Except Failure Exit → Exit
  | .ok e => e
  | .error f => .failure f

/-- The exit of a command that has no machine with its program. -/
def refuse (f : Failure) : Exit :=
  ⟨1, [], w.logged f ++ f.message ++ "\n"⟩

/-- Execute a command. A listing needs no machine, so that the log is not told of
a text that cannot be listed. -/
def Command.execute : Command → Option Exit
  | .run o =>
    match prepare w o.source o.setup with
    | .ok m => (o.perform w m).map settle
    | .error f => some (refuse w f)
  | .golf o =>
    match prepare w o.source o.setup with
    | .ok m => some (o.perform w m)
    | .error f => some (refuse w f)
  | .check source => some (settle (listSource w source))
  | .bench o => some (settle (measure .seeded o))

def execute (words : List String) : Option Exit :=
  match Command.ofWords? words with
  | some command => command.execute w
  | none => some .refused

end TapeMachine.CommandLine
