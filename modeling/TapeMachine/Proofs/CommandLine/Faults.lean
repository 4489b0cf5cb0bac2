import TapeMachine.Proofs.Golf.Command

/-!
# What can be wrong with a command

A command that works on a program needs a source that spells a text, cells to run it on,
and a text that is a program. The first of these that it does not find is all that it
tells of, whatever its options, and ends it with code 1; with all of them it ends with code
0, if the run comes to an end. These needs are stated here of the surroundings themselves,
apart from the functions that look for them.
-/
namespace TapeMachine.CommandLine

variable {w : Surroundings} {source : Source} {cells : Option ℕ} {text : String} {f : Failure}
  {p : Program} {exit : Exit}

/-! ### Sources -/

/-- The bytes of a source can be had, and they are those of a text in UTF-8. -/
inductive Source.Spells (w : Surroundings) : Source → String → Prop
  | inline (code : String) : Spells w (.inline code) code
  | file {name text : String} (h : w.open? name = .ok (Text.bytes text)) :
      Spells w (.file name) text
  | standardInput {text : String} (h : w.standardInput = Text.bytes text) :
      Spells w .standardInput text

/-- Nothing is wrong. -/
structure Accepted (w : Surroundings) (source : Source) (cells : Option ℕ) (text : String)
    (p : Program) : Prop where
  spells : source.Spells w text
  cells_ne : cells ≠ some 0
  program_eq : Program.ofText text = .ok p

theorem Accepted.size_pos {size : ℕ} (h : Accepted w source (some size) text p) : 0 < size :=
  Nat.pos_of_ne_zero fun hzero => h.cells_ne (congrArg some hzero)

/-- What the log writes of a fault. It is told of a text that is no program by the commands
that load it into a machine, and of no other fault. -/
def Command.logged (w : Surroundings) : Command → Failure → String
  | .run _, .program error | .golf _, .program error => w.log (.rejected error)
  | _, _ => ""

end TapeMachine.CommandLine
