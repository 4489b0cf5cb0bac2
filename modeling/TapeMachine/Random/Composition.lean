import TapeMachine.Random.Generator
import TapeMachine.Instruction

/-!
# Random programs

A program of given length is composed instruction by instruction from draws. An
opening bracket is placed only where it can still be closed, a closing one only
where a loop is open, and once the open loops fill what is left, all of them are
closed. So the brackets of the result match whatever the draws are.
-/
namespace TapeMachine.Random

def palette : Vector Instruction 8 :=
  #v[.moveLeft, .moveRight, .decrement, .increment, .write, .read, .loopStart, .loopEnd]

/-- What is placed when `wish` is asked for with `depth` open loops and
`remaining` places left, and the depth after it. Brackets that do not fit
become `+`. -/
def fit (depth remaining : Nat) : (wish : Instruction) → Instruction × Nat
  | .loopStart =>
    if depth + 1 < remaining then (.loopStart, depth + 1) else (.increment, depth)
  | .loopEnd => if 0 < depth then (.loopEnd, depth - 1) else (.increment, depth)
  | wish => (wish, depth)

variable {σ : Type} (draw : σ → Fin 8 × σ)

/-- The instruction asked for next: without a draw if all places left are needed
for closing brackets. -/
def wish (depth remaining : Nat) (s : σ) : Instruction × σ :=
  if depth = remaining then (.loopEnd, s)
  else
    let (k, s) := draw s
    (palette[k], s)

/-- Compose `remaining` more instructions; `placed` are those before, the last one first. -/
def composeFrom (placed : List Instruction) (depth : Nat) :
    (remaining : Nat) → σ → List Instruction × σ
  | 0, s => (placed.reverse, s)
  | remaining + 1, s =>
    let (wanted, s) := wish draw depth (remaining + 1) s
    let (i, depth) := fit depth (remaining + 1) wanted
    composeFrom (i :: placed) depth remaining s

/-- A program of `length` instructions from the draws of a source. -/
def compose (length : Nat) (s : σ) : List Instruction × σ :=
  composeFrom draw [] 0 length s

def program (length : Nat) (g : Generator) : List Instruction × Generator :=
  compose Generator.below8 length g

def programs : (lengths : List Nat) → Generator → List (List Instruction)
  | [], _ => []
  | length :: lengths, g =>
    let (code, g) := program length g
    code :: programs lengths g

theorem length_composeFrom (placed : List Instruction) (depth remaining : Nat) (s : σ) :
    (composeFrom draw placed depth remaining s).1.length = placed.length + remaining := by
  induction remaining generalizing placed depth s with
  | zero => simp [composeFrom]
  | succ n ih =>
    simp [composeFrom, ih]
    omega

theorem length_compose (length : Nat) (s : σ) :
    (compose draw length s).1.length = length := by
  simp [compose, length_composeFrom]

end TapeMachine.Random
