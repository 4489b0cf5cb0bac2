import TapeMachine.Benchmark.Batch
import TapeMachine.CommandLine.Arguments
import TapeMachine.Machine.Setup
import TapeMachine.Text.Numeral

/-!
# Commands

The four subcommands with their options. A command line that does not spell one
of them is refused as a whole.
-/
namespace TapeMachine.CommandLine

inductive Source where
  | inline (code : String)
  | file (name : String)
  | standardInput
  deriving DecidableEq

/-- Run a program, at full speed or, with a delay, displayed. -/
structure RunOptions where
  source : Source
  input : String
  tapeSize : Nat
  io : Bool
  /-- The wait after each visible instruction, in milliseconds. -/
  delay : Option Nat
  maxSteps : Option UInt64
  deriving DecidableEq

/-- Run a program without input and output and judge its tape. -/
structure GolfOptions where
  source : Source
  targets : List UInt8
  tapeSize : Nat
  maxSteps : UInt64
  deriving DecidableEq

/-- Run batches of random programs, the seed going up by one from batch to batch. -/
structure BenchOptions where
  batch : Benchmark.Options
  seed : UInt64
  batches : Nat
  deriving DecidableEq

inductive Command where
  | run (options : RunOptions)
  | golf (options : GolfOptions)
  /-- List a program. -/
  | check (source : Source)
  | bench (options : BenchOptions)
  deriving DecidableEq

def wordLimit : Nat := UInt64.size - 1

namespace Given

variable (g : Given)

/-- A number that fits a 64-bit word, if it was given; refused if it cannot be read. -/
def number (name : String) : Option (Option Nat) :=
  match g.once name with
  | some (some value) => (Text.number? wordLimit value).map some
  | some none => some none
  | none => none

def numberOr (name : String) (default : Nat) : Option Nat :=
  (g.number name).map (·.getD default)

def word (name : String) : Option (Option UInt64) :=
  (g.number name).map (·.map Nat.toUInt64)

def wordOr (name : String) (default : UInt64) : Option UInt64 :=
  (g.word name).map (·.getD default)

/-- The one source: a code, a file with a name, or neither. -/
def source : Option Source := do
  match ← g.once "code", g.operands with
  | some code, [] => some (.inline code)
  | none, [name] => if name = "" then none else some (.file name)
  | none, [] => some .standardInput
  | _, _ => none

/-- Cell values between commas; several lists are put together. -/
def targets : Option (List UInt8) :=
  match g.values "targets" with
  | [] => none
  | lists => (lists.flatMap (·.splitOn ",")).mapM Text.byte?

end Given

namespace Command

def runVocabulary : Vocabulary :=
  ⟨["code", "input", "tape-size", "delay-ms", "max-steps"], ["no-io"]⟩

def golfVocabulary : Vocabulary :=
  ⟨["code", "targets", "tape-size", "max-steps"], []⟩

def checkVocabulary : Vocabulary := ⟨["code"], []⟩

def benchVocabulary : Vocabulary :=
  ⟨["seed", "programs", "program-len", "step-limit", "tape-size", "batches"], []⟩

def readRun (words : List String) : Option RunOptions := do
  let g ← Given.ofWords runVocabulary words
  return {
    source := ← g.source
    input := (← g.once "input").getD ""
    tapeSize := ← g.numberOr "tape-size" Setup.standardSize
    io := !(← g.flag "no-io")
    delay := ← g.number "delay-ms"
    maxSteps := ← g.word "max-steps" }

def readGolf (words : List String) : Option GolfOptions := do
  let g ← Given.ofWords golfVocabulary words
  return {
    source := ← g.source
    targets := ← g.targets
    tapeSize := ← g.numberOr "tape-size" Setup.golfSize
    maxSteps := ← g.wordOr "max-steps" 1048576 }

def readCheck (words : List String) : Option Source := do
  (← Given.ofWords checkVocabulary words).source

def readBench (words : List String) : Option BenchOptions := do
  let g ← Given.ofWords benchVocabulary words
  let standard := Benchmark.Options.standard
  if g.operands = [] then
    return {
      batch := {
        programs := ← g.numberOr "programs" standard.programs
        programLength := ← g.numberOr "program-len" standard.programLength
        stepLimit := ← g.wordOr "step-limit" standard.stepLimit
        tapeSize := ← g.numberOr "tape-size" standard.tapeSize }
      seed := ← g.wordOr "seed" 0
      batches := ← g.numberOr "batches" 1 }
  else none

def ofWords? : List String → Option Command
  | "run" :: words => (readRun words).map run
  | "golf" :: words => (readGolf words).map golf
  | "check" :: words => (readCheck words).map check
  | "bench" :: words => (readBench words).map bench
  | _ => none

end Command

end TapeMachine.CommandLine
