import TapeMachine.Machine.Run
import TapeMachine.Random.Composition

/-!
# Benchmark batches

A batch draws random programs with random inputs from one source and runs each
on a machine of its own, within a limit. The jobs are drawn before any of them
runs, so they depend on the seed alone.
-/
namespace TapeMachine.Benchmark

structure Options where
  programs : Nat
  programLength : Nat
  stepLimit : UInt64
  tapeSize : Nat
  deriving DecidableEq

def Options.standard : Options := ⟨4096, 64, 8192, Setup.standardSize⟩

/-- A program with the input queue that it is started with. -/
structure Job where
  code : List Instruction
  input : Array UInt8
  deriving DecidableEq

variable {σ : Type} (source : Random.Source σ)

/-- Draw a program, then the length of its input, then the input. -/
def Job.draw (programLength : Nat) (s : σ) : Job × σ :=
  let (code, s) := Random.compose source.below8 programLength s
  let (size, s) := source.below16 s
  let (input, s) := source.fill size s
  (⟨code, input.toArray⟩, s)

/-- Draw `count` jobs after those in `drawn`. -/
def drawJobs (programLength : Nat) (drawn : Array Job) : (count : Nat) → σ → Array Job
  | 0, _ => drawn
  | count + 1, s =>
    let (job, s) := Job.draw source programLength s
    drawJobs programLength (drawn.push job) count s

def jobs (o : Options) (seed : UInt64) : List Job :=
  (drawJobs source o.programLength #[] o.programs (source.ofSeed seed)).toList

def Options.setup (o : Options) : Setup :=
  ⟨o.tapeSize, true⟩

/-- Run a job on a new machine. A machine that is refused or a program that does
not load gives nothing. -/
def Job.run (job : Job) (setup : Setup) (limit : UInt64) : Option Ended := do
  let m ← (Machine.ofSetup setup).toOption
  let m ← (m.loadCode job.code).toOption
  return m.runWithin job.input limit

structure Report where
  programs : Nat
  completed : Nat
  unfinished : Nat
  totalSteps : UInt64
  deriving DecidableEq

namespace Report

def empty : Report := ⟨0, 0, 0, 0⟩

def add (r : Report) (e : Ended) : Report where
  programs := r.programs + 1
  completed := if e.outcome = .outOfSteps then r.completed else r.completed + 1
  unfinished := if e.outcome = .outOfSteps then r.unfinished + 1 else r.unfinished
  totalSteps := r.totalSteps + e.machine.store.steps

def count (setup : Setup) (limit : UInt64) (r : Report) (job : Job) : Report :=
  match job.run setup limit with
  | some e => r.add e
  | none => r

end Report

def batch (o : Options) (seed : UInt64) : Except SetupError Report := do
  o.setup.check
  return (jobs source o seed).foldl (Report.count o.setup o.stepLimit) .empty

/-- A batch of seeded jobs. -/
def run (o : Options) (seed : UInt64) : Except SetupError Report :=
  batch .seeded o seed

end TapeMachine.Benchmark
