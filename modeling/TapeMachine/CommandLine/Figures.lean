import TapeMachine.CommandLine.Command
import TapeMachine.CommandLine.Exit

/-!
# Benchmark figures

The benchmark runs batches with consecutive seeds and prints the sums of their
reports. The batches themselves refuse a tape without cells, so a benchmark of
no batches refuses nothing. The time that passed and the steps in each second
are printed as well, after the figures; they are left out here.
-/
namespace TapeMachine.CommandLine

variable {σ : Type} (source : Random.Source σ)

/-- Run batches one after the other, the seed going up by one, and add up the
unfinished jobs and the steps. -/
def runBatches (o : Benchmark.Options) :
    (batches : Nat) → (seed : UInt64) → Nat × UInt64 → Except SetupError (Nat × UInt64)
  | 0, _, totals => .ok totals
  | batches + 1, seed, (unfinished, steps) =>
    match Benchmark.batch source o seed with
    | .ok r => runBatches o batches (seed + 1) (unfinished + r.unfinished, steps + r.totalSteps)
    | .error e => .error e

structure Figures where
  batches : Nat
  programs : Nat
  unfinished : Nat
  totalSteps : Nat
  deriving DecidableEq

/-- The number of programs is a 64-bit word, like the number of steps. -/
def figures (o : BenchOptions) : Except SetupError Figures :=
  (runBatches source o.batch o.batches o.seed (0, 0)).map fun (unfinished, steps) =>
    { batches := o.batches
      programs := (o.batches.toUInt64 * o.batch.programs.toUInt64).toNat
      unfinished
      totalSteps := steps.toNat }

def Figures.text (f : Figures) : String :=
  "Benchmark results:\n" ++
    "  Batches:           " ++ toString f.batches ++ "\n" ++
    "  Programs:          " ++ toString f.programs ++ "\n" ++
    "  Hit step limit:    " ++ toString f.unfinished ++ "\n" ++
    "  Total steps:       " ++ toString f.totalSteps ++ "\n"

def measure (o : BenchOptions) : Except Failure Exit :=
  match figures source o with
  | .ok f => .ok (.success [] f.text)
  | .error e => .error (.setup e)

end TapeMachine.CommandLine
