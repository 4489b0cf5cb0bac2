import TapeMachine.Main
import TapeMachine.Session.Operation
import TapeMachine.Proofs.Structure.Run
import TapeMachine.Proofs.Session.Soundness
import TapeMachine.Proofs.Machine.Stepping
import TapeMachine.Proofs.Runs.Budget
import TapeMachine.Proofs.Runs.Agreement
import TapeMachine.Proofs.Runs.Cancellation
import TapeMachine.Proofs.Session.Stopped
import TapeMachine.Proofs.Session.Renewal
import TapeMachine.Proofs.Session.Listening
import TapeMachine.Proofs.Machine.Course
import TapeMachine.Proofs.Runs.Alarms
import TapeMachine.Proofs.CommandLine.RunCommand
import TapeMachine.Proofs.CommandLine.Live
import TapeMachine.Proofs.CommandLine.Modes
import TapeMachine.Proofs.CommandLine.StepLimit
import TapeMachine.Proofs.Text.Characters
import TapeMachine.Proofs.Random.Programs
import TapeMachine.Proofs.Silence.Code
import TapeMachine.Proofs.Silence.Run
import TapeMachine.Proofs.Runs.Lifetime
import TapeMachine.Proofs.Benchmark.Report
import TapeMachine.Proofs.Benchmark.Growth
import TapeMachine.Proofs.CommandLine.BenchCommand
import TapeMachine.Proofs.Session.Erasure
import TapeMachine.Proofs.Runs.Replay
import TapeMachine.Proofs.Runs.Log
import TapeMachine.Proofs.Runs.Reading
import TapeMachine.Proofs.Session.Kept
import TapeMachine.Proofs.Session.Guards
import TapeMachine.Proofs.Text.Comments
import TapeMachine.Proofs.Text.Listing
import TapeMachine.Proofs.Text.TapeLine
import TapeMachine.Proofs.Golf.Command
import TapeMachine.Proofs.CommandLine.Faults
import TapeMachine.Proofs.CommandLine.FullOutput
import TapeMachine.Proofs.CommandLine.LostOutput
import TapeMachine.Proofs.Symmetry.Mirror
import TapeMachine.Proofs.Symmetry.Negation
import TapeMachine.Proofs.Straight.Run
import TapeMachine.Proofs.Session.Idle
