import TapeMachine.Verdict
import TapeMachine.Machine.Describe
import TapeMachine.Machine.Run
import TapeMachine.Machine.Walk

/-!
# Sessions

A session applies operations to one machine, one after the other. Each answers
with a reply and the events that it caused. A run without end has no answer.
-/
namespace TapeMachine.Session

inductive Operation where
  | load (source : String)
  | start (input : Array UInt8)
  /-- Step so many times, halted or not. -/
  | step (count : Nat)
  | run (input : Array UInt8)
  | runWithin (input : Array UInt8) (limit : UInt64)
  | runPaced (input : Array UInt8) (pace : Pace)
  | cancel
  | requestCancel
  | attach (listener : Listener)
  | judge (targets : List UInt8)
  | showProgram
  | describe

inductive Reply where
  | done
  | loaded
  | refused (error : LoadError)
  | effects (effects : List Effect)
  | ended (outcome : Outcome)
  | verdict (targets : List UInt8) (verdict : Verdict)
  | text (text : String)
  deriving DecidableEq

/-- The machine after an operation, with its reply and events. -/
structure Response where
  machine : Machine
  reply : Reply
  events : List Event
  deriving DecidableEq

namespace Response

/-- An operation that causes no events. -/
def quiet (machine : Machine) (reply : Reply) : Response :=
  ⟨machine, reply, []⟩

def ofEnded (e : Ended) : Response :=
  ⟨e.machine, .ended e.outcome, e.events.toList⟩

end Response

def Operation.apply (m : Machine) : Operation → Option Response
  | load source =>
    match m.load source with
    | .ok loaded => some (.quiet loaded .loaded)
    | .error e => some (.quiet m (.refused e))
  | start input => some (.quiet (m.start input) .done)
  | step count =>
    let walk := m.walk count
    some ⟨walk.machine, .effects walk.effects, walk.events⟩
  | run input => (m.run input).map .ofEnded
  | runWithin input limit => some (.ofEnded (m.runWithin input limit))
  | runPaced input pace => (m.runPaced input pace).map .ofEnded
  | cancel => some (.quiet m.cancel .done)
  | requestCancel => some (.quiet m.requestCancel .done)
  | attach listener => some (.quiet (m.attach listener) (.text listener.describe))
  | judge targets => some (.quiet m (.verdict targets (.ofMachine m targets)))
  | showProgram => some (.quiet m (.text m.program.text))
  | describe => some (.quiet m (.text m.describe))

def applyAll : Machine → List Operation → Option (List Response)
  | _, [] => some []
  | m, operation :: rest => do
    let response ← operation.apply m
    let responses ← applyAll response.machine rest
    return response :: responses

end TapeMachine.Session
