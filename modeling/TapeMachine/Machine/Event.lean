import TapeMachine.Instruction
import TapeMachine.Tape

/-!
# Effects and events

Each step of a machine has one effect. An executed instruction is reported as
events: first one for its kind, if its kind has one, then one for its execution.
-/
namespace TapeMachine

inductive Effect where
  /-- `>` or `<` ran; the new pointer. -/
  | moved (pointer : Nat)
  /-- `+` or `-` ran; the pointer and the new value of its cell. -/
  | changed (pointer : Nat) (value : UInt8)
  /-- `.` appended a byte to the output. -/
  | wrote (byte : UInt8)
  /-- `,` stored a byte, zero if the input was used up. -/
  | read (byte : UInt8)
  /-- A bracket jumped to its partner; the next instruction is the one after that. -/
  | jumped (source target : Nat)
  /-- A bracket whose condition did not hold. -/
  | passed
  /-- `.` or `,` without input and output. -/
  | ignored
  /-- No instruction ran. -/
  | halted
  deriving DecidableEq

/-- An instruction that ran, with the tape and the output right after it. -/
structure Snapshot where
  index : Nat
  instruction : Instruction
  effect : Effect
  tape : Tape
  output : Array UInt8
  deriving DecidableEq

inductive Event where
  | moved (pointer : Nat)
  | changed (pointer : Nat) (value : UInt8)
  | wrote (byte : UInt8)
  | executed (snapshot : Snapshot)
  /-- A paced run waited, for so many microseconds. -/
  | paused (delay : Nat)
  deriving DecidableEq

inductive Channel where
  | moves
  | changes
  | output
  | steps
  deriving DecidableEq

/-- The channel of an event; a pause is on none. -/
@[inline] def Event.channel? : Event → Option Channel
  | moved _ => some .moves
  | changed _ _ => some .changes
  | wrote _ => some .output
  | executed _ => some .steps
  | paused _ => none

/-- The event for the kind of the instruction, if there is one. -/
@[inline] def Effect.event? : Effect → Option Event
  | moved pointer => some (.moved pointer)
  | changed pointer value => some (.changed pointer value)
  | wrote byte => some (.wrote byte)
  | _ => none

def Snapshot.events (s : Snapshot) : List Event :=
  s.effect.event?.toList ++ [.executed s]

end TapeMachine
