import TapeMachine.Tape
import TapeMachine.Program.Basic
import TapeMachine.Machine.Event

/-!
# Executing one instruction

The store is the part of a machine that instructions read and change. How an
instruction changes it depends on the program only through bracket partners.
-/
namespace TapeMachine

/-- Memory, queues and counters of a run. -/
structure Store where
  tape : Tape
  /-- The index of the next instruction. -/
  pc : Nat
  /-- The bytes not read yet; the last one is read next. -/
  input : Array UInt8
  output : Array UInt8
  /-- Executed instructions, counted in a 64-bit word. -/
  steps : UInt64
  deriving DecidableEq

namespace Store

def initial (tape : Tape) (input : Array UInt8) : Store :=
  ⟨tape, 0, input, #[], 0⟩

/-- Go on at the bracket `target`. -/
@[inline] def jump (s : Store) (target : Nat) : Effect × Store :=
  (.jumped s.pc target, { s with pc := target })

/-- What an instruction does, short of going on to the next one. An input that
is used up reads as zero; without input and output `.` and `,` do nothing.
`partner` is the matching bracket. -/
@[inline] def perform (s : Store) (io : Bool) (partner : Nat) : Instruction → Effect × Store
  | .moveRight =>
    let tape := s.tape.moveRight
    (.moved tape.pointer, { s with tape })
  | .moveLeft =>
    let tape := s.tape.moveLeft
    (.moved tape.pointer, { s with tape })
  | .increment =>
    let tape := s.tape.increment
    (.changed tape.pointer tape.current, { s with tape })
  | .decrement =>
    let tape := s.tape.decrement
    (.changed tape.pointer tape.current, { s with tape })
  | .write =>
    if io then
      let byte := s.tape.current
      (.wrote byte, { s with output := s.output.push byte })
    else (.ignored, s)
  | .read =>
    if io then
      let byte := s.input.back?.getD 0
      (.read byte, { s with tape := s.tape.store byte, input := s.input.pop })
    else (.ignored, s)
  | .loopStart => if s.tape.current = 0 then s.jump partner else (.passed, s)
  | .loopEnd => if s.tape.current ≠ 0 then s.jump partner else (.passed, s)

/-- Go on to the next instruction. -/
@[inline] def proceed (s : Store) : Store :=
  { s with pc := s.pc + 1, steps := s.steps + 1 }

@[inline] def execute (s : Store) (io : Bool) (program : Program) (i : Instruction) :
    Effect × Store :=
  let (effect, s) := s.perform io ((program.partner? s.pc).getD s.pc) i
  (effect, s.proceed)

/-- Execute the instruction at the program counter. The flag says whether there was none. -/
@[inline] def step (io : Bool) (program : Program) (s : Store) : Bool × Store :=
  match program.get? s.pc with
  | some i => (false, (s.execute io program i).2)
  | none => (true, s)

/-- The store as a listener sees it after the instruction at `index`. -/
@[inline] def snapshot (s : Store) (index : Nat) (i : Instruction) (effect : Effect) :
    Snapshot where
  index := index
  instruction := i
  effect := effect
  tape := s.tape
  output := s.output

theorem perform_ne_halted (s : Store) (io : Bool) (partner : Nat) (i : Instruction) :
    (s.perform io partner i).1 ≠ .halted := by
  cases i <;> simp only [perform] <;> (try split) <;> simp [jump]

theorem execute_ne_halted (s : Store) (io : Bool) (p : Program) (i : Instruction) :
    (s.execute io p i).1 ≠ .halted :=
  s.perform_ne_halted io _ i

end Store

end TapeMachine
