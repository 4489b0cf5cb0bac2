import TapeMachine.Machine.Basic
import TapeMachine.Machine.Repetition

/-!
# Runs

A run steps a machine until it halts. A bounded run also ends when its budget of
instructions is used up; a paced run waits after each visible instruction. All
three repeat one step. The step counter of a machine is a 64-bit word, and a run
that would outlast it has no result. A run that nobody listens to and nothing
can interrupt works on the store alone, which changes nothing but its speed.
-/
namespace TapeMachine

inductive Outcome where
  | completed
  | cancelled
  /-- The budget was used up first; the machine is still running. -/
  | outOfSteps
  deriving DecidableEq

structure Pace where
  /-- The wait after a visible instruction, in microseconds. Zero means no pauses at all. -/
  delay : Nat
  /-- Cancellation is requested in the pause with this number, counted from 1. -/
  cancelAt : Option Nat
  deriving DecidableEq

namespace Pace

def immediate : Pace := ⟨0, none⟩

def afterPause (pace : Pace) : Pace :=
  { pace with cancelAt := pace.cancelAt.map (· - 1) }

end Pace

/-- A machine in the middle of a paced run, with the events reported so far. -/
structure Progress where
  machine : Machine
  pace : Pace
  events : Array Event
  deriving DecidableEq

structure Ended where
  machine : Machine
  outcome : Outcome
  events : Array Event
  deriving DecidableEq

namespace Progress

def requestCancel (r : Progress) : Progress :=
  { r with machine := r.machine.requestCancel }

/-- Wait once, if the pace asks for it, after the instruction `i`. -/
def pause (r : Progress) (i : Instruction) : Progress :=
  if r.pace.delay ≠ 0 ∧ i.isVisible then
    { machine := if r.pace.cancelAt = some 1 then r.machine.requestCancel else r.machine
      pace := r.pace.afterPause
      events := r.events.push (.paused r.pace.delay) }
  else r

/-- Take what a step gives back into the progress of the run. -/
def take (r : Progress) (stepped : Stepped) : Progress where
  machine := stepped.machine
  pace := r.pace
  events := r.events ++ stepped.events

/-- One step and the pause after it. The flag says whether the step found
nothing to run. The progress is taken apart, so that nothing keeps the old
machine and its cells can change in place. -/
@[inline] def step : Progress → Bool × Progress
  | { machine, pace, events } =>
    let stepped := machine.step
    let r := { machine := stepped.machine, pace, events := events ++ stepped.events }
    match stepped.ran with
    | some i => (false, r.pause i)
    | none => (true, r)

/-- Whether nobody listens to the run and nothing can interrupt it. -/
def isQuiet (r : Progress) : Bool :=
  r.machine.phase = .running && !r.machine.cancelRequested && r.machine.listener.isDeaf &&
    r.pace.delay = 0

def advanceQuiet (count : Nat) : Progress → Bool × Progress
  | ⟨⟨setup, program, store, phase, cancelled, cancelRequested, listener⟩, pace, events⟩ =>
    match repeatUntil (Store.step setup.io program) count store with
    | (true, store) =>
      (true, ⟨⟨setup, program, store, .halted, cancelled, cancelRequested, listener⟩, pace, events⟩)
    | (false, store) =>
      (false, ⟨⟨setup, program, store, phase, cancelled, cancelRequested, listener⟩, pace, events⟩)

/-- Step at most `count` times. The flag says whether a step found nothing to run. -/
def advance (count : Nat) (r : Progress) : Bool × Progress :=
  if r.isQuiet then advanceQuiet count r else repeatUntil step count r

theorem step_of_ran {r : Progress} {i : Instruction} (h : r.machine.step.ran = some i) :
    r.step = (false, (r.take r.machine.step).pause i) := by
  simp only [step, h, take]

theorem step_of_halted {r : Progress} (h : r.machine.step.ran = none) :
    r.step = (true, r.take r.machine.step) := by
  simp only [step, h, take]

/-- What a quiet run is when its store has become `s`. -/
def settle (r : Progress) (ended : Bool) (s : Store) : Progress :=
  { r with machine :=
      { r.machine with store := s, phase := if ended then .halted else r.machine.phase } }

theorem settle_false_store (r : Progress) : r.settle false r.machine.store = r := rfl

theorem step_settle {r : Progress} (h : r.isQuiet = true) (s : Store) :
    (r.settle false s).step =
      ((s.step r.machine.setup.io r.machine.program).1,
        r.settle (s.step r.machine.setup.io r.machine.program).1
          (s.step r.machine.setup.io r.machine.program).2) := by
  obtain ⟨⟨setup, program, store, phase, cancelled, cancelRequested, listener⟩, pace, events⟩ := r
  simp only [isQuiet, Bool.and_eq_true, Bool.not_eq_true', decide_eq_true_eq] at h
  obtain ⟨⟨⟨rfl, rfl⟩, hdeaf⟩, hdelay⟩ := h
  cases hi : program.get? s.pc with
  | none => simp [step, settle, Store.step, Machine.step, Machine.heed, Machine.fetch, hi,
      Machine.halt]
  | some i =>
    simp [step, settle, Store.step, Machine.step, Machine.heed, Machine.fetch, hi, Machine.wake,
      Machine.execute, Listener.heard_of_isDeaf hdeaf, pause, hdelay]

theorem advance_eq (count : Nat) (r : Progress) : r.advance count = repeatUntil step count r := by
  unfold advance
  split
  · next h =>
    have himitate := repeatUntil_imitate r.settle (step_settle h) count r.machine.store
    rw [settle_false_store] at himitate
    rw [himitate]
    obtain ⟨⟨setup, program, store, phase, cancelled, cancelRequested, listener⟩, pace, events⟩ := r
    simp only [advanceQuiet]
    split <;> simp_all [settle]
  · rfl

theorem advance_zero (r : Progress) : r.advance 0 = (false, r) := by
  rw [advance_eq, repeatUntil_zero]

theorem advance_succ_of_ran {r : Progress} {i : Instruction} (count : Nat)
    (h : r.machine.step.ran = some i) :
    r.advance (count + 1) = ((r.take r.machine.step).pause i).advance count := by
  rw [advance_eq, advance_eq, repeatUntil_succ_of_not_end count (step_of_ran h)]

theorem advance_succ_of_halted {r : Progress} (count : Nat) (h : r.machine.step.ran = none) :
    r.advance (count + 1) = (true, r.take r.machine.step) := by
  rw [advance_eq, repeatUntil_succ_of_end count (step_of_halted h)]

def halt (r : Progress) : Progress :=
  { r with machine := r.machine.halt }

def finish (r : Progress) : Ended where
  machine := r.machine
  outcome := if r.machine.cancelled then .cancelled else .completed
  events := r.events

end Progress

namespace Machine

def launch (m : Machine) (input : Array UInt8) (pace : Pace) : Progress :=
  ⟨m.start input, pace, #[]⟩

def runPaced (m : Machine) (input : Array UInt8) (pace : Pace) : Option Ended :=
  let (halted, r) := inRounds Progress.advance (m.launch input pace)
  if halted then some r.finish else none

def run (m : Machine) (input : Array UInt8) : Option Ended :=
  m.runPaced input .immediate

/-- Run, but execute at most `limit` instructions. The last of them may have
been the last of the program, which also completes the run. -/
def runWithin (m : Machine) (input : Array UInt8) (limit : UInt64) : Ended :=
  let (halted, r) := (m.launch input .immediate).advance limit.toNat
  if halted then r.finish
  else if r.machine.program.size ≤ r.machine.store.pc then r.halt.finish
  else { machine := r.machine, outcome := .outOfSteps, events := r.events }

/-- A run takes at most as many steps as a 64-bit word can count. -/
theorem runPaced_eq (m : Machine) (input : Array UInt8) (pace : Pace) :
    m.runPaced input pace =
      if ((m.launch input pace).advance UInt64.size).1 then
        some ((m.launch input pace).advance UInt64.size).2.finish
      else none := by
  have h : (Progress.advance : Nat → Progress → Bool × Progress) = repeatUntil Progress.step := by
    funext count r
    exact Progress.advance_eq count r
  rw [runPaced, h, inRounds_repeatUntil]

theorem runPaced_eq_some_iff {m : Machine} {input : Array UInt8} {pace : Pace} {e : Ended} :
    m.runPaced input pace = some e ↔
      ((m.launch input pace).advance UInt64.size).1 = true ∧
        ((m.launch input pace).advance UInt64.size).2.finish = e := by
  rw [runPaced_eq, Option.ite_none_right_eq_some, Option.some.injEq]

end Machine

end TapeMachine
