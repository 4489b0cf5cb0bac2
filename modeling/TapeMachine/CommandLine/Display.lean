import TapeMachine.CommandLine.Surroundings
import TapeMachine.CommandLine.TapeLine
import TapeMachine.Machine.Run

/-!
# Plain and displayed runs

A plain run writes its output at the end. A displayed run shows the tape after
each visible instruction and writes each output byte as it comes; it is stopped
by a request for cancellation, both at the limit of its steps and at a byte that
could not be written. Its events are put out step by step and not kept, which
comes to the same as putting out all of them at the end.
-/
namespace TapeMachine.CommandLine

variable (w : Surroundings)

/-- The last line of a run. -/
def report (outcome : Outcome) (steps : UInt64) : String :=
  let count := toString steps.toNat
  match outcome with
  | .completed => "\nhalted after " ++ count ++ " steps\n"
  | .cancelled => "\ncancelled after " ++ count ++ " steps\n"
  | .outOfSteps => "\nstopped at step limit (" ++ count ++ " steps)\n"

/-- The output of a plain run is written at its end. -/
def finishPlain (e : Ended) : Except Failure Exit :=
  let output := e.machine.store.output.toList
  if w.outputFull ∧ output ≠ [] then .error (.access .noSpace)
  else .ok (.success output (report e.outcome e.machine.store.steps))

/-- A displayed run listens to steps and output. It asks for cancellation when
its steps are used up, the first one always granted, and when a byte could not
be written. -/
def display (maxSteps : Option UInt64) : Listener :=
  .ofChannels [.steps, .output] <|
    (maxSteps.map fun limit => ⟨.steps, max 1 limit.toNat⟩).toList ++
      if w.outputFull then [⟨.output, 1⟩] else []

/-- What is shown for an event: a line for a visible instruction, and a warning
for a byte that is lost. -/
def shown : Event → List Char
  | .executed s => if s.instruction.isVisible then tapeLine s ++ ['\n'] else []
  | .wrote _ => w.loss.toList
  | .moved _ | .changed _ _ | .paused _ => []

/-- What is written for an event: each output byte as it comes. -/
def written : Event → List UInt8
  | .wrote byte => [byte]
  | _ => []

structure Screen where
  written : Array UInt8
  shown : String
  deriving DecidableEq

namespace Screen

def blank : Screen := ⟨#[], ""⟩

def add (s : Screen) (e : Event) : Screen where
  written := s.written ++ CommandLine.written e
  shown := s.shown ++ String.ofList (CommandLine.shown w e)

def addAll (s : Screen) (events : Array Event) : Screen :=
  events.foldl (add w) s

end Screen

structure Displayed where
  run : Progress
  screen : Screen
  deriving DecidableEq

namespace Displayed

/-- Put out the events of a run and keep them no longer. -/
def flush (run : Progress) (screen : Screen) : Displayed where
  screen := screen.addAll w run.events
  run := { run with events := #[] }

/-- One step of the run, its events put out at once. -/
@[inline] def step : Displayed → Bool × Displayed
  | { run, screen } =>
    let (ended, run) := run.step
    (ended, flush w run screen)

/-- The bytes on a screen are lost. This is warned of before anything else on the
screen, and the run is asked to cancel. -/
def lose (error : AccessError) (d : Displayed) : Displayed where
  run := d.run.requestCancel
  screen := { d.screen with shown := w.log (.lost error) ++ d.screen.shown }

end Displayed

/-- Run until the machine halts, everything put out on the way. -/
def showRun (m : Machine) (input : Array UInt8) (pace : Pace) : Option (Ended × Screen) :=
  let (ended, s) := inRounds (repeatUntil (Displayed.step w)) ⟨m.launch input pace, .blank⟩
  if ended then some (s.run.finish, s.screen) else none

def finishDisplayed (e : Ended) (screen : Screen) : Exit :=
  .success (if w.outputFull then [] else screen.written.toList)
    (screen.shown ++ report e.outcome e.machine.store.steps)

def RunOptions.setup (o : RunOptions) : Setup :=
  ⟨o.tapeSize, o.io⟩

/-- The run of a loaded machine; `none` if it has no end. -/
def RunOptions.perform (o : RunOptions) (m : Machine) : Option (Except Failure Exit) :=
  let input := Text.queue o.input
  match o.delay, o.maxSteps with
  | some ms, limit =>
    (showRun w (m.attach (display w limit)) input ⟨1000 * ms, none⟩).map fun (e, screen) =>
      .ok (finishDisplayed w e screen)
  | none, some limit => some (finishPlain w (m.runWithin input limit))
  | none, none => (m.run input).map (finishPlain w)

theorem Screen.toList_written_addAll (s : Screen) (events : Array Event) :
    (s.addAll w events).written.toList =
      s.written.toList ++ events.toList.flatMap CommandLine.written := by
  rw [addAll, ← Array.foldl_toList]
  induction events.toList generalizing s with
  | nil => simp
  | cons e es ih => simp [ih, add]

theorem Screen.shown_addAll (s : Screen) (events : Array Event) :
    (s.addAll w events).shown =
      s.shown ++ String.ofList (events.toList.flatMap (CommandLine.shown w)) := by
  rw [addAll, ← Array.foldl_toList]
  induction events.toList generalizing s with
  | nil => simp
  | cons e es ih => simp [ih, add, String.append_assoc]

theorem step_flush (r : Progress) :
    (Displayed.flush w r .blank).step w = (r.step.1, Displayed.flush w r.step.2 .blank) := by
  obtain ⟨machine, pace, events⟩ := r
  simp only [Displayed.step, Displayed.flush, Progress.step]
  cases machine.step.ran with
  | none => simp [Screen.addAll, ← Array.foldl_toList]
  | some i =>
    by_cases h : pace.delay ≠ 0 ∧ i.isVisible = true
    · simp [Progress.pause, h, Screen.addAll, ← Array.foldl_toList]
    · simp [Progress.pause, h, Screen.addAll, ← Array.foldl_toList]

/-- A displayed run ends like any run, and its screen shows the events of that run. -/
theorem showRun_eq (m : Machine) (input : Array UInt8) (pace : Pace) :
    showRun w m input pace =
      (m.runPaced input pace).map fun e =>
        ({ e with events := #[] }, Screen.blank.addAll w e.events) := by
  have h := repeatUntil_imitate (fun _ r => Displayed.flush w r .blank) (step_flush w) UInt64.size
    (m.launch input pace)
  have hlaunch : Displayed.flush w (m.launch input pace) .blank = ⟨m.launch input pace, .blank⟩ :=
    rfl
  rw [hlaunch] at h
  rw [showRun, inRounds_repeatUntil, h, Machine.runPaced_eq, Progress.advance_eq]
  cases (repeatUntil Progress.step UInt64.size (m.launch input pace)).1 <;> rfl

end TapeMachine.CommandLine
