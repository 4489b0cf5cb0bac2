import TapeMachine.CommandLine.Execute

/-!
# The program

Reads what a command asks for, executes it and delivers what it leaves behind.
A displayed run is delivered while it goes on, with its pauses.
-/
namespace TapeMachine.CommandLine

/-- What the number of a system error says. The number may come negated. -/
def AccessError.ofNumber? (n : UInt32) : Option AccessError :=
  match min n (0 - n) with
  | 2 => some .notFound
  | 20 => some .notDirectory
  | 21 => some .isDirectory
  | 28 => some .noSpace
  | 36 => some .nameTooLong
  | _ => none

def accessError (e : IO.Error) : AccessError :=
  let known := match e with
    | .noFileOrDirectory _ n _ => AccessError.ofNumber? n
    | .inappropriateType _ n _ => AccessError.ofNumber? n
    | .invalidArgument _ n _ => AccessError.ofNumber? n
    | .resourceExhausted _ n _ => AccessError.ofNumber? n
    | _ => none
  known.getD (.other (toString e))

/-- Read what a source needs and nothing else. -/
def gather (source : Option Source) : IO Surroundings := do
  let standardInput ← match source with
    | some .standardInput => do
      let bytes ← (← IO.getStdin).readBinToEnd
      pure bytes.toList
    | _ => pure []
  let file ← match source with
    | some (.file name) =>
      try
        let bytes ← IO.FS.readBinFile name
        pure (.ok bytes.toList)
      catch e => pure (.error (accessError e))
    | _ => pure (.error .notFound)
  return { open? := fun _ => file, standardInput, outputFull := false, log := Warning.line }

def Command.source? : Command → Option Source
  | .run o => some o.source
  | .golf o => some o.source
  | .check source => some source
  | .bench _ => none

/-- Write bytes through to the standard output. -/
def deliver (bytes : List UInt8) : IO Unit := do
  unless bytes.isEmpty do
    let output ← IO.getStdout
    output.write bytes.toByteArray
    output.flush

/-- Print the diagnostics of a command and end with its code. -/
def conclude (e : Exit) : IO UInt32 := do
  IO.eprint e.diagnostics
  return e.code

/-- The exit of a command whose output was not taken. -/
def Command.lost (w : Surroundings) (error : AccessError) : Command → Option Exit
  | .run _ => some (.failure (.access error))
  | command => command.execute { w with outputFull := true }

/-- Execute a command that writes its output at the end. -/
def perform (w : Surroundings) (command : Command) : IO UInt32 := do
  match command.execute w with
  | none => return 1
  | some e =>
    try
      deliver e.output
      conclude e
    catch error =>
      match command.lost w (accessError error) with
      | some e => conclude e
      | none => return 1

/-- Go on with a displayed run until it ends. Each step is put out on a screen of
its own, which is delivered at once; output that is not taken cancels the run. -/
partial def follow (w : Surroundings) (delay : Nat) (r : Progress) : IO Ended := do
  let (halted, step) := Displayed.step w ⟨r, .blank⟩
  let step ← try
      deliver step.screen.written.toList
      pure step
    catch error => pure (step.lose w (accessError error))
  IO.eprint step.screen.shown
  unless step.screen.shown.isEmpty do
    IO.sleep (min delay (UInt32.size - 1)).toUInt32
  if halted then return step.run.finish else follow w delay step.run

/-- Execute a displayed run. -/
def RunOptions.play (o : RunOptions) (w : Surroundings) (delay : Nat) : IO UInt32 := do
  match prepare w o.source o.setup with
  | .error f => conclude (refuse w f)
  | .ok m =>
    let m := m.attach (display w o.maxSteps)
    let e ← follow w delay (m.launch (Text.queue o.input) ⟨1000 * delay, none⟩)
    IO.eprint (report e.outcome e.machine.store.steps)
    return 0

def start (words : List String) : IO UInt32 := do
  match Command.ofWords? words with
  | none =>
    IO.eprintln "usage: run | golf | check | bench, with their options"
    return Exit.refused.code
  | some command =>
    let w ← gather command.source?
    match command with
    | .run o =>
      match o.delay with
      | some delay => o.play w delay
      | none => perform w command
    | _ => perform w command

end TapeMachine.CommandLine

def main (words : List String) : IO UInt32 :=
  TapeMachine.CommandLine.start words
