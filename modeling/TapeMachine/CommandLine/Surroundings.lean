import TapeMachine.CommandLine.Command
import TapeMachine.CommandLine.Exit
import TapeMachine.Machine.Basic

/-!
# Surroundings

What a command does is a function of its surroundings: the files, the standard
input, whether the standard output takes anything, and the log, which writes
among the diagnostics of a command. Commands tell the log of a program that they
cannot load and of a byte that is lost. What else could be logged of a run is
below the level of a warning and left out, and so are allocations that fail.
-/
namespace TapeMachine.CommandLine

inductive Warning where
  /-- A machine was given a text that is no program. -/
  | rejected (error : LoadError)
  /-- A displayed run could not write a byte. -/
  | lost (error : AccessError)
  deriving DecidableEq

/-- A warning as a line of a log that tells no time. -/
def Warning.line : Warning → String
  | rejected error => "WARN rejected program error=" ++ error.message ++ "\n"
  | lost error => "WARN output write failed, cancelling run error=" ++ error.message ++ "\n"

structure Surroundings where
  open? : String → Except AccessError (List UInt8)
  standardInput : List UInt8
  /-- Nothing can be written to the standard output. -/
  outputFull : Bool
  /-- What the log writes for a warning, nothing if it lets none through. A
  command warns at most once, so its text may tell the time. -/
  log : Warning → String

/-- The folders at the top of every system of which nothing more is known. -/
def plainFolders : List String :=
  ["bin", "boot", "etc", "home", "lib", "media", "mnt", "opt", "root", "run", "sbin", "srv", "sys",
    "tmp", "usr", "var"]

/-- The top of a system: its plain folders, its devices, of which the empty one
and the standard input can be read, and what a command sees of itself. -/
def systemFolder (here : Entry) (standardInput : List UInt8) : Entry :=
  let descriptors := .folder [("0", .file standardInput)]
  let devices := .folder
    [("null", .file []), ("stdin", .file standardInput), ("fd", descriptors),
      ("mqueue", .folder []), ("pts", .folder []), ("shm", .folder [])]
  let processes := .folder [("self", .folder [("cwd", here), ("fd", descriptors)])]
  .folder (("dev", devices) :: ("proc", processes) :: plainFolders.map (·, .folder []))

/-- The surroundings in a folder that holds some files, two folders below the top
of a system, with a silent log. -/
def Surroundings.ofFiles (files : List (String × List UInt8)) (standardInput : List UInt8)
    (outputFull : Bool) : Surroundings :=
  let here := .folder (files.map fun f => (f.1, .file f.2))
  { open? := Place.read ⟨here, [.folder [], systemFolder here standardInput]⟩
    standardInput
    outputFull
    log := fun _ => "" }

variable (w : Surroundings)

/-- What the log writes when a program cannot be had for a machine. -/
def Surroundings.logged : Failure → String
  | .program error => w.log (.rejected error)
  | .access _ | .setup _ => ""

/-- What the log writes when a displayed run puts out a byte. -/
def Surroundings.loss : String :=
  if w.outputFull then w.log (.lost .noSpace) else ""

def readSource : Source → Except Failure String
  | .inline code => .ok code
  | .file name => (w.open? name).mapError .access >>= text
  | .standardInput => text w.standardInput
where
  text (bytes : List UInt8) : Except Failure String :=
    match Text.ofBytes? bytes with
    | some s => .ok s
    | none => .error (.access .invalidText)

/-- A loaded machine. Of several things that are wrong the source comes first,
then the setup, then the program. -/
def prepare (source : Source) (setup : Setup) : Except Failure Machine := do
  let text ← readSource w source
  let m ← (Machine.ofSetup setup).mapError .setup
  (m.load text).mapError .program

end TapeMachine.CommandLine
