import TapeMachine.Text.Numeral
import TapeMachine.Machine.Basic

/-!
# One-line descriptions

A record is described by its name and, in braces, its fields.
-/
namespace TapeMachine

def record (name : String) (fields : List String) : String :=
  name ++ " \x7b " ++ ", ".intercalate fields ++ " \x7d"

def field (name value : String) : String :=
  name ++ ": " ++ value

def flag : Bool → String
  | true => "true"
  | false => "false"

def Phase.name : Phase → String
  | idle => "Idle"
  | running => "Running"
  | halted => "Halted"

def Setup.describe (s : Setup) : String :=
  record "MachineConfig" [
    field "tape_size" (toString s.tapeSize),
    field "io_enabled" (flag s.io)]

def Tape.describe (t : Tape) : String :=
  record "Tape" [
    field "cells" (Text.bracketed (t.cells.toList.map UInt8.toNat)),
    field "pointer" (toString t.pointer)]

/-- The channels that are heard; alarms are not shown. -/
def Listener.describe (l : Listener) : String :=
  record "Hooks" [
    field "step" (flag l.steps),
    field "pointer_shift" (flag l.moves),
    field "value_change" (flag l.changes),
    field "output" (flag l.output)]

/-- The machine without its queues and its listener, which two dots stand for. -/
def Machine.describe (m : Machine) : String :=
  record "Machine" [
    field "config" m.setup.describe,
    field "program" ("\"" ++ m.program.text ++ "\""),
    field "tape" m.store.tape.describe,
    field "pc" (toString m.store.pc),
    field "state" m.phase.name,
    field "steps" (toString m.store.steps.toNat),
    ".."]

end TapeMachine
