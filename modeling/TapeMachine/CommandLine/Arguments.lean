/-!
# Command line words

The words after a subcommand are options with a value, flags and operands. A
value is written after `=` or as the next word, which may then start with `-`
only if it is `-` itself. After `--` every word is an operand. Words that break
these rules are refused.
-/
namespace TapeMachine.CommandLine

/-- The names that a subcommand knows, without their dashes. -/
structure Vocabulary where
  options : List String
  flags : List String

/-- What was given, each kind in the order of the words. -/
structure Given where
  options : List (String × String)
  flags : List String
  operands : List String

inductive Word where
  | operand
  | endOfOptions
  /-- A name after two dashes, with the value after its `=` if it has one. -/
  | named (name : String) (value : Option String)
  /-- One dash and more, which nothing is called. -/
  | short

namespace Word

def ofChars : List Char → Word
  | ['-', '-'] => .endOfOptions
  | '-' :: '-' :: cs =>
    let name := String.ofList (cs.takeWhile (· ≠ '='))
    match cs.dropWhile (· ≠ '=') with
    | [] => .named name none
    | _ :: value => .named name (some (String.ofList value))
  | '-' :: _ :: _ => .short
  | _ => .operand

def ofString (s : String) : Word := ofChars s.toList

/-- Whether a word can be the value of the option before it. -/
def canBeValue (s : String) : Bool :=
  match ofString s with
  | .operand => true
  | _ => false

end Word

namespace Given

def empty : Given := ⟨[], [], []⟩

def ofOperands (operands : List String) : Given := ⟨[], [], operands⟩

def addOption (g : Given) (name value : String) : Given :=
  { g with options := (name, value) :: g.options }

def addFlag (g : Given) (name : String) : Given :=
  { g with flags := name :: g.flags }

def addOperand (g : Given) (operand : String) : Given :=
  { g with operands := operand :: g.operands }

/-- Sort words into options, flags and operands. -/
def ofWords (v : Vocabulary) : List String → Option Given
  | [] => some empty
  | word :: words =>
    match Word.ofString word with
    | .operand => (ofWords v words).map (·.addOperand word)
    | .endOfOptions => some (ofOperands words)
    | .short => none
    | .named name (some value) =>
      if v.options.contains name then (ofWords v words).map (·.addOption name value) else none
    | .named name none =>
      if v.flags.contains name then (ofWords v words).map (·.addFlag name)
      else if v.options.contains name then
        match words with
        | value :: words =>
          if Word.canBeValue value then (ofWords v words).map (·.addOption name value) else none
        | [] => none
      else none

def values (g : Given) (name : String) : List String :=
  (g.options.filter (·.1 = name)).map Prod.snd

/-- The value of an option that may be given once: refused if given more often. -/
def once (g : Given) (name : String) : Option (Option String) :=
  match g.values name with
  | [] => some none
  | [value] => some (some value)
  | _ => none

def flag (g : Given) (name : String) : Option Bool :=
  match g.flags.filter (· = name) with
  | [] => some false
  | [_] => some true
  | _ => none

end Given

end TapeMachine.CommandLine
