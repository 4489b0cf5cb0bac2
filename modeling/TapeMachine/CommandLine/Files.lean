/-!
# Files

Files lie in folders, and a path leads from one to the next by the names between
its slashes. An empty name and `.` stay in the folder and `..` leaves it, so
whatever is followed by a slash has to be a folder.
-/
namespace TapeMachine.CommandLine

inductive AccessError where
  | notFound
  | notDirectory
  | isDirectory
  | nameTooLong
  | invalidText
  | noSpace
  | other (text : String)
  deriving DecidableEq

def AccessError.message : AccessError → String
  | notFound => "No such file or directory (os error 2)"
  | notDirectory => "Not a directory (os error 20)"
  | isDirectory => "Is a directory (os error 21)"
  | nameTooLong => "File name too long (os error 36)"
  | invalidText => "stream did not contain valid UTF-8"
  | noSpace => "No space left on device (os error 28)"
  | other text => text

inductive Entry where
  | file (bytes : List UInt8)
  | folder (entries : List (String × Entry))

/-- An entry with the folders around it, the nearest first. -/
structure Place where
  entry : Entry
  around : List Entry

namespace Place

def nameLimit : Nat := 255

def pathLimit : Nat := 4095

variable (p : Place)

/-- The folder around a place. The outermost one has none but itself. -/
def outside : Place :=
  match p.around with
  | [] => p
  | entry :: around => ⟨entry, around⟩

def outermost : Place := ⟨p.around.getLast?.getD p.entry, []⟩

/-- Go on from a folder by one name of a path. -/
def enter (name : String) : Except AccessError Place :=
  match p.entry with
  | .file _ => .error .notDirectory
  | .folder entries =>
    if name = "" ∨ name = "." then .ok p
    else if name = ".." then .ok p.outside
    else if nameLimit < name.utf8ByteSize then .error .nameTooLong
    else match entries.lookup name with
      | some entry => .ok ⟨entry, p.entry :: p.around⟩
      | none => .error .notFound

/-- Where a path leads. One that begins with a slash starts from the outermost folder. -/
def follow (path : String) : Except AccessError Place :=
  if path = "" then .error .notFound
  else if pathLimit < path.utf8ByteSize then .error .nameTooLong
  else
    let start := if path.toList.head? = some '/' then p.outermost else p
    ((path.toList.splitOn '/').map String.ofList).foldlM enter start

def read (path : String) : Except AccessError (List UInt8) := do
  match (← p.follow path).entry with
  | .file bytes => return bytes
  | .folder _ => throw .isDirectory

end Place

end TapeMachine.CommandLine
