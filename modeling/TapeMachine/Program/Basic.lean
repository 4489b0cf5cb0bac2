import TapeMachine.Text.Bytes
import TapeMachine.Program.Brackets

/-!
# Programs

A program is code whose brackets match, together with the table of partners.
Reading a program text drops every byte that is not an instruction.
-/
namespace TapeMachine

/-- Code whose brackets match. -/
structure Program where
  code : Array Instruction
  partners : Brackets.Table
  table_eq : Brackets.table code.toList = .ok partners

namespace Program

def empty : Program := ⟨#[], #[], rfl⟩

/-- The instructions of a text, everything else left out. -/
def instructions (source : String) : List Instruction :=
  (Text.bytes source).filterMap Instruction.ofByte?

/-- The program of some code, unless its brackets do not match. -/
def ofCode (code : List Instruction) : Except LoadError Program :=
  match h : Brackets.table code with
  | .ok partners => .ok ⟨code.toArray, partners, h⟩
  | .error e => .error e

def ofText (source : String) : Except LoadError Program :=
  ofCode (instructions source)

variable (p : Program)

def size : Nat := p.code.size

def isEmpty : Bool := p.code.isEmpty

def get? (i : Nat) : Option Instruction := p.code[i]?

/-- The partner of the bracket at `i`; nothing past the end or at another instruction. -/
def partner? (i : Nat) : Option Nat := (p.partners[i]?).join

def text : String := Instruction.text p.code.toList

@[ext] theorem ext {p q : Program} (h : p.code = q.code) : p = q := by
  obtain ⟨code, partners, hp⟩ := p
  obtain ⟨code', partners', hq⟩ := q
  obtain rfl : code = code' := h
  obtain rfl : partners = partners' := Except.ok.inj (hp.symm.trans hq)
  rfl

instance : DecidableEq Program := fun p q =>
  decidable_of_iff (p.code = q.code) ⟨ext, congrArg code⟩

theorem ofCode_toList : ofCode p.code.toList = .ok p := by
  unfold ofCode
  split
  · exact congrArg _ (ext (by simp))
  · rename_i e h
    simp [p.table_eq] at h

theorem toList_code_of_ofCode {code : List Instruction} {p : Program} (h : ofCode code = .ok p) :
    p.code.toList = code := by
  unfold ofCode at h
  split at h
  · obtain rfl := Except.ok.inj h
    simp
  · simp at h

theorem ofCode_eq_error_iff {code : List Instruction} {e : LoadError} :
    ofCode code = .error e ↔ Brackets.table code = .error e := by
  unfold ofCode
  split <;> simp_all

theorem size_partners : p.partners.size = p.size := by
  simpa [size] using Brackets.size_table p.table_eq

end Program

end TapeMachine
