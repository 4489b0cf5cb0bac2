import TapeMachine.Instruction

/-!
# Matching brackets

One scan over the code pairs every `[` with its `]`. It keeps the indices of
the loops still open, the innermost first, and fills a table that holds for
each bracket the index of its partner.
-/
namespace TapeMachine

/-- Why a program text is refused; the index counts instructions only. -/
inductive LoadError where
  | unmatchedOpen (index : Nat)
  | unmatchedClose (index : Nat)
  deriving DecidableEq

def LoadError.message : LoadError → String
  | unmatchedOpen index => "unmatched '[' at instruction " ++ toString index
  | unmatchedClose index => "unmatched ']' at instruction " ++ toString index

namespace Brackets

/-- For each instruction the index of the partner bracket, if it is a bracket. -/
abbrev Table := Array (Option Nat)

/-- Enter a pair of partners; `close` is the first index past the table. -/
def Table.close (table : Table) (start close : Nat) : Table :=
  (table.setIfInBounds start (some close)).push (some start)

/-- Continue the scan at index `table.size`, with `opened` the loops still open. -/
def scan : List Instruction → (opened : List Nat) → Table → Except LoadError Table
  | [], [], table => .ok table
  | [], start :: _, _ => .error (.unmatchedOpen start)
  | .loopStart :: code, opened, table => scan code (table.size :: opened) (table.push none)
  | .loopEnd :: _, [], table => .error (.unmatchedClose table.size)
  | .loopEnd :: code, start :: opened, table => scan code opened (table.close start table.size)
  | _ :: code, opened, table => scan code opened (table.push none)

/-- The table of partners of a whole program. A `]` with nothing open is
refused where it stands; loops left open are refused at the innermost. -/
def table (code : List Instruction) : Except LoadError Table :=
  scan code [] #[]

@[simp] theorem size_close (t : Table) (start close : Nat) :
    (t.close start close).size = t.size + 1 := by
  simp [Table.close]

theorem size_of_scan {code : List Instruction} {opened : List Nat} {t u : Table}
    (h : scan code opened t = .ok u) : u.size = t.size + code.length := by
  fun_induction scan code opened t with
  | case1 t => simp_all
  | case2 => simp at h
  | case3 t code opened ih => simp [ih h]; omega
  | case4 => simp at h
  | case5 t code start opened ih => simp [ih h]; omega
  | case6 i code opened t _ _ _ ih => simp [ih h]; omega

theorem size_table {code : List Instruction} {t : Table} (h : table code = .ok t) :
    t.size = code.length := by
  simpa using size_of_scan h

end Brackets

end TapeMachine
