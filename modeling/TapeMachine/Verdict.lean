import TapeMachine.Machine.Basic

/-!
# Golf verdicts

A golf challenge gives target values for the first cells and wants every other
cell zero. The verdict looks at the tape as it is, whether or not a run has ended.
-/
namespace TapeMachine

structure Verdict where
  solved : Bool
  /-- The cells that miss their targets, in increasing order. -/
  missed : List Nat
  programSize : Nat
  deriving DecidableEq

namespace Verdict

/-- The target of a cell, zero where none is given. -/
def target (targets : Array UInt8) (i : Nat) : UInt8 :=
  targets.getD i 0

/-- Whether the cell at `i` is not there or differs from its target. -/
@[inline] def misses (t : Tape) (targets : Array UInt8) (i : Nat) : Bool :=
  if h : i < t.bytes.size then t.bytes[i] ≠ target targets i else true

/-- The misses below `bound`, put before those in `above`. -/
def missesBelow (t : Tape) (targets : Array UInt8) : (bound : Nat) → (above : List Nat) → List Nat
  | 0, above => above
  | i + 1, above => missesBelow t targets i (if misses t targets i then i :: above else above)

/-- The indices at which a tape misses its targets. A target past the end of
the tape is always missed. -/
def missedBy (t : Tape) (targets : Array UInt8) : List Nat :=
  missesBelow t targets (max t.size targets.size) []

def ofMachine (m : Machine) (targets : List UInt8) : Verdict :=
  let missed := missedBy m.store.tape targets.toArray
  { solved := missed.isEmpty, missed, programSize := m.program.size }

theorem misses_eq (t : Tape) (targets : Array UInt8) (i : Nat) :
    misses t targets i = decide (t.cells[i]? ≠ some (target targets i)) := by
  unfold misses
  split
  · next h =>
    have hi : t.cells[i]? = some t.bytes[i] := Array.getElem?_eq_getElem h
    simp [hi]
  · next h =>
    have hi : t.cells[i]? = none := Array.getElem?_eq_none (Nat.le_of_not_lt h)
    simp [hi]

theorem missesBelow_eq (t : Tape) (targets : Array UInt8) (bound : Nat) (above : List Nat) :
    missesBelow t targets bound above =
      (List.range bound).filter (misses t targets) ++ above := by
  induction bound generalizing above with
  | zero => rfl
  | succ i ih =>
    rw [missesBelow, ih, List.range_succ, List.filter_append, List.append_assoc]
    cases h : misses t targets i <;> simp [h]

theorem missedBy_eq (t : Tape) (targets : Array UInt8) :
    missedBy t targets = (List.range (max t.size targets.size)).filter (misses t targets) := by
  rw [missedBy, missesBelow_eq, List.append_nil]

theorem mem_missedBy {t : Tape} {targets : Array UInt8} {i : Nat} :
    i ∈ missedBy t targets ↔
      i < max t.size targets.size ∧ t.cells[i]? ≠ some (target targets i) := by
  simp [missedBy_eq, misses_eq]

theorem pairwise_missedBy (t : Tape) (targets : Array UInt8) :
    (missedBy t targets).Pairwise (· < ·) := by
  rw [missedBy_eq]
  exact List.pairwise_lt_range.filter _

end Verdict

end TapeMachine
