import TapeMachine.Verdict
import Mathlib.Tactic

/-!
# What a verdict says

The tape and the targets are rows of independent lengths. Targets that are not given count
as zero, but a cell that is not there matches nothing. So a tape meets its targets exactly
if it has room for all of them and holds them with zeros behind.
-/
namespace TapeMachine

/-- The tape has room for the targets and holds them, with zeros behind. -/
structure Tape.Meets (t : Tape) (targets : List UInt8) : Prop where
  fits : targets.length ≤ t.size
  cells_eq : t.cells.toList = targets ++ List.replicate (t.size - targets.length) 0

instance (t : Tape) (targets : List UInt8) : Decidable (t.Meets targets) :=
  decidable_of_iff (targets.length ≤ t.size ∧
      t.cells.toList = targets ++ List.replicate (t.size - targets.length) 0)
    ⟨fun h => ⟨h.1, h.2⟩, fun h => ⟨h.fits, h.cells_eq⟩⟩

namespace Verdict

variable {t : Tape} {targets : List UInt8} {i size : ℕ}

theorem target_toArray (targets : List UInt8) (i : ℕ) :
    target targets.toArray i = targets.getD i 0 := by
  simp [target, List.getD_eq_getElem?_getD]

theorem getElem?_append_zeros (hfits : targets.length ≤ size) (hi : i < size) :
    (targets ++ List.replicate (size - targets.length) 0)[i]? = some (targets.getD i 0) := by
  rw [List.getD_eq_getElem?_getD]
  by_cases hlt : i < targets.length
  · rw [List.getElem?_append_left hlt, List.getElem?_eq_getElem hlt, Option.getD_some]
  · have hle := Nat.le_of_not_lt hlt
    have hzeros : i - targets.length < size - targets.length := by omega
    rw [List.getElem?_append_right hle, List.getElem?_replicate, if_pos hzeros,
      List.getElem?_eq_none hle, Option.getD_none]

/-- Every cell holds its target, and there are no further targets. -/
theorem missedBy_eq_nil_iff_forall : missedBy t targets.toArray = [] ↔
    ∀ i < max t.size targets.length, t.cells[i]? = some (targets.getD i 0) := by
  simp only [List.eq_nil_iff_forall_not_mem, mem_missedBy, target_toArray, List.size_toArray,
    not_and, not_not]

theorem missedBy_eq_nil_iff : missedBy t targets.toArray = [] ↔ t.Meets targets := by
  rw [missedBy_eq_nil_iff_forall]
  constructor
  · intro h
    have hfits : targets.length ≤ t.size := by
      by_contra hlong
      have hcell := h t.size (lt_max_of_lt_right (Nat.lt_of_not_le hlong))
      rw [Array.getElem?_eq_none t.size_cells.le] at hcell
      cases hcell
    refine ⟨hfits, List.ext_getElem? fun i => ?_⟩
    rw [Array.getElem?_toList]
    by_cases hi : i < t.size
    · rw [h i (lt_max_of_lt_left hi), getElem?_append_zeros hfits hi]
    · have hle := Nat.le_of_not_lt hi
      have hlength : (targets ++ List.replicate (t.size - targets.length) 0).length ≤ i := by
        rw [List.length_append, List.length_replicate]
        omega
      rw [Array.getElem?_eq_none (t.size_cells.le.trans hle), List.getElem?_eq_none hlength]
  · intro h i hi
    rw [max_eq_left h.fits] at hi
    rw [← Array.getElem?_toList, h.cells_eq, getElem?_append_zeros h.fits hi]

theorem getD_append_zero (targets : List UInt8) (i : ℕ) :
    (targets ++ [0]).getD i 0 = targets.getD i 0 := by
  rw [List.getD_eq_getElem?_getD, List.getD_eq_getElem?_getD]
  rcases lt_trichotomy i targets.length with hlt | rfl | hgt
  · rw [List.getElem?_append_left hlt]
  · simp
  · have hlength : (targets ++ [0]).length ≤ i := by simpa using hgt
    rw [List.getElem?_eq_none hlength, List.getElem?_eq_none hgt.le]

theorem missedBy_append_zero (h : targets.length < t.size) :
    missedBy t (targets ++ [0]).toArray = missedBy t targets.toArray := by
  have hmax : max t.size (targets ++ [0]).length = max t.size targets.length := by
    rw [List.length_append, List.length_singleton, max_eq_left h, max_eq_left h.le]
  have hmisses : misses t (targets ++ [0]).toArray = misses t targets.toArray := by
    funext i
    rw [misses_eq, misses_eq, target_toArray, target_toArray, getD_append_zero]
  rw [missedBy_eq, missedBy_eq, List.size_toArray, List.size_toArray, hmax, hmisses]

theorem ofMachine_append_zero {m : Machine} (h : targets.length < m.store.tape.size) :
    ofMachine m (targets ++ [0]) = ofMachine m targets := by
  rw [ofMachine, ofMachine, missedBy_append_zero h]

theorem solved_ofMachine_iff {m : Machine} :
    (ofMachine m targets).solved = true ↔ m.store.tape.Meets targets :=
  List.isEmpty_iff.trans missedBy_eq_nil_iff

/-- A verdict names each miss once and in order: a place of the tape or of the targets where
there is no cell, or one with another value than the target. A challenge is solved exactly
if the targets fit on the tape and it holds them with zeros behind. So another target of
zero changes nothing where the tape has a cell for it, and more targets than cells are
never met. -/
theorem ofMachine_names_misses (m : Machine) (targets : List UInt8) :
    (ofMachine m targets).missed.Pairwise (· < ·) ∧
    (∀ i, i ∈ (ofMachine m targets).missed ↔
      i < max m.store.tape.size targets.length ∧
        (m.store.tape.size ≤ i ∨
          ∃ value, m.store.tape.cells[i]? = some value ∧ value ≠ targets.getD i 0)) ∧
    ((ofMachine m targets).solved = true ↔ m.store.tape.Meets targets) ∧
    (targets.length < m.store.tape.size →
      ofMachine m (targets ++ [0]) = ofMachine m targets) ∧
    (m.store.tape.size < targets.length → (ofMachine m targets).solved = false) := by
  refine ⟨pairwise_missedBy _ _, ?_, solved_ofMachine_iff, ofMachine_append_zero, ?_⟩
  · intro i
    change i ∈ missedBy m.store.tape targets.toArray ↔ _
    rw [mem_missedBy, target_toArray, List.size_toArray]
    refine and_congr_right fun _ => ?_
    cases hcell : m.store.tape.cells[i]? with
    | none => simpa using hcell
    | some value =>
      have hi : ¬ m.store.tape.size ≤ i := by
        have := (Array.getElem?_eq_some_iff.mp hcell).1
        rw [Tape.size_cells] at this
        omega
      simp [hi]
  · intro hlong
    rw [← Bool.not_eq_true, solved_ofMachine_iff]
    intro hmeets
    exact absurd hmeets.fits hlong.not_ge

end Verdict

end TapeMachine
