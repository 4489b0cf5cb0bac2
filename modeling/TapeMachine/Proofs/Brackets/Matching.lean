import TapeMachine.Program.Basic
import TapeMachine.Proofs.Brackets.Scan

/-!
# Which texts are programs

A text is a program exactly when its brackets balance. Otherwise the error says
which bracket lacks a partner. In a program the table of partners holds exactly
the pairs of brackets.
-/
namespace TapeMachine.Brackets

/-- `i` is the first place up to which more loops are closed than opened. -/
def FirstExcess (code : List Instruction) (i : ℕ) : Prop :=
  IsLeast {k | k < code.length ∧
    (code.take (k + 1)).count .loopStart < (code.take (k + 1)).count .loopEnd} i

/-- Every `]` has a partner and `i` is the last `[` without one. -/
structure LastOpen (code : List Instruction) (i : ℕ) : Prop where
  covered : Covered code
  start : code[i]? = some .loopStart
  rest : Balanced (code.drop (i + 1))

variable {code done rest : List Instruction} {opened : List ℕ} {i j k : ℕ} {t : Table}

theorem firstExcess_iff :
    FirstExcess code i ↔ IsLeast {k | k < code.length ∧ depth code (k + 1) < 0} i := by
  have hset : ∀ k, (code.take (k + 1)).count .loopStart < (code.take (k + 1)).count .loopEnd ↔
      depth code (k + 1) < 0 := by
    intro k
    rw [depth]
    omega
  simp only [FirstExcess, hset]

theorem FirstExcess.balanced_take (h : FirstExcess code i) : Balanced (code.take i) := by
  obtain ⟨⟨hlen, hexcess⟩, hleast⟩ := firstExcess_iff.mp h
  have hcovered : ∀ k ≤ i, 0 ≤ depth code k := by
    intro k hk
    cases k with
    | zero => exact (depth_zero code).ge
    | succ k =>
      by_contra hneg
      have := hleast ⟨show k < code.length by omega, by omega⟩
      omega
  have hbelow := hcovered i le_rfl
  have hstep := depth_le_depth_succ code i
  have hextract : code.take i = code.extract 0 i := by simp
  rw [hextract, balanced_extract_iff (Nat.zero_le i) hlen.le, depth_zero]
  refine ⟨by omega, ?_⟩
  intro k _ hk
  exact hcovered k hk

theorem FirstExcess.not_covered (h : FirstExcess code i) : ¬ Covered code := by
  intro hcovered
  have := covered_iff.mp hcovered (i + 1)
  have := (firstExcess_iff.mp h).1.2
  omega

theorem LastOpen.depth_eq (h : LastOpen code i) :
    depth code code.length = depth code i + 1 ∧
      ∀ k, i < k → k ≤ code.length → depth code i < depth code k := by
  obtain ⟨hlen, -⟩ := List.getElem?_eq_some_iff.mp h.start
  have hstart := depth_succ h.start
  have hrest := (balanced_drop_iff (i := i + 1) hlen).mp h.rest
  rw [rise] at hstart
  refine ⟨by omega, ?_⟩
  intro k hik hk
  have := hrest.2 k hik hk
  omega

theorem LastOpen.not_balanced (h : LastOpen code i) : ¬ Balanced code := by
  intro hbalanced
  have := level_iff.mp hbalanced.level
  have := covered_iff.mp h.covered i
  have := h.depth_eq.1
  omega

theorem LastOpen.unique (hi : LastOpen code i) (hj : LastOpen code j) : i = j := by
  obtain ⟨hilen, -⟩ := List.getElem?_eq_some_iff.mp hi.start
  obtain ⟨hjlen, -⟩ := List.getElem?_eq_some_iff.mp hj.start
  obtain ⟨hi, hi'⟩ := hi.depth_eq
  obtain ⟨hj, hj'⟩ := hj.depth_eq
  rcases Nat.lt_trichotomy i j with hlt | heq | hlt
  · have := hi' j hlt hjlen.le
    omega
  · exact heq
  · have := hj' i hlt hilen.le
    omega

/-! ### Results of the scan -/

theorem Scanned.balanced (h : Scanned code [] t) : Balanced code :=
  ⟨h.pending.covered, level_iff.mpr h.pending.1⟩

theorem Scanned.lastOpen (h : Scanned code (i :: opened) t) : LastOpen code i := by
  obtain ⟨hlt, hstart, hdepth, hinside, -⟩ := h.pending
  have hrise := depth_succ hstart
  rw [rise] at hrise
  refine ⟨h.pending.covered, hstart, (balanced_drop_iff (i := i + 1) hlt).mpr ⟨by omega, ?_⟩⟩
  intro k hik hk
  have := hinside k hik hk
  omega

theorem Scanned.firstExcess (h : Scanned done [] t) :
    FirstExcess (done ++ .loopEnd :: rest) t.size := by
  have hcovered := covered_iff.mp h.balanced.covered
  have hlevel := level_iff.mp h.balanced.level
  rw [firstExcess_iff, h.size]
  constructor
  · refine ⟨by simp, ?_⟩
    rw [depth_append, depth_cons, depth_zero, hlevel]
    decide
  · rintro k ⟨-, hk⟩
    by_contra hlt
    rw [depth_append_of_le _ (by omega)] at hk
    have := hcovered (k + 1)
    omega

theorem balanced_of_table_eq_ok (h : table code = .ok t) : Balanced code := by
  have hscan := outcome_table code
  rw [h] at hscan
  cases hscan with
  | matched hscanned => exact hscanned.balanced

theorem lastOpen_of_table_eq_error (h : table code = .error (.unmatchedOpen i)) :
    LastOpen code i := by
  have hscan := outcome_table code
  rw [h] at hscan
  cases hscan with
  | unmatchedOpen hscanned => exact hscanned.lastOpen

theorem firstExcess_of_table_eq_error (h : table code = .error (.unmatchedClose i)) :
    FirstExcess code i := by
  have hscan := outcome_table code
  rw [h] at hscan
  cases hscan with
  | unmatchedClose hcode hdone =>
    rw [hcode]
    exact hdone.firstExcess

theorem exists_table_eq_ok_iff : (∃ t, table code = .ok t) ↔ Balanced code := by
  constructor
  · rintro ⟨t, ht⟩
    exact balanced_of_table_eq_ok ht
  · intro h
    cases ht : table code with
    | ok t => exact ⟨t, rfl⟩
    | error e =>
      cases e with
      | unmatchedOpen i => exact absurd h (lastOpen_of_table_eq_error ht).not_balanced
      | unmatchedClose i => exact absurd h.covered (firstExcess_of_table_eq_error ht).not_covered

theorem table_eq_unmatchedClose_iff :
    table code = .error (.unmatchedClose i) ↔ FirstExcess code i := by
  constructor
  · exact firstExcess_of_table_eq_error
  · intro h
    cases ht : table code with
    | ok t => exact absurd (balanced_of_table_eq_ok ht).covered h.not_covered
    | error e =>
      cases e with
      | unmatchedOpen j => exact absurd (lastOpen_of_table_eq_error ht).covered h.not_covered
      | unmatchedClose j => rw [(firstExcess_of_table_eq_error ht).unique h]

theorem table_eq_unmatchedOpen_iff :
    table code = .error (.unmatchedOpen i) ↔ LastOpen code i := by
  constructor
  · exact lastOpen_of_table_eq_error
  · intro h
    cases ht : table code with
    | ok t => exact absurd (balanced_of_table_eq_ok ht) h.not_balanced
    | error e =>
      cases e with
      | unmatchedOpen j => rw [(lastOpen_of_table_eq_error ht).unique h]
      | unmatchedClose j => exact absurd h.covered (firstExcess_of_table_eq_error ht).not_covered

/-- All later `[` have a partner, but the last open one has none. -/
theorem LastOpen.partners (h : LastOpen code i) :
    (∀ j, ¬ Pair code i j) ∧ ∀ k, i < k → code[k]? = some .loopStart → ∃ j, Pair code k j := by
  have htable := table_eq_unmatchedOpen_iff.mpr h
  have hscan := outcome_table code
  rw [htable] at hscan
  cases hscan with
  | unmatchedOpen hscanned =>
    refine ⟨hscanned.pending.not_pair, ?_⟩
    intro k hik hk
    rcases hscanned.complete k _ hk rfl with hmem | ⟨j, hj | hj⟩
    · have := hscanned.pending.le_of_mem hmem
      omega
    · exact ⟨j, hj⟩
    · have := hj.stop.symm.trans hk
      simp at this

end TapeMachine.Brackets

namespace TapeMachine.Program

open Brackets

theorem exists_ofCode_eq_ok_iff {code : List Instruction} :
    (∃ p, ofCode code = .ok p) ↔ Balanced code := by
  rw [← exists_table_eq_ok_iff]
  constructor
  · rintro ⟨p, hp⟩
    refine ⟨p.partners, ?_⟩
    rw [← toList_code_of_ofCode hp]
    exact p.table_eq
  · rintro ⟨t, ht⟩
    cases hp : ofCode code with
    | ok p => exact ⟨p, rfl⟩
    | error e =>
      rw [ofCode_eq_error_iff, ht] at hp
      simp at hp

/-- A text is a program when its brackets balance; else it is refused at the first
`]` without a partner, or, when every `]` has one, at the last `[` without. -/
theorem ofText_trichotomy (source : String) :
    ((∃ p, ofText source = .ok p) ↔ Balanced (instructions source)) ∧
    (∀ i, ofText source = .error (.unmatchedClose i) ↔ FirstExcess (instructions source) i) ∧
    (∀ i, FirstExcess (instructions source) i → Balanced ((instructions source).take i)) ∧
    (∀ i, ofText source = .error (.unmatchedOpen i) ↔ LastOpen (instructions source) i) ∧
    (∀ i, LastOpen (instructions source) i →
      (∀ j, ¬ Pair (instructions source) i j) ∧
        ∀ k, i < k → (instructions source)[k]? = some .loopStart →
          ∃ j, Pair (instructions source) k j) ∧
    (∀ i j, LastOpen (instructions source) i → LastOpen (instructions source) j → i = j) ∧
    (Balanced (instructions source) ∨ (∃ i, FirstExcess (instructions source) i) ∨
      ∃ i, LastOpen (instructions source) i) ∧
    ¬ (Balanced (instructions source) ∧ ∃ i, FirstExcess (instructions source) i) ∧
    ¬ (Balanced (instructions source) ∧ ∃ i, LastOpen (instructions source) i) ∧
    ¬ ((∃ i, FirstExcess (instructions source) i) ∧ ∃ i, LastOpen (instructions source) i) := by
  refine ⟨exists_ofCode_eq_ok_iff, ?_, ?_, ?_, ?_, ?_, ?_, ?_, ?_, ?_⟩
  · intro i
    exact ofCode_eq_error_iff.trans table_eq_unmatchedClose_iff
  · intro i h
    exact h.balanced_take
  · intro i
    exact ofCode_eq_error_iff.trans table_eq_unmatchedOpen_iff
  · intro i h
    exact h.partners
  · intro i j hi hj
    exact hi.unique hj
  · cases htable : table (instructions source) with
    | ok t => exact .inl (balanced_of_table_eq_ok htable)
    | error e =>
      cases e with
      | unmatchedClose i => exact .inr (.inl ⟨i, firstExcess_of_table_eq_error htable⟩)
      | unmatchedOpen i => exact .inr (.inr ⟨i, lastOpen_of_table_eq_error htable⟩)
  · rintro ⟨hbalanced, i, hi⟩
    exact hi.not_covered hbalanced.covered
  · rintro ⟨hbalanced, i, hi⟩
    exact hi.not_balanced hbalanced
  · rintro ⟨⟨i, hi⟩, j, hj⟩
    exact hi.not_covered hj.covered

end TapeMachine.Program
