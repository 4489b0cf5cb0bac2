import TapeMachine.Proofs.Brackets.Matching

/-!
# Partners in a program

The partners of a program are its pairs of brackets: every bracket has exactly
one, nothing else has any, and pairs are nested or apart.
-/
namespace TapeMachine.Program

open Brackets

variable (p : Program) {i j : ℕ}

theorem scanned : Scanned p.code.toList [] p.partners := by
  have hscan := outcome_table p.code.toList
  rw [p.table_eq] at hscan
  cases hscan with
  | matched hscanned => exact hscanned

theorem balanced_code : Balanced p.code.toList :=
  p.scanned.balanced

theorem getElem?_toList_code (i : ℕ) : p.code.toList[i]? = p.get? i :=
  Array.getElem?_toList

theorem partner?_eq_some_iff :
    p.partner? i = some j ↔ Pair p.code.toList i j ∨ Pair p.code.toList j i :=
  p.scanned.partner i j

theorem partner?_of_pair (h : Pair p.code.toList i j) :
    p.partner? i = some j ∧ p.partner? j = some i :=
  ⟨p.partner?_eq_some_iff.mpr (.inl h), p.partner?_eq_some_iff.mpr (.inr h)⟩

theorem partner?_symm (h : p.partner? i = some j) : p.partner? j = some i :=
  p.partner?_eq_some_iff.mpr (p.partner?_eq_some_iff.mp h).symm

theorem pair_of_loopStart (h : p.get? i = some .loopStart) (hp : p.partner? i = some j) :
    Pair p.code.toList i j := by
  rcases p.partner?_eq_some_iff.mp hp with hpair | hpair
  · exact hpair
  · have := hpair.stop.symm.trans ((p.getElem?_toList_code i).trans h)
    simp at this

theorem pair_of_loopEnd (h : p.get? j = some .loopEnd) (hp : p.partner? j = some i) :
    Pair p.code.toList i j := by
  rcases p.partner?_eq_some_iff.mp hp with hpair | hpair
  · have := hpair.start.symm.trans ((p.getElem?_toList_code j).trans h)
    simp at this
  · exact hpair

theorem exists_partner?_of_isBracket {x : Instruction} (h : p.get? i = some x)
    (hx : x.isBracket = true) : ∃ j, p.partner? i = some j := by
  rcases p.scanned.complete i x ((p.getElem?_toList_code i).trans h) hx with hopen | ⟨j, hpair⟩
  · simp at hopen
  · exact ⟨j, p.partner?_eq_some_iff.mpr hpair⟩

theorem partner?_lt_size (h : p.partner? i = some j) : i < p.size ∧ j < p.size := by
  rcases p.partner?_eq_some_iff.mp h with hpair | hpair
  · exact ⟨hpair.lt.trans hpair.stop_lt_length, hpair.stop_lt_length⟩
  · exact ⟨hpair.stop_lt_length, hpair.lt.trans hpair.stop_lt_length⟩

theorem isBracket_of_partner? (h : p.partner? i = some j) :
    ∃ x, p.get? i = some x ∧ x.isBracket = true := by
  rcases p.partner?_eq_some_iff.mp h with hpair | hpair
  · exact ⟨_, (p.getElem?_toList_code i).symm.trans hpair.start, rfl⟩
  · exact ⟨_, (p.getElem?_toList_code i).symm.trans hpair.stop, rfl⟩

theorem partner?_eq_none_iff :
    p.partner? i = none ↔ p.size ≤ i ∨ ∃ x, p.get? i = some x ∧ x.isBracket = false := by
  constructor
  · intro hnone
    cases hi : p.get? i with
    | none => exact .inl (Array.getElem?_eq_none_iff.mp hi)
    | some x =>
      refine .inr ⟨x, rfl, ?_⟩
      by_contra hx
      obtain ⟨j, hj⟩ := p.exists_partner?_of_isBracket hi (Bool.not_eq_false _ ▸ hx)
      simp [hnone] at hj
  · intro h
    by_contra hsome
    obtain ⟨j, hj⟩ := Option.ne_none_iff_exists'.mp hsome
    obtain ⟨x, hi, hx⟩ := p.isBracket_of_partner? hj
    rcases h with hsize | ⟨y, hy, hbracket⟩
    · have := (p.partner?_lt_size hj).1
      omega
    · obtain rfl := Option.some.inj (hi.symm.trans hy)
      simp [hx] at hbracket

/-- Each bracket has one partner: for a `[` the first place where the code from it
on is level, for a `]` the `[` before it that leads there. Two pairs are apart or
one is strictly inside the other. -/
theorem partner?_matches :
    (∀ i, p.partner? i = none ↔ p.size ≤ i ∨ ∃ x, p.get? i = some x ∧ x.isBracket = false) ∧
    (∀ i, p.get? i = some .loopStart → ∃ j, p.partner? i = some j ∧
      IsLeast {k | i < k ∧ k < p.size ∧ Level (p.code.toList.extract i (k + 1))} j ∧
      p.get? j = some .loopEnd ∧ Balanced (p.code.toList.extract (i + 1) j) ∧
      p.partner? j = some i) ∧
    (∀ j, p.get? j = some .loopEnd → ∃ i < j, p.partner? j = some i ∧
      p.get? i = some .loopStart ∧ p.partner? i = some j) ∧
    (∀ i j k l, p.get? i = some .loopStart → p.partner? i = some j →
      p.get? k = some .loopStart → p.partner? k = some l → i ≠ k →
        j < k ∨ l < i ∨ (i < k ∧ l < j) ∨ (k < i ∧ j < l)) := by
  refine ⟨?_, ?_, ?_, ?_⟩
  · intro i
    exact p.partner?_eq_none_iff
  · intro i hi
    obtain ⟨j, hj⟩ := p.exists_partner?_of_isBracket hi rfl
    have hpair := p.pair_of_loopStart hi hj
    exact ⟨j, hj, hpair.isLeast, (p.getElem?_toList_code j).symm.trans hpair.stop,
      hpair.balanced_between, (p.partner?_of_pair hpair).2⟩
  · intro j hj
    obtain ⟨i, hi⟩ := p.exists_partner?_of_isBracket hj rfl
    have hpair := p.pair_of_loopEnd hj hi
    exact ⟨i, hpair.lt, hi, (p.getElem?_toList_code i).symm.trans hpair.start,
      (p.partner?_of_pair hpair).1⟩
  · intro i j k l hi hij hk hkl hne
    have hpair := p.pair_of_loopStart hi hij
    have hpair' := p.pair_of_loopStart hk hkl
    rcases Nat.lt_or_gt_of_ne hne with hlt | hlt
    · rcases hpair.apart_or_inside hpair' hlt with h | h
      · exact .inl h
      · exact .inr (.inr (.inl ⟨hlt, h⟩))
    · rcases hpair'.apart_or_inside hpair hlt with h | h
      · exact .inr (.inl h)
      · exact .inr (.inr (.inr ⟨hlt, h⟩))

end TapeMachine.Program
