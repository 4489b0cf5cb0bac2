import TapeMachine.Proofs.Brackets.Depth

/-!
# Pairs of brackets

A `[` and a `]` are a pair when the code from one to the other opens as many
loops as it closes, and not before. Pairs do not cross, and each bracket is in
one of them at most.
-/
namespace TapeMachine.Brackets

/-- The `[` at `i` and the `]` at `j` belong together. -/
structure Pair (code : List Instruction) (i j : ℕ) : Prop where
  lt : i < j
  start : code[i]? = some .loopStart
  stop : code[j]? = some .loopEnd
  level : depth code (j + 1) = depth code i
  inside : ∀ k, i < k → k ≤ j → depth code i < depth code k

variable {code rest : List Instruction} {i j k l : ℕ}

namespace Pair

theorem stop_lt_length (h : Pair code i j) : j < code.length :=
  (List.getElem?_eq_some_iff.mp h.stop).1

theorem balanced_between (h : Pair code i j) : Balanced (code.extract (i + 1) j) := by
  have hlt := h.lt
  have hstart := depth_succ h.start
  have hstop := depth_succ h.stop
  have hlevel := h.level
  simp only [rise] at hstart hstop
  refine (balanced_extract_iff (by omega) h.stop_lt_length.le).mpr ⟨by omega, ?_⟩
  intro k hik hkj
  have := h.inside k (by omega) hkj
  omega

/-- The `]` of a pair is the first place where the code from the `[` on is level. -/
theorem isLeast (h : Pair code i j) :
    IsLeast {k | i < k ∧ k < code.length ∧ Level (code.extract i (k + 1))} j := by
  have hlen := h.stop_lt_length
  have hlt := h.lt
  constructor
  · exact ⟨hlt, hlen, (level_extract_iff (by omega) hlen).mpr h.level⟩
  · rintro k ⟨hik, hk, hlevel⟩
    have hdepth : depth code (k + 1) = depth code i := (level_extract_iff (by omega) hk).mp hlevel
    by_contra hkj
    have := h.inside (k + 1) (by omega) (by omega)
    omega

theorem left_unique (h : Pair code i k) (h' : Pair code j k) : i = j := by
  have hlevel := h.level
  have hlevel' := h'.level
  have hlt := h.lt
  have hlt' := h'.lt
  rcases Nat.lt_trichotomy i j with hij | hij | hij
  · have := h.inside j hij (by omega)
    omega
  · exact hij
  · have := h'.inside i hij (by omega)
    omega

theorem start_ne_stop (h : Pair code i j) (h' : Pair code k l) : i ≠ l := by
  rintro rfl
  have := h.start.symm.trans h'.stop
  simp at this

/-- Two pairs are apart, or one lies inside the other. -/
theorem apart_or_inside (h : Pair code i j) (h' : Pair code k l) (hne : i < k) :
    j < k ∨ l < j := by
  by_contra hcross
  -- The outer level is reached again at `j + 1`, which would lie inside the pair `k`, `l`.
  have hjl : j ≠ l := by
    rintro rfl
    have := h.left_unique h'
    omega
  have hjk := h'.start_ne_stop h
  have hk := h.inside k hne (by omega)
  have hj := h'.inside (j + 1) (by omega) (by omega)
  have := h.level
  omega

theorem append (h : Pair code i j) (rest : List Instruction) : Pair (code ++ rest) i j := by
  have hlt := h.lt
  have hlen := h.stop_lt_length
  refine ⟨hlt, ?_, ?_, ?_, ?_⟩
  · rw [List.getElem?_append_left (by omega)]
    exact h.start
  · rw [List.getElem?_append_left hlen]
    exact h.stop
  · rw [depth_append_of_le rest (by omega), depth_append_of_le rest (by omega)]
    exact h.level
  · intro k hik hkj
    rw [depth_append_of_le rest (by omega), depth_append_of_le rest (by omega)]
    exact h.inside k hik hkj

theorem of_append (h : Pair (code ++ rest) i j) (hlen : j < code.length) : Pair code i j := by
  have hlt := h.lt
  have hstart := h.start
  have hstop := h.stop
  have hlevel := h.level
  rw [List.getElem?_append_left (by omega)] at hstart hstop
  rw [depth_append_of_le rest (by omega), depth_append_of_le rest (by omega)] at hlevel
  refine ⟨hlt, hstart, hstop, hlevel, ?_⟩
  intro k hik hkj
  have := h.inside k hik hkj
  rwa [depth_append_of_le rest (by omega), depth_append_of_le rest (by omega)] at this

end Pair

theorem pair_concat_iff {x : Instruction} (hx : x ≠ .loopEnd) :
    Pair (code ++ [x]) i j ↔ Pair code i j := by
  constructor
  · intro h
    have hlen := h.stop_lt_length
    rw [List.length_append, List.length_singleton] at hlen
    apply h.of_append
    by_contra hlast
    obtain rfl : j = code.length := by omega
    exact hx (by simpa using h.stop)
  · intro h
    exact h.append [x]

theorem pair_concat_loopEnd_iff {start : ℕ} (hpair : Pair (code ++ [.loopEnd]) start code.length) :
    Pair (code ++ [.loopEnd]) i j ↔ Pair code i j ∨ i = start ∧ j = code.length := by
  constructor
  · intro h
    have hlen := h.stop_lt_length
    rw [List.length_append, List.length_singleton] at hlen
    rcases Nat.lt_succ_iff_lt_or_eq.mp hlen with hj | rfl
    · exact .inl (h.of_append hj)
    · exact .inr ⟨h.left_unique hpair, rfl⟩
  · rintro (h | ⟨rfl, rfl⟩)
    · exact h.append _
    · exact hpair

/-- Balanced code between brackets makes them a pair, whatever stands around. -/
theorem pair_of_balanced {front body back : List Instruction} (hbody : Balanced body) :
    Pair (front ++ .loopStart :: (body ++ .loopEnd :: back)) front.length
      (front.length + 1 + body.length) := by
  obtain ⟨hcovered, hlevel⟩ := balanced_iff.mp hbody
  set code := front ++ .loopStart :: (body ++ .loopEnd :: back) with hcode
  have hbase : depth code front.length = depth front front.length :=
    depth_append_of_le _ le_rfl
  have hbetween : ∀ k ≤ body.length,
      depth code (front.length + (k + 1)) = depth code front.length + 1 + depth body k := by
    intro k hk
    rw [hbase, hcode, depth_append, depth_cons, depth_append_of_le _ hk, rise]
    ring
  refine ⟨by omega, by simp [hcode], ?_, ?_, ?_⟩
  · rw [hcode, List.getElem?_append_right (by omega)]
    simp [show front.length + 1 + body.length - front.length = body.length + 1 by omega]
  · have hlength : front.length + 1 + body.length + 1 = front.length + (body.length + 1 + 1) := by
      omega
    rw [hbase, hcode, hlength, depth_append, depth_cons, depth_append, hlevel, depth_cons,
      depth_zero, rise, rise]
    ring
  · intro k hlt hle
    obtain ⟨l, rfl⟩ := Nat.exists_eq_add_of_le' hlt
    have hl := hbetween l (by omega)
    have := hcovered l
    rw [show l + front.length.succ = front.length + (l + 1) by omega]
    omega

end TapeMachine.Brackets
