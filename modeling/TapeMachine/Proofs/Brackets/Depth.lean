import TapeMachine.Instruction
import Mathlib.Order.Bounds.Basic
import Mathlib.Tactic

/-!
# Depth of brackets

The depth at a place of some code is the number of loops that are opened before
it and not closed. Balance is stated by counting brackets in prefixes; proofs
compare depths, which change by at most one from each place to the next.
-/
namespace TapeMachine.Brackets

/-- No prefix closes more loops than it opens. -/
def Covered (code : List Instruction) : Prop :=
  ∀ front, front <+: code → front.count .loopEnd ≤ front.count .loopStart

/-- As many loops are closed as opened. -/
def Level (code : List Instruction) : Prop :=
  code.count .loopStart = code.count .loopEnd

structure Balanced (code : List Instruction) : Prop where
  covered : Covered code
  level : Level code

/-- How many more loops the first `k` instructions open than they close. -/
def depth (code : List Instruction) (k : ℕ) : ℤ :=
  (code.take k).count .loopStart - (code.take k).count .loopEnd

variable {code a b : List Instruction}

@[simp] theorem depth_zero (code : List Instruction) : depth code 0 = 0 := by
  simp [depth]

theorem depth_of_length_le {k : ℕ} (h : code.length ≤ k) :
    depth code k = depth code code.length := by
  rw [depth, depth, List.take_of_length_le h, List.take_length]

theorem depth_take {k n : ℕ} (h : k ≤ n) : depth (code.take n) k = depth code k := by
  rw [depth, depth, List.take_take, Nat.min_eq_left h]

theorem depth_append_of_le {k : ℕ} (b : List Instruction) (h : k ≤ a.length) :
    depth (a ++ b) k = depth a k := by
  rw [depth, depth, List.take_append_of_le_length h]

theorem depth_append (a b : List Instruction) (k : ℕ) :
    depth (a ++ b) (a.length + k) = depth a a.length + depth b k := by
  simp only [depth, List.take_length_add_append, List.take_length, List.count_append]
  push_cast
  ring

def rise : Instruction → ℤ
  | .loopStart => 1
  | .loopEnd => -1
  | _ => 0

theorem rise_eq_zero {i : Instruction} (h : i.isBracket = false) : rise i = 0 := by
  cases i <;> simp_all [Instruction.isBracket, rise]

theorem depth_cons (i : Instruction) (code : List Instruction) (k : ℕ) :
    depth (i :: code) (k + 1) = rise i + depth code k := by
  have hone : depth [i] 1 = rise i := by
    cases i <;> rfl
  have hsplit := depth_append [i] code k
  rw [List.length_singleton, hone, Nat.add_comm 1 k] at hsplit
  exact hsplit

theorem depth_succ {k : ℕ} {i : Instruction} (h : code[k]? = some i) :
    depth code (k + 1) = depth code k + rise i := by
  obtain ⟨hk, rfl⟩ := List.getElem?_eq_some_iff.mp h
  have htake : code.take (k + 1) = code.take k ++ [code[k]] := by
    simp
  have hlen : (code.take k).length = k := by
    rw [List.length_take]
    omega
  calc
    depth code (k + 1) = depth (code.take (k + 1)) (k + 1) := (depth_take le_rfl).symm
    _ = depth (code.take k ++ [code[k]]) ((code.take k).length + 1) := by
      rw [htake, hlen]
    _ = depth (code.take k) k + rise code[k] := by
      rw [depth_append, hlen, depth_cons, depth_zero, add_zero]
    _ = depth code k + rise code[k] := by
      rw [depth_take le_rfl]

theorem neg_one_le_rise (i : Instruction) : -1 ≤ rise i := by
  cases i <;> decide

theorem depth_le_depth_succ (code : List Instruction) (k : ℕ) :
    depth code k - 1 ≤ depth code (k + 1) := by
  cases h : code[k]? with
  | some i =>
    have := neg_one_le_rise i
    rw [depth_succ h]
    omega
  | none =>
    have hk := List.getElem?_eq_none_iff.mp h
    rw [depth_of_length_le hk, depth_of_length_le (Nat.le_succ_of_le hk)]
    omega

/-! ### Balance by depths -/

theorem covered_iff : Covered code ↔ ∀ k, 0 ≤ depth code k := by
  constructor
  · intro h k
    have := h (code.take k) (List.take_prefix k code)
    rw [depth]
    omega
  · intro h front hfront
    have := h front.length
    rw [depth, ← List.prefix_iff_eq_take.mp hfront] at this
    omega

theorem level_iff : Level code ↔ depth code code.length = 0 := by
  rw [Level, depth, List.take_length]
  omega

theorem balanced_iff :
    Balanced code ↔ (∀ k, 0 ≤ depth code k) ∧ depth code code.length = 0 := by
  constructor
  · intro h
    exact ⟨covered_iff.mp h.covered, level_iff.mp h.level⟩
  · rintro ⟨hcovered, hlevel⟩
    exact ⟨covered_iff.mpr hcovered, level_iff.mpr hlevel⟩

theorem balanced_nil : Balanced [] := by
  apply balanced_iff.mpr
  constructor
  · intro k
    simp [depth]
  · rfl

/-- The depth inside a stretch of code counts from the stretch's beginning. -/
theorem depth_extract {i j k : ℕ} (hk : i + k ≤ j) (hi : i ≤ code.length) :
    depth (code.extract i j) k = depth code (i + k) - depth code i := by
  have hsplit := depth_append (code.take i) (code.drop i) k
  have hlen : (code.take i).length = i := by
    rw [List.length_take]
    omega
  have hfront : depth (code.take i) i = depth code i := depth_take le_rfl
  rw [List.take_append_drop, hlen, hfront] at hsplit
  have hdrop : depth (code.extract i j) k = depth (code.drop i) k := by
    rw [List.extract_eq_take_drop]
    exact depth_take (by omega)
  omega

theorem length_extract {i j : ℕ} (hj : j ≤ code.length) : (code.extract i j).length = j - i := by
  rw [List.extract_eq_take_drop, List.length_take, List.length_drop]
  omega

theorem level_extract_iff {i j : ℕ} (hij : i ≤ j) (hj : j ≤ code.length) :
    Level (code.extract i j) ↔ depth code j = depth code i := by
  rw [level_iff, length_extract hj, depth_extract (by omega) (by omega), Nat.add_sub_cancel' hij]
  omega

theorem balanced_extract_iff {i j : ℕ} (hij : i ≤ j) (hj : j ≤ code.length) :
    Balanced (code.extract i j) ↔
      depth code j = depth code i ∧ ∀ k, i ≤ k → k ≤ j → depth code i ≤ depth code k := by
  have hlen : (code.extract i j).length = j - i := length_extract hj
  constructor
  · intro h
    refine ⟨(level_extract_iff hij hj).mp h.level, ?_⟩
    intro k hik hkj
    have hk := covered_iff.mp h.covered (k - i)
    rw [depth_extract (by omega) (by omega), Nat.add_sub_cancel' hik] at hk
    omega
  · rintro ⟨hlevel, hk⟩
    refine ⟨covered_iff.mpr ?_, (level_extract_iff hij hj).mpr hlevel⟩
    intro k
    by_cases hle : i + k ≤ j
    · rw [depth_extract hle (by omega)]
      have := hk (i + k) (by omega) hle
      omega
    · rw [depth_of_length_le (by omega), hlen, depth_extract (by omega) (by omega),
        Nat.add_sub_cancel' hij]
      omega

theorem balanced_drop_iff {i : ℕ} (hi : i ≤ code.length) :
    Balanced (code.drop i) ↔ depth code code.length = depth code i ∧
      ∀ k, i ≤ k → k ≤ code.length → depth code i ≤ depth code k := by
  have hdrop : code.drop i = code.extract i code.length := by
    rw [List.extract_eq_take_drop, List.take_of_length_le]
    rw [List.length_drop]
  rw [hdrop, balanced_extract_iff hi le_rfl]

theorem Balanced.cons {x : Instruction} (h : Balanced code) (hx : x.isBracket = false) :
    Balanced (x :: code) := by
  have hrise := rise_eq_zero hx
  obtain ⟨hcovered, hlevel⟩ := balanced_iff.mp h
  refine balanced_iff.mpr ⟨?_, ?_⟩
  · intro k
    cases k with
    | zero => simp
    | succ k =>
      rw [depth_cons, hrise, zero_add]
      exact hcovered k
  · rw [List.length_cons, depth_cons, hrise, hlevel, add_zero]

theorem Balanced.loop (ha : Balanced a) (hb : Balanced b) :
    Balanced (.loopStart :: (a ++ .loopEnd :: b)) := by
  obtain ⟨ha, ha'⟩ := balanced_iff.mp ha
  obtain ⟨hb, hb'⟩ := balanced_iff.mp hb
  refine balanced_iff.mpr ⟨?_, ?_⟩
  · intro k
    cases k with
    | zero => simp
    | succ k =>
      rw [depth_cons, rise]
      by_cases hk : k ≤ a.length
      · have := ha k
        rw [depth_append_of_le _ hk]
        omega
      · obtain ⟨l, rfl⟩ := Nat.exists_eq_add_of_le (Nat.le_of_not_le hk)
        rw [depth_append, ha']
        cases l with
        | zero => simp
        | succ l =>
          have := hb l
          rw [depth_cons, rise]
          omega
  · rw [List.length_cons, List.length_append, List.length_cons, depth_cons, depth_append,
      depth_cons, ha', hb', rise, rise]
    decide

end TapeMachine.Brackets
