/-!
# Repetition

A step that tells whether it has come to an end is repeated until it does, or
until a number of repetitions is used up. Repetitions add up, and a step that
imitates another one also does so when both are repeated.
-/
namespace TapeMachine

variable {σ τ : Type}

/-- Repeat a step until it comes to an end, but at most `count` times. The flag
says whether it came to an end. -/
@[specialize] def repeatUntil (step : σ → Bool × σ) : (count : Nat) → σ → Bool × σ
  | 0, s => (false, s)
  | count + 1, s =>
    match step s with
    | (true, s) => (true, s)
    | (false, s) => repeatUntil step count s

/-- Repeat as often as a 64-bit word can count, where `round n` repeats up to
`n` times: rounds of a small number each are counted faster than one large number. -/
@[inline] def inRounds (round : Nat → σ → Bool × σ) (s : σ) : Bool × σ :=
  repeatUntil (round UInt32.size) UInt32.size s

variable {step : σ → Bool × σ}

@[simp] theorem repeatUntil_zero (s : σ) : repeatUntil step 0 s = (false, s) := rfl

@[simp] theorem repeatUntil_one (s : σ) : repeatUntil step 1 s = step s := by
  unfold repeatUntil
  split <;> simp_all

theorem repeatUntil_succ_of_end {s s' : σ} (count : Nat) (h : step s = (true, s')) :
    repeatUntil step (count + 1) s = (true, s') := by
  simp [repeatUntil, h]

theorem repeatUntil_succ_of_not_end {s s' : σ} (count : Nat) (h : step s = (false, s')) :
    repeatUntil step (count + 1) s = repeatUntil step count s' := by
  simp [repeatUntil, h]

theorem repeatUntil_add_of_end {s s' : σ} {a : Nat} (b : Nat)
    (h : repeatUntil step a s = (true, s')) : repeatUntil step (a + b) s = (true, s') := by
  induction a generalizing s with
  | zero => simp at h
  | succ a ih =>
    rw [Nat.succ_add]
    cases hs : step s with
    | mk ended next =>
      cases ended with
      | true =>
        rw [repeatUntil_succ_of_end _ hs] at h ⊢
        exact h
      | false =>
        rw [repeatUntil_succ_of_not_end _ hs] at h ⊢
        exact ih h

theorem repeatUntil_add_of_not_end {s s' : σ} {a : Nat} (b : Nat)
    (h : repeatUntil step a s = (false, s')) :
    repeatUntil step (a + b) s = repeatUntil step b s' := by
  induction a generalizing s with
  | zero =>
    obtain rfl : s = s' := congrArg Prod.snd h
    rw [Nat.zero_add]
  | succ a ih =>
    rw [Nat.succ_add]
    cases hs : step s with
    | mk ended next =>
      cases ended with
      | true => simp [repeatUntil_succ_of_end _ hs] at h
      | false =>
        rw [repeatUntil_succ_of_not_end _ hs] at h ⊢
        exact ih h

theorem repeatUntil_repeatUntil (size rounds : Nat) (s : σ) :
    repeatUntil (repeatUntil step size) rounds s = repeatUntil step (rounds * size) s := by
  induction rounds generalizing s with
  | zero => simp
  | succ rounds ih =>
    rw [Nat.succ_mul, Nat.add_comm (rounds * size)]
    cases hs : repeatUntil step size s with
    | mk ended next =>
      cases ended with
      | true => rw [repeatUntil_succ_of_end _ hs, repeatUntil_add_of_end _ hs]
      | false => rw [repeatUntil_succ_of_not_end _ hs, repeatUntil_add_of_not_end _ hs, ih]

theorem inRounds_repeatUntil (s : σ) :
    inRounds (repeatUntil step) s = repeatUntil step UInt64.size s :=
  repeatUntil_repeatUntil _ _ s

/-- A step that imitates another one step by step imitates it in repetition. The
states correspond by `f`, which may depend on whether an end was reached. -/
theorem repeatUntil_imitate {other : τ → Bool × τ} (f : Bool → σ → τ)
    (h : ∀ s, other (f false s) = ((step s).1, f (step s).1 (step s).2)) (count : Nat) (s : σ) :
    repeatUntil other count (f false s) =
      ((repeatUntil step count s).1,
        f (repeatUntil step count s).1 (repeatUntil step count s).2) := by
  induction count generalizing s with
  | zero => rfl
  | succ count ih =>
    have hs := h s
    cases hn : step s with
    | mk ended next =>
      rw [hn] at hs
      cases ended with
      | true => rw [repeatUntil_succ_of_end _ hs, repeatUntil_succ_of_end _ hn]
      | false => rw [repeatUntil_succ_of_not_end _ hs, repeatUntil_succ_of_not_end _ hn, ih]

end TapeMachine
