import TapeMachine.Proofs.Runs.Agreement
import Mathlib.Data.ENat.Lattice

/-!
# How long a run lasts on its own

The lifetime of a machine is the number of instructions that stepping it runs before it
finds nothing to run, and infinite if there is always another one. It decides how a run
within a limit ends that nobody cancels: the run completes if the lifetime is within the
limit, and takes as many instructions as the lesser of the two.
-/
namespace TapeMachine.Machine

variable {m : Machine} {input : Array UInt8} {n k : ℕ}

/-- The number of instructions that are run before one step finds nothing to run. -/
noncomputable def lifetime (m : Machine) : ℕ∞ :=
  ⨅ (n : ℕ) (_ : m.HaltsAfter n), n

theorem HaltsAfter.lifetime_eq (h : m.HaltsAfter n) : m.lifetime = n := by
  apply le_antisymm
  · exact iInf₂_le n h
  · apply le_iInf₂
    intro k hk
    rw [h.unique hk]

theorem lifetime_le_iff : m.lifetime ≤ k ↔ ∃ n ≤ k, m.HaltsAfter n := by
  constructor
  · intro hle
    have hfinite : m.lifetime ≠ ⊤ := (hle.trans_lt (ENat.natCast_lt_top k)).ne
    obtain ⟨n, hn⟩ : ∃ n, m.HaltsAfter n := by
      by_contra hnone
      exact hfinite (by simp [lifetime, not_exists.mp hnone])
    rw [hn.lifetime_eq] at hle
    exact ⟨n, Nat.cast_le.mp hle, hn⟩
  · rintro ⟨n, hle, hn⟩
    rw [hn.lifetime_eq]
    exact Nat.cast_le.mpr hle

/-- The number of instructions that are run within a limit. -/
noncomputable def lifetimeWithin (m : Machine) (limit : ℕ) : ℕ :=
  (min m.lifetime limit).toNat

theorem coe_lifetimeWithin (m : Machine) (limit : ℕ) :
    (m.lifetimeWithin limit : ℕ∞) = min m.lifetime limit :=
  ENat.natCast_toNat (min_lt_of_right_lt (ENat.natCast_lt_top limit)).ne

theorem lifetimeWithin_le (m : Machine) (limit : ℕ) : m.lifetimeWithin limit ≤ limit := by
  rw [← Nat.cast_le (α := ℕ∞), coe_lifetimeWithin]
  exact min_le_right _ _

theorem lifetimeWithin_mono (m : Machine) {limit limit' : ℕ} (h : limit ≤ limit') :
    m.lifetimeWithin limit ≤ m.lifetimeWithin limit' := by
  rw [← Nat.cast_le (α := ℕ∞), coe_lifetimeWithin, coe_lifetimeWithin]
  exact min_le_min_left _ (Nat.cast_le.mpr h)

/-- A run within a limit completes exactly if the lifetime is within the limit, and runs
the lesser of the two. -/
theorem runWithin_of_undisturbed (hcalm : (m.start input).Undisturbed) (limit : UInt64) :
    (m.runWithin input limit).outcome =
        (if (m.start input).lifetime ≤ limit.toNat then .completed else .outOfSteps) ∧
      (m.runWithin input limit).machine.store.steps.toNat =
        (m.start input).lifetimeWithin limit.toNat := by
  rw [lifetimeWithin]
  by_cases hends : (m.start input).lifetime ≤ limit.toNat
  · obtain ⟨n, hle, hn⟩ := lifetime_le_iff.mp hends
    obtain ⟨houtcome, hmachine⟩ := runWithin_of_le hcalm hn hle
    obtain ⟨-, hsteps⟩ := walk_of_haltsAfter hn (hle.trans_lt limit.toNat_lt_size)
    rw [if_pos hends, min_eq_left hends, hn.lifetime_eq, hmachine]
    exact ⟨houtcome, hsteps⟩
  · have hlater : ∀ n, (m.start input).HaltsAfter n → limit.toNat < n := by
      intro n hn
      by_contra hle
      exact hends (lifetime_le_iff.mpr ⟨n, not_lt.mp hle, hn⟩)
    obtain ⟨houtcome, hmachine, -, hsteps, -⟩ := runWithin_of_lt hlater
    rw [if_neg hends, min_eq_right (not_le.mp hends).le, hmachine, hsteps]
    exact ⟨houtcome, rfl⟩

end TapeMachine.Machine
