import TapeMachine.Proofs.Machine.Undisturbed
import Mathlib.Tactic

/-!
# Stepping and running

A step either runs an instruction of a machine as it stands or leaves a machine at
rest, and a machine at rest is left alone by every further step. A run in which no
pause asks for cancellation goes through the machines that stepping by hand goes
through, and ends where a step finds nothing to run.
-/
namespace TapeMachine

theorem repeatUntil_succ {σ : Type} (step : σ → Bool × σ) (count : ℕ) (s : σ) :
    repeatUntil step (count + 1) s =
      if (repeatUntil step count s).1 then repeatUntil step count s
      else step (repeatUntil step count s).2 := by
  cases hcount : repeatUntil step count s with
  | mk ended next =>
    cases ended with
    | true => exact repeatUntil_add_of_end 1 hcount
    | false =>
      rw [repeatUntil_add_of_not_end 1 hcount, repeatUntil_one]
      rfl

namespace Machine

variable {m : Machine} {x : Instruction} {n k : ℕ}

/-! ### One step -/

theorem heed_of_halted (h : m.phase = .halted) : m.heed = m := by
  simp [heed, cancel, h]

theorem heed_of_idle (h : m.phase = .idle) : m.heed = m := by
  simp [heed, cancel, h]

theorem heed_of_requested (hrun : m.phase = .running) (hreq : m.cancelRequested = true) :
    m.heed = m.abort := by
  simp [heed, cancel, hrun, hreq]

theorem heed_of_ran (h : m.step.ran = some x) : m.heed = m := by
  rcases m.heed_cases with hheed | hheed
  · exact hheed
  · have hnone : m.program.get? m.abort.store.pc = none := Array.getElem?_size
    rw [step_of_end (hheed ▸ hnone)] at h
    simp at h

theorem step_eq_of_ran (h : m.step.ran = some x) : m.step = m.wake.execute x := by
  have hheed := heed_of_ran h
  have hget : m.program.get? m.heed.store.pc = some x := by
    rw [hheed]
    exact get?_of_ran h
  rw [step_of_get? hget, hheed]

theorem step_eq_of_halted (h : m.step.ran = none) :
    m.step = ⟨m.heed.halt, none, .halted, []⟩ ∧ m.program.get? m.heed.store.pc = none := by
  cases hget : m.program.get? m.heed.store.pc with
  | none => exact ⟨step_of_end hget, rfl⟩
  | some x =>
    rw [step_of_get? hget] at h
    simp [execute] at h

/-- What an instruction does to the store does not depend on the life of the machine. -/
theorem store_step_of_ran (h : m.step.ran = some x) :
    m.step.effect = (m.store.execute m.setup.io m.program x).1 ∧
      m.step.machine.store = (m.store.execute m.setup.io m.program x).2 := by
  rw [step_eq_of_ran h]
  simp [execute]

theorem machine_step_of_halted (h : m.step.ran = none) :
    m.step.machine = m.halt ∨ m.step.machine = m.abort := by
  rw [(step_eq_of_halted h).1]
  rcases m.heed_cases with hheed | hheed
  · exact .inl (congrArg halt hheed)
  · exact .inr (congrArg halt hheed)

theorem setup_step (m : Machine) : m.step.machine.setup = m.setup := by
  cases hran : m.step.ran with
  | none => rcases machine_step_of_halted hran with hstep | hstep <;> rw [hstep] <;> rfl
  | some x =>
    rw [step_eq_of_ran hran]
    exact setup_wake

theorem program_step (m : Machine) : m.step.machine.program = m.program := by
  cases hran : m.step.ran with
  | none => rcases machine_step_of_halted hran with hstep | hstep <;> rw [hstep] <;> rfl
  | some x =>
    rw [step_eq_of_ran hran]
    exact program_wake

theorem steps_step_of_ran (h : m.step.ran = some x) :
    m.step.machine.store.steps = m.store.steps + 1 := by
  rw [(store_step_of_ran h).2, Store.steps_execute]

theorem steps_step_of_halted (h : m.step.ran = none) :
    m.step.machine.store.steps = m.store.steps := by
  rcases machine_step_of_halted h with hstep | hstep <;> rw [hstep] <;> rfl

theorem pc_step_le (h : m.store.pc ≤ m.program.size) :
    m.step.machine.store.pc ≤ m.program.size := by
  cases hran : m.step.ran with
  | none =>
    rcases machine_step_of_halted hran with hstep | hstep
    · rw [hstep]
      exact h
    · rw [hstep]
      exact le_rfl
  | some x =>
    rw [(store_step_of_ran hran).2]
    exact Store.pc_execute_le m.setup.io (get?_of_ran hran)

theorem phase_step_of_ran (hrun : m.phase = .running) (h : m.step.ran = some x) :
    m.step.machine.phase = .running := by
  rw [step_eq_of_ran h, wake_of_running m hrun]
  exact hrun

theorem cancelled_step (h : m.cancelRequested = false) :
    m.step.machine.cancelled = m.cancelled := by
  have hheed := heed_of_not_requested m h
  cases hran : m.step.ran with
  | none =>
    rw [(step_eq_of_halted hran).1, hheed]
    rfl
  | some x =>
    rw [step_eq_of_ran hran]
    exact cancelled_wake

theorem step_of_requested (hrun : m.phase = .running) (hreq : m.cancelRequested = true) :
    m.step = ⟨m.abort, none, .halted, []⟩ := by
  have hheed := heed_of_requested hrun hreq
  have hnone : m.program.get? m.abort.store.pc = none := Array.getElem?_size
  rw [step_of_end (hheed ▸ hnone), hheed]
  rfl

/-! ### Machines at rest -/

/-- Halted, and past the last instruction. -/
def AtRest (m : Machine) : Prop :=
  m.phase = .halted ∧ m.program.get? m.store.pc = none

theorem AtRest.step (h : m.AtRest) : m.step = ⟨m, none, .halted, []⟩ := by
  obtain ⟨hphase, hget⟩ := h
  have hheed := heed_of_halted hphase
  rw [step_of_end (by rwa [hheed]), hheed, halt, ← hphase]

theorem AtRest.halt (h : m.AtRest) : m.halt = m := by
  rw [Machine.halt, ← h.1]

theorem atRest_step (h : m.step.ran = none) : m.step.machine.AtRest := by
  obtain ⟨hstep, hget⟩ := step_eq_of_halted h
  rw [hstep]
  refine ⟨rfl, ?_⟩
  change m.heed.program.get? m.heed.store.pc = none
  rwa [program_heed]

theorem AtRest.walk (h : m.AtRest) (k : ℕ) : m.walk k = ⟨m, List.replicate k .halted, []⟩ := by
  induction k with
  | zero => rfl
  | succ k ih =>
    rw [Machine.walk, h.step]
    simp only [ih]
    rfl

/-! ### Walks -/

theorem machine_walk_succ (m : Machine) (k : ℕ) :
    (m.walk (k + 1)).machine = (m.walk k).machine.step.machine :=
  m.machine_walk_add k 1

theorem effects_walk_succ (m : Machine) (k : ℕ) :
    (m.walk (k + 1)).effects = (m.walk k).effects ++ [(m.walk k).machine.step.effect] :=
  m.effects_walk_add k 1

theorem atRest_walk (h : .halted ∈ (m.walk k).effects) : (m.walk k).machine.AtRest := by
  induction k with
  | zero => simp [Machine.walk] at h
  | succ k ih =>
    rw [machine_walk_succ]
    rw [effects_walk_succ, List.mem_append, List.mem_singleton] at h
    rcases h with h | h
    · have hrest := ih h
      rwa [hrest.step]
    · exact atRest_step ((ran_step_eq_none_iff _).mpr h.symm)

theorem program_walk (m : Machine) (k : ℕ) : (m.walk k).machine.program = m.program := by
  induction k with
  | zero => rfl
  | succ k ih => rw [machine_walk_succ, program_step, ih]

theorem pc_walk_le (h : m.store.pc ≤ m.program.size) (k : ℕ) :
    (m.walk k).machine.store.pc ≤ m.program.size := by
  induction k with
  | zero => exact h
  | succ k ih =>
    rw [machine_walk_succ, ← program_walk m k]
    rw [← program_walk m k] at ih
    exact pc_step_le ih

/-- A walk goes on for another step exactly if that step runs an instruction. -/
theorem halted_notMem_walk_succ_iff :
    .halted ∉ (m.walk (k + 1)).effects ↔
      .halted ∉ (m.walk k).effects ∧ ∃ x, (m.walk k).machine.step.ran = some x := by
  rw [effects_walk_succ, List.mem_append, List.mem_singleton, not_or,
    eq_comm (a := Effect.halted), ← ran_step_eq_none_iff, ← ne_eq, Option.ne_none_iff_exists']

theorem steps_walk (h : .halted ∉ (m.walk k).effects) :
    (m.walk k).machine.store.steps = m.store.steps + UInt64.ofNat k := by
  induction k with
  | zero => exact (UInt64.add_zero _).symm
  | succ k ih =>
    obtain ⟨hk, x, hran⟩ := halted_notMem_walk_succ_iff.mp h
    rw [machine_walk_succ, steps_step_of_ran hran, ih hk, UInt64.ofNat_add, UInt64.add_assoc]
    rfl

theorem running_walk (hrun : m.phase = .running) (h : .halted ∉ (m.walk k).effects) :
    (m.walk k).machine.phase = .running ∧
      (m.walk k).machine.store.steps = m.store.steps + UInt64.ofNat k := by
  refine ⟨?_, steps_walk h⟩
  induction k with
  | zero => exact hrun
  | succ k ih =>
    obtain ⟨hk, x, hran⟩ := halted_notMem_walk_succ_iff.mp h
    rw [machine_walk_succ]
    exact phase_step_of_ran (ih hk) hran

/-- Stepping runs `n` instructions and then finds nothing to run. -/
def HaltsAfter (m : Machine) (n : ℕ) : Prop :=
  .halted ∉ (m.walk n).effects ∧ (m.walk n).machine.step.effect = .halted

instance (m : Machine) (n : ℕ) : Decidable (m.HaltsAfter n) :=
  inferInstanceAs (Decidable (_ ∧ _))

theorem HaltsAfter.halted_mem_iff (h : m.HaltsAfter n) : .halted ∈ (m.walk k).effects ↔ n < k := by
  constructor
  · intro hk
    by_contra hle
    obtain ⟨l, rfl⟩ := Nat.exists_eq_add_of_le (Nat.le_of_not_lt hle)
    apply h.1
    rw [effects_walk_add]
    exact List.mem_append_left _ hk
  · intro hlt
    obtain ⟨l, rfl⟩ := Nat.exists_eq_add_of_le hlt
    rw [effects_walk_add, effects_walk_succ, h.2]
    simp

theorem HaltsAfter.unique (h : m.HaltsAfter n) (h' : m.HaltsAfter k) : n = k := by
  have hn := h'.halted_mem_iff.symm.trans (h.halted_mem_iff (k := n + 1))
  have hk := h.halted_mem_iff.symm.trans (h'.halted_mem_iff (k := k + 1))
  omega

theorem exists_haltsAfter (h : .halted ∈ (m.walk k).effects) : ∃ n < k, m.HaltsAfter n := by
  induction k with
  | zero => simp [Machine.walk] at h
  | succ k ih =>
    by_cases hk : .halted ∈ (m.walk k).effects
    · obtain ⟨n, hlt, hn⟩ := ih hk
      exact ⟨n, hlt.trans (Nat.lt_succ_self k), hn⟩
    · rw [effects_walk_succ, List.mem_append, List.mem_singleton] at h
      exact ⟨k, Nat.lt_succ_self k, hk, (h.resolve_left hk).symm⟩

theorem HaltsAfter.machine_walk (h : m.HaltsAfter n) (hlt : n < k) :
    (m.walk k).machine = (m.walk (n + 1)).machine := by
  obtain ⟨l, rfl⟩ := Nat.exists_eq_add_of_le hlt
  have hrest := atRest_walk (h.halted_mem_iff.mpr (Nat.lt_succ_self n))
  rw [machine_walk_add, hrest.walk]

theorem HaltsAfter.events_walk (h : m.HaltsAfter n) (hlt : n < k) :
    (m.walk k).events = (m.walk (n + 1)).events := by
  obtain ⟨l, rfl⟩ := Nat.exists_eq_add_of_le hlt
  have hrest := atRest_walk (h.halted_mem_iff.mpr (Nat.lt_succ_self n))
  rw [events_walk_add, hrest.walk, List.append_nil]

end Machine

namespace Progress

variable {r : Progress} {i : Instruction}

theorem advance_succ (r : Progress) (k : ℕ) :
    r.advance (k + 1) = if (r.advance k).1 then r.advance k else (r.advance k).2.step := by
  simp only [advance_eq]
  exact repeatUntil_succ step k r

/-- Nobody asks for cancellation, neither a listener nor in a pause, however far the
run goes. -/
def Undisturbed (r : Progress) : Prop :=
  ∀ k, (r.advance k).2.machine.cancelRequested = false

theorem undisturbed_of_cancelAt (h : r.machine.Undisturbed)
    (hpace : r.pace.cancelAt = none) : r.Undisturbed := by
  intro k
  induction k generalizing r with
  | zero =>
    rw [advance_zero]
    exact h.cancelRequested
  | succ k ih =>
    cases hran : r.machine.step.ran with
    | none =>
      rw [advance_succ_of_halted k hran]
      exact h.step.cancelRequested
    | some i =>
      obtain ⟨hmachine, hcancelAt⟩ := @pause_of_cancelAt_none (r.take r.machine.step) hpace i
      rw [advance_succ_of_ran k hran]
      apply ih _ hcancelAt
      rw [hmachine]
      exact h.step

/-- No pause asks for cancellation: there are no pauses, or nobody asks at all. -/
def Peaceful (r : Progress) : Prop :=
  r.pace.delay = 0 ∨ r.Undisturbed

theorem pause_of_delay_eq_zero (h : r.pace.delay = 0) (i : Instruction) : r.pause i = r := by
  simp [pause, h]

theorem machine_pause_cases (r : Progress) (i : Instruction) :
    (r.pause i).machine = r.machine ∨ (r.pause i).machine = r.machine.requestCancel := by
  unfold pause
  split
  · dsimp only
    split
    · exact .inr rfl
    · exact .inl rfl
  · exact .inl rfl

theorem machine_pause (h : (r.pause i).machine.cancelRequested = false) :
    (r.pause i).machine = r.machine := by
  rcases r.machine_pause_cases i with hpause | hpause
  · exact hpause
  · rw [hpause] at h
    simp [Machine.requestCancel] at h

theorem Peaceful.next (h : r.Peaceful) (hran : r.machine.step.ran = some i) :
    ((r.take r.machine.step).pause i).machine = r.machine.step.machine ∧
      ((r.take r.machine.step).pause i).Peaceful := by
  rcases h with h | h
  · rw [pause_of_delay_eq_zero (by exact h)]
    exact ⟨rfl, .inl h⟩
  · have hnext : ((r.take r.machine.step).pause i).Undisturbed := by
      intro k
      rw [← advance_succ_of_ran k hran]
      exact h (k + 1)
    have hcalm := hnext 0
    rw [advance_zero] at hcalm
    exact ⟨machine_pause hcalm, .inr hnext⟩

/-- A run whose pauses do not interfere is a walk. -/
theorem Peaceful.advance (h : r.Peaceful) (k : ℕ) :
    (r.advance k).2.machine = (r.machine.walk k).machine ∧
      ((r.advance k).1 = true ↔ .halted ∈ (r.machine.walk k).effects) := by
  induction k generalizing r with
  | zero => simp [advance_zero, Machine.walk]
  | succ k ih =>
    simp only [Machine.walk, List.mem_cons]
    cases hran : r.machine.step.ran with
    | none =>
      have heffect := (r.machine.ran_step_eq_none_iff).mp hran
      rw [advance_succ_of_halted k hran, (Machine.atRest_step hran).walk, heffect]
      exact ⟨rfl, by simp⟩
    | some i =>
      have heffect : (.halted : Effect) ≠ r.machine.step.effect := by
        intro heffect
        simp [(r.machine.ran_step_eq_none_iff).mpr heffect.symm] at hran
      obtain ⟨hmachine, hpeaceful⟩ := h.next hran
      rw [advance_succ_of_ran k hran, ← hmachine]
      simpa [heffect] using ih hpeaceful

theorem events_advance (h : r.pace.delay = 0) (k : ℕ) :
    (r.advance k).2.events.toList = r.events.toList ++ (r.machine.walk k).events := by
  induction k generalizing r with
  | zero => simp [advance_zero, Machine.walk]
  | succ k ih =>
    rw [Machine.walk]
    cases hran : r.machine.step.ran with
    | none =>
      rw [advance_succ_of_halted k hran, (Machine.atRest_step hran).walk]
      simp [take]
    | some i =>
      rw [advance_succ_of_ran k hran, pause_of_delay_eq_zero (by exact h), ih (by exact h)]
      simp [take]

end Progress

end TapeMachine
