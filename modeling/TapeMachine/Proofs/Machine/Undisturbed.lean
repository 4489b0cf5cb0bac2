import TapeMachine.Machine.Run
import TapeMachine.Machine.Walk
import TapeMachine.Proofs.Machine.Execution

/-!
# Runs that nobody cancels

While nobody asks for cancellation, a running machine does on each step what its
store does, whoever listens. Stepping by hand and running then come to the same
store, and the run ends exactly if the steps of the store do.
-/
namespace TapeMachine

namespace Machine

/-- However often the machine is stepped, nobody asks for cancellation. -/
def Undisturbed (m : Machine) : Prop :=
  ∀ k, (m.walk k).machine.cancelRequested = false

variable {m : Machine}

theorem Undisturbed.cancelRequested (h : m.Undisturbed) : m.cancelRequested = false :=
  h 0

theorem Undisturbed.step (h : m.Undisturbed) : m.step.machine.Undisturbed :=
  fun k => h (k + 1)

theorem step_at_end (hreq : m.cancelRequested = false)
    (hget : m.program.get? m.store.pc = none) : m.step = ⟨m.halt, none, .halted, []⟩ := by
  have hheed := heed_of_not_requested m hreq
  have hend : m.program.get? m.heed.store.pc = none := by
    rw [hheed]
    exact hget
  rw [step_of_end hend, hheed]

/-- One step of a running machine: at the end of the program it halts, before that
it executes the next instruction. -/
theorem Undisturbed.step_cases (h : m.Undisturbed) (hrun : m.phase = .running) :
    (m.program.get? m.store.pc = none ∧ m.step = ⟨m.halt, none, .halted, []⟩) ∨
      ∃ i, m.program.get? m.store.pc = some i ∧ m.step = m.execute i := by
  cases hget : m.program.get? m.store.pc with
  | none => exact .inl ⟨rfl, step_at_end h.cancelRequested hget⟩
  | some i => exact .inr ⟨i, rfl, step_of_running m hrun h.cancelRequested hget⟩

theorem undisturbed_of_alarms (halarms : m.listener.alarms = []) (hrun : m.phase ≠ .idle)
    (hreq : m.cancelRequested = false) : m.Undisturbed := by
  intro k
  induction k generalizing m with
  | zero => exact hreq
  | succ k ih =>
    change (m.step.machine.walk k).machine.cancelRequested = false
    cases hget : m.program.get? m.store.pc with
    | none =>
      rw [step_at_end hreq hget]
      exact ih halarms (by simp [halt]) hreq
    | some i =>
      have hstep : m.step = m.execute i := by
        rw [Machine.step, heed_of_not_requested m hreq, fetch, hget, wake, if_neg hrun]
      rw [hstep]
      apply ih
      · simp [execute, Listener.after, halarms]
      · exact hrun
      · simp [execute, hreq, Listener.cancels_eq_false halarms]

theorem Undisturbed.store_walk_of_end (h : m.Undisturbed)
    (hget : m.program.get? m.store.pc = none) (k : ℕ) : (m.walk k).machine.store = m.store := by
  induction k generalizing m with
  | zero => rfl
  | succ k ih =>
    have hnext := h.step
    change (m.step.machine.walk k).machine.store = m.store
    rw [step_at_end h.cancelRequested hget] at hnext ⊢
    exact ih hnext hget

theorem Undisturbed.walk_eq (h : m.Undisturbed) (hrun : m.phase = .running) (k : ℕ) :
    (m.walk k).machine.store = (repeatUntil (Store.step m.setup.io m.program) k m.store).2 ∧
      (.halted ∈ (m.walk k).effects ↔
        (repeatUntil (Store.step m.setup.io m.program) k m.store).1 = true) := by
  induction k generalizing m with
  | zero => simp [walk]
  | succ k ih =>
    have hnext := h.step
    simp only [walk, List.mem_cons]
    rcases h.step_cases hrun with ⟨hget, hstep⟩ | ⟨i, hget, hstep⟩
    · rw [hstep] at hnext ⊢
      rw [repeatUntil_succ_of_end k (Store.step_of_end hget)]
      exact ⟨hnext.store_walk_of_end hget k, by simp⟩
    · rw [hstep] at hnext ⊢
      obtain ⟨hstore, heffects⟩ := ih hnext hrun
      rw [repeatUntil_succ_of_not_end k (Store.step_of_get? hget)]
      refine ⟨hstore, ?_⟩
      rw [heffects]
      have hne : (.halted : Effect) ≠ (m.execute i).effect :=
        (m.store.execute_ne_halted m.setup.io m.program i).symm
      simp [hne]
      rfl

end Machine

namespace Progress

variable {r : Progress}

theorem pause_of_cancelAt_none (h : r.pace.cancelAt = none) (i : Instruction) :
    (r.pause i).machine = r.machine ∧ (r.pause i).pace.cancelAt = none := by
  unfold pause
  split
  · simp [h, Pace.afterPause]
  · exact ⟨rfl, h⟩

/-- A run goes through the steps of the store and halts where they end. -/
theorem advance_undisturbed (h : r.machine.Undisturbed) (hrun : r.machine.phase = .running)
    (hpace : r.pace.cancelAt = none) (k : ℕ) :
    (r.advance k).1 =
        (repeatUntil (Store.step r.machine.setup.io r.machine.program) k r.machine.store).1 ∧
      (r.advance k).2.machine.store =
        (repeatUntil (Store.step r.machine.setup.io r.machine.program) k r.machine.store).2 ∧
      (r.advance k).2.machine.cancelled = r.machine.cancelled ∧
      ((r.advance k).1 = true → (r.advance k).2.machine.phase = .halted) := by
  induction k generalizing r with
  | zero => simp [advance_zero]
  | succ k ih =>
    have hnext := h.step
    rcases h.step_cases hrun with ⟨hget, hstep⟩ | ⟨i, hget, hstep⟩
    · rw [advance_succ_of_halted k (by rw [hstep]),
        repeatUntil_succ_of_end k (Store.step_of_end hget), hstep]
      exact ⟨rfl, rfl, rfl, fun _ => rfl⟩
    · obtain ⟨hmachine, hcancelAt⟩ := @pause_of_cancelAt_none (r.take r.machine.step) hpace i
      have hmachine' : ((r.take r.machine.step).pause i).machine =
          (r.machine.execute i).machine := by
        rw [hmachine, hstep]
        rfl
      rw [hstep] at hnext
      have hrest := @ih ((r.take r.machine.step).pause i) (by rw [hmachine']; exact hnext)
        (by rw [hmachine']; exact hrun) hcancelAt
      rw [advance_succ_of_ran (i := i) k (by rw [hstep]; rfl),
        repeatUntil_succ_of_not_end k (Store.step_of_get? hget)]
      rw [hmachine'] at hrest
      exact hrest

end Progress

end TapeMachine
