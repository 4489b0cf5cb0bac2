import TapeMachine.Proofs.Runs.Budget

/-!
# Runs in progress

The machines that a run goes through, each with the count of the `,` executed before it,
whatever cancels the run or listens to it on the way. What these machines have in common is
proved along this relation; the runs to the end, at any pace and within a limit go through
such machines only.
-/
namespace TapeMachine

namespace Progress

theorem atRest_of_ended {r : Progress} {k : ℕ} (h : (r.advance k).1 = true) :
    (r.advance k).2.machine.AtRest := by
  induction k with
  | zero => simp [advance_zero] at h
  | succ k ih =>
    rw [advance_succ] at h ⊢
    split at h
    · next hended =>
      rw [if_pos hended]
      exact ih hended
    · next hgoes =>
      rw [if_neg hgoes]
      cases hran : (r.advance k).2.machine.step.ran with
      | none =>
        rw [step_of_halted hran]
        exact Machine.atRest_step hran
      | some i => simp [step_of_ran hran] at h

/-- How many `,` a run executes in its first `n` steps. -/
def reads (r : Progress) (n : ℕ) : ℕ :=
  (List.range n).countP fun k => (r.advance k).2.machine.step.ran = some .read

theorem reads_succ (r : Progress) (n : ℕ) :
    r.reads (n + 1) =
      r.reads n + if (r.advance n).2.machine.step.ran = some .read then 1 else 0 := by
  simp [reads, List.range_succ, List.countP_append, List.countP_singleton]

end Progress

namespace Machine

variable {m m' : Machine} {input : Array UInt8} {pace : Pace} {e : Ended} {k : ℕ}

/-- A run of `m` on `input` has come to `m'`, and `k` of its steps have executed a `,`. Between
the steps the run may be cancelled in either way, the listener may change, and the machine may
be halted at the end of its program. -/
inductive Underway (m : Machine) (input : Array UInt8) : Machine → ℕ → Prop
  | start : Underway m input (m.start input) 0
  | step {m' : Machine} {k : ℕ} (h : Underway m input m' k) :
      Underway m input m'.step.machine (k + if m'.step.ran = some .read then 1 else 0)
  | halt {m' : Machine} {k : ℕ} (h : Underway m input m' k)
      (hend : m'.program.size ≤ m'.store.pc) : Underway m input m'.halt k
  | cancel {m' : Machine} {k : ℕ} (h : Underway m input m' k) : Underway m input m'.cancel k
  | requestCancel {m' : Machine} {k : ℕ} (h : Underway m input m' k) :
      Underway m input m'.requestCancel k
  | attach {m' : Machine} {k : ℕ} (h : Underway m input m' k) (listener : Listener) :
      Underway m input (m'.attach listener) k

theorem Underway.setup_eq (h : m.Underway input m' k) : m'.setup = m.setup := by
  induction h with
  | start => rfl
  | step h ih => rwa [setup_step]
  | halt h hend ih | requestCancel h ih | attach h listener ih => exact ih
  | cancel h ih => rcases cancel_cases _ with hcancel | hcancel <;> rwa [hcancel]

theorem Underway.program_eq (h : m.Underway input m' k) : m'.program = m.program := by
  induction h with
  | start => rfl
  | step h ih => rwa [program_step]
  | halt h hend ih | requestCancel h ih | attach h listener ih => exact ih
  | cancel h ih => rcases cancel_cases _ with hcancel | hcancel <;> rwa [hcancel]

theorem Underway.pause {r : Progress} (h : m.Underway input r.machine k) (x : Instruction) :
    m.Underway input (r.pause x).machine k := by
  rcases r.machine_pause_cases x with hpause | hpause
  · rwa [hpause]
  · rw [hpause]
    exact h.requestCancel

theorem underway_advance (m : Machine) (input : Array UInt8) (pace : Pace) (n : ℕ) :
    m.Underway input ((m.launch input pace).advance n).2.machine
      ((m.launch input pace).reads n) := by
  induction n with
  | zero =>
    rw [Progress.advance_zero]
    exact .start
  | succ n ih =>
    rw [Progress.advance_succ, Progress.reads_succ]
    cases hended : ((m.launch input pace).advance n).1 with
    | true =>
      have hrest := Progress.atRest_of_ended hended
      simpa [hrest.step] using ih
    | false =>
      have hnext := ih.step
      cases hran : ((m.launch input pace).advance n).2.machine.step.ran with
      | none =>
        rw [hran] at hnext
        rw [if_neg Bool.false_ne_true, Progress.step_of_halted hran]
        exact hnext
      | some x =>
        rw [hran] at hnext
        rw [if_neg Bool.false_ne_true, Progress.step_of_ran hran]
        exact hnext.pause (r := ((m.launch input pace).advance n).2.take _) x

theorem underway_runPaced (hrun : m.runPaced input pace = some e) :
    m.Underway input e.machine ((m.launch input pace).reads UInt64.size) := by
  obtain ⟨-, rfl⟩ := runPaced_eq_some_iff.mp hrun
  exact m.underway_advance input pace UInt64.size

theorem underway_runWithin (m : Machine) (input : Array UInt8) (limit : UInt64) :
    m.Underway input (m.runWithin input limit).machine
      ((m.launch input .immediate).reads limit.toNat) := by
  have hwalk := m.underway_advance input .immediate limit.toNat
  rw [(m.advance_launch_immediate input limit.toNat).1] at hwalk
  rw [runWithin_eq]
  dsimp only
  split
  · next hend =>
    apply hwalk.halt
    rwa [program_walk]
  · exact hwalk

end Machine

end TapeMachine
