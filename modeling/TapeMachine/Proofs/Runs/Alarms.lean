import TapeMachine.Proofs.Machine.Course
import TapeMachine.Proofs.Runs.Cancellation

/-!
# When alarms go off

Alarms count down with every event that is heard, so the first request for cancellation
that they make can be read off the events of the run that nobody cancels: it comes with the
first instruction by which an alarm is due. Until then nobody asks.
-/
namespace TapeMachine

variable {r : Progress} {k : ℕ}

/-! ### Counting in parts -/

theorem Alarm.counted_append (a : Alarm) (xs ys : List Event) :
    a.counted (xs ++ ys) = a.counted xs + a.counted ys :=
  List.countP_append

theorem Alarm.due_append (a : Alarm) (xs ys : List Event) :
    a.due (xs ++ ys) = (a.due xs || (a.after xs).due ys) := by
  have hcounted : (a.after xs).counted ys = a.counted ys := rfl
  have hremaining : (a.after xs).remaining = a.remaining - a.counted xs := rfl
  rw [Bool.eq_iff_iff, Bool.or_eq_true]
  simp only [due, hcounted, hremaining, counted_append, decide_eq_true_eq]
  omega

theorem Alarm.counted_steps_heard {l : Listener} (hl : l.steps = true) (s : Snapshot) (n : ℕ) :
    (⟨.steps, n⟩ : Alarm).counted (l.heard s) = 1 := by
  rw [counted, l.heard_eq, Snapshot.events, List.filter_append, List.countP_append]
  have hexecuted : l.hears (.executed s) = true := hl
  cases s.effect with
  | moved | changed | wrote =>
    simp only [Effect.event?, Option.toList_some, List.filter_cons, List.filter_nil, hexecuted]
    split <;> rfl
  | read | jumped | passed | ignored | halted =>
    simp [Effect.event?, Event.channel?, hexecuted]

theorem Alarm.counted_output_heard {l : Listener} (hl : l.output = true) (s : Snapshot) (n : ℕ) :
    (⟨.output, n⟩ : Alarm).counted (l.heard s) = s.written.length := by
  rw [counted, l.heard_eq, Snapshot.events, List.filter_append, List.countP_append,
    Snapshot.written]
  have hexecuted : ([Event.executed s].filter l.hears).countP
      (fun e => e.channel? = some .output) = 0 := by
    simp only [List.filter_cons, List.filter_nil]
    split <;> rfl
  rw [hexecuted]
  cases s.effect with
  | wrote byte =>
    have hwrote : l.hears (.wrote byte) = true := hl
    simp [Effect.event?, Event.channel?, hwrote]
  | moved | changed =>
    simp only [Effect.event?, Option.toList_some, List.filter_cons, List.filter_nil]
    split <;> rfl
  | read | jumped | passed | ignored | halted => rfl

theorem Alarm.counted_steps_flatMap {l : Listener} (hl : l.steps = true)
    (executed : List Snapshot) (n : ℕ) :
    (⟨.steps, n⟩ : Alarm).counted (executed.flatMap l.heard) = executed.length := by
  induction executed with
  | nil => rfl
  | cons s executed ih =>
    rw [List.flatMap_cons, counted_append, ih, counted_steps_heard hl, List.length_cons,
      Nat.add_comm]

theorem Alarm.counted_output_flatMap {l : Listener} (hl : l.output = true)
    (executed : List Snapshot) (n : ℕ) :
    (⟨.output, n⟩ : Alarm).counted (executed.flatMap l.heard) =
      (executed.flatMap Snapshot.written).length := by
  induction executed with
  | nil => rfl
  | cons s executed ih =>
    rw [List.flatMap_cons, counted_append, ih, counted_output_heard hl, List.flatMap_cons,
      List.length_append]

theorem Listener.cancels_append (l : Listener) (xs ys : List Event) :
    l.cancels (xs ++ ys) = (l.cancels xs || (l.after xs).cancels ys) := by
  rw [Bool.eq_iff_iff, Bool.or_eq_true]
  simp only [cancels, after, List.any_map, List.any_eq_true, Alarm.due_append, Bool.or_eq_true,
    Function.comp_apply, and_or_left, exists_or]

namespace Progress

/-- What is heard of the instructions that a run executes in up to `k` steps, if nobody
cancels it. -/
def heard (r : Progress) (k : ℕ) : List Event :=
  (r.machine.store.course r.machine.setup.io r.machine.program k).flatMap r.machine.listener.heard

theorem cancelRequested_advance (hrun : r.machine.phase = .running)
    (hcalm : r.machine.cancelRequested = false) (hpace : r.pace.cancelAt = none)
    (h : ∀ j < k, r.machine.listener.cancels (r.heard j) = false) :
    (r.advance k).2.machine.cancelRequested = r.machine.listener.cancels (r.heard k) := by
  induction k generalizing r with
  | zero => simp [advance_zero, heard, Store.course, hcalm]
  | succ k ih =>
    cases hget : r.machine.program.get? r.machine.store.pc with
    | none =>
      have hstep := Machine.step_at_end hcalm hget
      rw [advance_succ_of_halted k (by rw [hstep]), hstep, heard, Store.course_of_end hget]
      simp [take, Machine.halt, hcalm]
    | some i =>
      have hstep := Machine.step_of_running r.machine hrun hcalm hget
      obtain ⟨hmachine, hcancelAt⟩ := @pause_of_cancelAt_none (r.take r.machine.step) hpace i
      have hnext : ((r.take r.machine.step).pause i).machine = (r.machine.execute i).machine := by
        rw [hmachine, hstep]
        rfl
      let first := r.machine.listener.heard
        (r.machine.store.report r.machine.setup.io r.machine.program i)
      have hlistener : ((r.take r.machine.step).pause i).machine.listener =
          r.machine.listener.after first := by
        rw [hnext]
        rfl
      have hrequested : ((r.take r.machine.step).pause i).machine.cancelRequested =
          r.machine.listener.cancels first := by
        rw [hnext]
        change (r.machine.cancelRequested || _) = _
        rw [hcalm, Bool.false_or]
        rfl
      have hheard (j : ℕ) : r.heard (j + 1) =
          first ++ ((r.take r.machine.step).pause i).heard j := by
        rw [heard, Store.course_of_get? hget, List.flatMap_cons, heard, hlistener,
          Listener.heard_after, hnext]
        rfl
      rw [advance_succ_of_ran (i := i) k (by rw [hstep]; rfl), hheard, Listener.cancels_append,
        ← hrequested, ← hlistener]
      cases k with
      | zero => simp [advance_zero, heard, Store.course]
      | succ k =>
        have hquiet : ((r.take r.machine.step).pause i).machine.cancelRequested = false := by
          have hone := h 1 (by omega)
          rw [hheard, Listener.cancels_append, Bool.or_eq_false_iff, ← hrequested] at hone
          exact hone.1
        rw [hquiet, Bool.false_or]
        apply ih (by rw [hnext]; exact hrun) hquiet hcancelAt
        intro j hj
        have hlater := h (j + 1) (Nat.succ_lt_succ hj)
        rw [hheard, Listener.cancels_append, Bool.or_eq_false_iff, ← hlistener] at hlater
        exact hlater.2

section

variable (hrun : r.machine.phase = .running) (hcalm : r.machine.cancelRequested = false)
  (hpace : r.pace.cancelAt = none)
include hrun hcalm hpace

theorem calm_of_not_due (h : ∀ j < k, r.machine.listener.cancels (r.heard j) = false) :
    ∀ j < k, (r.advance j).2.machine.cancelRequested = false := by
  intro j hj
  rw [cancelRequested_advance hrun hcalm hpace fun i hi => h i (hi.trans hj)]
  exact h j hj

/-- The first request comes with the instruction by which an alarm is due. -/
theorem firstRequest_of_due (hbefore : ∀ j < k, r.machine.listener.cancels (r.heard j) = false)
    (hdue : r.machine.listener.cancels (r.heard k) = true) : r.FirstRequest k :=
  ⟨calm_of_not_due hrun hcalm hpace hbefore,
    (cancelRequested_advance hrun hcalm hpace hbefore).trans hdue⟩

end

end Progress

end TapeMachine
