import TapeMachine.Proofs.Machine.Undisturbed
import TapeMachine.Proofs.Machine.Stepping

/-!
# The course of a run

The instructions that a run executes, each with the tape and the output after it. The
course depends on the program and the store alone. The step counter and the output can
be read off it, and so can everything that a run reports while nobody cancels it.
-/
namespace TapeMachine

def Snapshot.written (s : Snapshot) : List UInt8 :=
  match s.effect with
  | .wrote byte => [byte]
  | _ => []

namespace Store

variable {io : Bool} {p : Program} {s : Store} {x : Instruction} {j k : ℕ}

/-- What an instruction reports that is executed next. -/
def report (s : Store) (io : Bool) (p : Program) (x : Instruction) : Snapshot :=
  (s.execute io p x).2.snapshot s.pc x (s.execute io p x).1

/-- The instructions that are executed in up to `count` steps, in order. -/
def course (io : Bool) (p : Program) : (count : ℕ) → Store → List Snapshot
  | 0, _ => []
  | count + 1, s =>
    match p.get? s.pc with
    | some x => s.report io p x :: course io p count (s.execute io p x).2
    | none => []

theorem course_of_get? (h : p.get? s.pc = some x) (k : ℕ) :
    s.course io p (k + 1) = s.report io p x :: (s.execute io p x).2.course io p k := by
  rw [course, h]

theorem course_of_end (h : p.get? s.pc = none) (k : ℕ) : s.course io p k = [] := by
  cases k with
  | zero => rfl
  | succ k => rw [course, h]

theorem course_add (s : Store) (io : Bool) (p : Program) (a b : ℕ) :
    s.course io p (a + b) =
      s.course io p a ++
        if (repeatUntil (Store.step io p) a s).1 then []
        else (repeatUntil (Store.step io p) a s).2.course io p b := by
  induction a generalizing s with
  | zero => simp [course]
  | succ a ih =>
    rw [Nat.succ_add]
    cases hget : p.get? s.pc with
    | none =>
      rw [course_of_end hget, course_of_end hget, repeatUntil_succ_of_end a (step_of_end hget)]
      rfl
    | some x =>
      rw [course_of_get? hget, course_of_get? hget, ih,
        repeatUntil_succ_of_not_end a (step_of_get? hget), List.cons_append]

theorem take_course (s : Store) (io : Bool) (p : Program) (h : j ≤ k) :
    (s.course io p k).take j = s.course io p j := by
  induction k generalizing s j with
  | zero => rw [Nat.le_zero.mp h, List.take_zero, course]
  | succ k ih =>
    cases j with
    | zero => rw [List.take_zero, course]
    | succ j =>
      cases hget : p.get? s.pc with
      | none => rw [course_of_end hget, course_of_end hget, List.take_nil]
      | some x =>
        rw [course_of_get? hget, course_of_get? hget, List.take_succ_cons,
          ih _ (Nat.le_of_succ_le_succ h)]

theorem length_course_le (s : Store) (io : Bool) (p : Program) (k : ℕ) :
    (s.course io p k).length ≤ k := by
  rw [← take_course s io p le_rfl, List.length_take]
  exact min_le_left _ _

theorem length_course (h : (repeatUntil (Store.step io p) k s).1 = false) :
    (s.course io p k).length = k := by
  induction k generalizing s with
  | zero => rfl
  | succ k ih =>
    cases hget : p.get? s.pc with
    | none => simp [repeatUntil_succ_of_end k (step_of_end hget)] at h
    | some x =>
      rw [repeatUntil_succ_of_not_end k (step_of_get? hget)] at h
      rw [course_of_get? hget, List.length_cons, ih h]

theorem steps_repeatUntil (s : Store) (io : Bool) (p : Program) (k : ℕ) :
    (repeatUntil (Store.step io p) k s).2.steps =
      s.steps + UInt64.ofNat (s.course io p k).length := by
  induction k generalizing s with
  | zero => exact (UInt64.add_zero _).symm
  | succ k ih =>
    cases hget : p.get? s.pc with
    | none =>
      rw [repeatUntil_succ_of_end k (step_of_end hget), course_of_end hget]
      exact (UInt64.add_zero _).symm
    | some x =>
      rw [repeatUntil_succ_of_not_end k (step_of_get? hget), ih, steps_execute,
        course_of_get? hget, List.length_cons, Nat.add_comm _ 1, UInt64.ofNat_add, UInt64.add_assoc]
      rfl

theorem output_execute (s : Store) (io : Bool) (p : Program) (x : Instruction) :
    (s.execute io p x).2.output.toList = s.output.toList ++ (s.report io p x).written := by
  cases x with
  | moveRight | moveLeft | increment | decrement => exact (List.append_nil _).symm
  | write | read =>
    cases io <;> simp [report, execute, perform, proceed, snapshot, Snapshot.written]
  | loopStart | loopEnd =>
    simp only [report, execute, perform, proceed, jump, snapshot]
    split <;> exact (List.append_nil _).symm

theorem output_repeatUntil (s : Store) (io : Bool) (p : Program) (k : ℕ) :
    (repeatUntil (Store.step io p) k s).2.output.toList =
      s.output.toList ++ (s.course io p k).flatMap Snapshot.written := by
  induction k generalizing s with
  | zero => exact (List.append_nil _).symm
  | succ k ih =>
    cases hget : p.get? s.pc with
    | none =>
      rw [repeatUntil_succ_of_end k (step_of_end hget), course_of_end hget]
      exact (List.append_nil _).symm
    | some x =>
      rw [repeatUntil_succ_of_not_end k (step_of_get? hget), ih, output_execute,
        course_of_get? hget, List.flatMap_cons, List.append_assoc]

end Store

namespace Machine

variable {m : Machine} {n k : ℕ}

theorem Undisturbed.length_course (hcalm : m.Undisturbed) (hrun : m.phase = .running)
    (hn : m.HaltsAfter n) (k : ℕ) :
    (m.store.course m.setup.io m.program k).length = min n k ∧
      (n ≤ k → m.store.course m.setup.io m.program k = m.store.course m.setup.io m.program n) := by
  have hended : ∀ j, (repeatUntil (Store.step m.setup.io m.program) j m.store).1 = true ↔ n < j :=
    fun j => (hcalm.walk_eq hrun j).2.symm.trans hn.halted_mem_iff
  have hgoes : ∀ j ≤ n,
      (repeatUntil (Store.step m.setup.io m.program) j m.store).1 = false := by
    intro j hj
    rw [← Bool.not_eq_true, hended]
    exact hj.not_gt
  have hend : m.program.get? (repeatUntil (Store.step m.setup.io m.program) n m.store).2.pc =
      none := by
    have hlast := (hended (n + 1)).mpr (Nat.lt_succ_self n)
    rw [repeatUntil_succ, hgoes n le_rfl, if_neg Bool.false_ne_true] at hlast
    cases hget : m.program.get? (repeatUntil (Store.step m.setup.io m.program) n m.store).2.pc with
    | none => rfl
    | some x => simp [Store.step_of_get? hget] at hlast
  have hstays : n ≤ k → m.store.course m.setup.io m.program k =
      m.store.course m.setup.io m.program n := by
    intro hle
    obtain ⟨l, rfl⟩ := Nat.exists_eq_add_of_le hle
    rw [Store.course_add, Store.course_of_end hend, ite_self, List.append_nil]
  refine ⟨?_, hstays⟩
  rcases le_total k n with hle | hle
  · rw [Store.length_course (hgoes k hle), min_eq_right hle]
  · rw [hstays hle, Store.length_course (hgoes n le_rfl), min_eq_left hle]

end Machine

/-! ### What a run reports -/

/-- The pause after an instruction, in a run with the given delay. -/
def Instruction.pauses (i : Instruction) (delay : ℕ) : List Event :=
  if delay ≠ 0 ∧ i.isVisible then [.paused delay] else []

namespace Progress

variable {r : Progress}

theorem events_pause (r : Progress) (i : Instruction) :
    (r.pause i).events.toList = r.events.toList ++ i.pauses r.pace.delay ∧
      (r.pause i).pace.delay = r.pace.delay := by
  unfold pause Instruction.pauses
  split
  · simp [Pace.afterPause]
  · simp

/-- While nobody cancels it, a run reports what is heard of each instruction of its course
and the pause after it. -/
theorem events_advance_eq (halarms : r.machine.listener.alarms = [])
    (hrun : r.machine.phase = .running) (hreq : r.machine.cancelRequested = false)
    (hpace : r.pace.cancelAt = none) (k : ℕ) :
    (r.advance k).2.events.toList =
      r.events.toList ++ (r.machine.store.course r.machine.setup.io r.machine.program k).flatMap
        fun s => r.machine.listener.heard s ++ s.instruction.pauses r.pace.delay := by
  induction k generalizing r with
  | zero => simp [advance_zero, Store.course]
  | succ k ih =>
    cases hget : r.machine.program.get? r.machine.store.pc with
    | none =>
      have hstep := Machine.step_at_end hreq hget
      rw [advance_succ_of_halted k (by rw [hstep]), Store.course_of_end hget, hstep]
      simp [take]
    | some i =>
      have hstep := Machine.step_of_running r.machine hrun hreq hget
      have hlistener : (r.machine.execute i).machine.listener = r.machine.listener :=
        Listener.after_eq_self halarms _
      have hcalm : (r.machine.execute i).machine.cancelRequested = false := by
        simp [Machine.execute, hreq, Listener.cancels_eq_false halarms]
      obtain ⟨hmachine, hcancelAt⟩ := @pause_of_cancelAt_none (r.take r.machine.step) hpace i
      obtain ⟨hevents, hdelay⟩ := events_pause (r.take r.machine.step) i
      have hnext : ((r.take r.machine.step).pause i).machine = (r.machine.execute i).machine := by
        rw [hmachine, hstep]
        rfl
      rw [advance_succ_of_ran (i := i) k (by rw [hstep]; rfl),
        ih (by rw [hnext, hlistener, halarms]) (by rw [hnext]; exact hrun) (by rw [hnext, hcalm])
          hcancelAt,
        hnext, hlistener, hevents, hdelay, hstep, Store.course_of_get? hget, List.flatMap_cons]
      simp [take, Machine.execute, Store.report, Store.snapshot]

end Progress

end TapeMachine
