import TapeMachine.Machine.Run
import TapeMachine.Machine.Walk
import Mathlib.Tactic

/-!
# Listening

A listener without alarms only listens. With it a machine does what it does with a
listener to all channels, and what it reports are the events of the latter that the
listener hears.
-/
namespace TapeMachine

variable {l : Listener}

theorem Listener.filter_hears_heard (l : Listener) (s : Snapshot) :
    s.events.filter l.hears = l.heard s :=
  (l.heard_eq s).symm

namespace Machine

@[simp] theorem attach_attach (m : Machine) (l l' : Listener) :
    (m.attach l).attach l' = m.attach l' := rfl

theorem heed_attach (m : Machine) (l : Listener) : (m.attach l).heed = m.heed.attach l := by
  unfold heed cancel
  change (if m.cancelRequested then (if m.phase = .running then _ else _) else _) = _
  split
  · split <;> rfl
  · rfl

theorem wake_attach (m : Machine) (l : Listener) : (m.attach l).wake = m.wake.attach l := by
  unfold wake
  change (if m.phase = .idle then _ else _) = _
  split <;> rfl

end Machine

/-! ### What a listener makes of a report -/

/-- The same step with `l` as the listener, of whose events `l` hears some. -/
def Stepped.heardBy (s : Stepped) (l : Listener) : Stepped :=
  { s with machine := s.machine.attach l, events := s.events.filter l.hears }

def Walk.heardBy (w : Walk) (l : Listener) : Walk :=
  { w with machine := w.machine.attach l, events := w.events.filter l.hears }

def Progress.heardBy (r : Progress) (l : Listener) : Progress :=
  { r with
    machine := r.machine.attach l
    events := (r.events.toList.filter l.hears).toArray }

def Ended.heardBy (e : Ended) (l : Listener) : Ended :=
  { e with
    machine := e.machine.attach l
    events := (e.events.toList.filter l.hears).toArray }

namespace Machine

theorem execute_attach (hl : l.alarms = []) (m : Machine) (i : Instruction) :
    (m.attach l).execute i = ((m.attach .attentive).execute i).heardBy l := by
  have hnever : ∀ events, Listener.attentive.cancels events = false :=
    Listener.cancels_eq_false rfl
  simp [execute, attach, Stepped.heardBy, Listener.filter_hears_heard,
    Listener.after_eq_self hl, Listener.cancels_eq_false hl, hnever]

theorem step_attach (hl : l.alarms = []) (m : Machine) :
    (m.attach l).step = (m.attach .attentive).step.heardBy l := by
  have hget : ∀ l', (m.heed.attach l').program.get? (m.heed.attach l').store.pc =
      m.heed.program.get? m.heed.store.pc := fun _ => rfl
  rw [step, step, heed_attach, heed_attach, fetch, fetch, hget, hget]
  cases m.heed.program.get? m.heed.store.pc with
  | none => rfl
  | some i =>
    dsimp only
    rw [wake_attach, wake_attach, execute_attach hl]

theorem machine_step_attentive (m : Machine) :
    (m.attach .attentive).step.machine.attach .attentive = (m.attach .attentive).step.machine :=
  congrArg Stepped.machine (step_attach (l := .attentive) rfl m).symm

theorem walk_attach (hl : l.alarms = []) (m : Machine) (k : ℕ) :
    (m.attach l).walk k = ((m.attach .attentive).walk k).heardBy l := by
  induction k generalizing m with
  | zero => rfl
  | succ k ih =>
    have hrest := ih (m.attach .attentive).step.machine
    rw [machine_step_attentive] at hrest
    simp only [walk, step_attach hl, Stepped.heardBy, hrest]
    simp [Walk.heardBy]

end Machine

/-! ### Runs -/

namespace Progress

@[simp] theorem heardBy_attentive_heardBy (r : Progress) (l : Listener) :
    (r.heardBy .attentive).heardBy l = r.heardBy l := by
  simp [heardBy]

theorem take_heardBy (r : Progress) (s : Stepped) (l : Listener) :
    (r.take s).heardBy l = (r.heardBy l).take (s.heardBy l) := by
  simp [take, heardBy, Stepped.heardBy]

theorem pause_heardBy (r : Progress) (i : Instruction) (l : Listener) :
    (r.pause i).heardBy l = (r.heardBy l).pause i := by
  have hpaused : l.hears (.paused r.pace.delay) = true := rfl
  unfold pause
  change _ = if r.pace.delay ≠ 0 ∧ i.isVisible then _ else _
  split
  · by_cases hnow : r.pace.cancelAt = some 1 <;>
      simp [heardBy, hnow, hpaused, Machine.attach, Machine.requestCancel]
  · rfl

theorem step_heardBy (hl : l.alarms = []) (r : Progress) :
    (r.heardBy l).step =
      ((r.heardBy .attentive).step.1, (r.heardBy .attentive).step.2.heardBy l) := by
  have hstep : (r.heardBy l).machine.step = (r.heardBy .attentive).machine.step.heardBy l :=
    Machine.step_attach hl r.machine
  cases hran : (r.heardBy .attentive).machine.step.ran with
  | none =>
    have hran' : (r.heardBy l).machine.step.ran = none := by
      rw [hstep]
      exact hran
    rw [step_of_halted hran, step_of_halted hran', hstep, take_heardBy, heardBy_attentive_heardBy]
  | some i =>
    have hran' : (r.heardBy l).machine.step.ran = some i := by
      rw [hstep]
      exact hran
    rw [step_of_ran hran, step_of_ran hran', hstep, pause_heardBy, take_heardBy,
      heardBy_attentive_heardBy]

theorem heardBy_step_attentive (r : Progress) :
    (r.heardBy .attentive).step.2.heardBy .attentive = (r.heardBy .attentive).step.2 :=
  congrArg Prod.snd (step_heardBy (l := .attentive) rfl r).symm

theorem advance_heardBy (hl : l.alarms = []) (r : Progress) (k : ℕ) :
    (r.heardBy l).advance k =
      (((r.heardBy .attentive).advance k).1, ((r.heardBy .attentive).advance k).2.heardBy l) := by
  induction k generalizing r with
  | zero => simp [advance_zero]
  | succ k ih =>
    have hstep := step_heardBy hl r
    have hattentive := heardBy_step_attentive r
    cases hfull : (r.heardBy .attentive).step with
    | mk ended next =>
      rw [hfull] at hstep hattentive
      change next.heardBy .attentive = next at hattentive
      rw [advance_eq, advance_eq]
      cases ended with
      | true => rw [repeatUntil_succ_of_end k hstep, repeatUntil_succ_of_end k hfull]
      | false =>
        rw [repeatUntil_succ_of_not_end k hstep, repeatUntil_succ_of_not_end k hfull,
          ← advance_eq, ← advance_eq, ih next, hattentive]

end Progress

namespace Machine

theorem launch_attach (m : Machine) (l : Listener) (input : Array UInt8) (pace : Pace) :
    (m.attach l).launch input pace = (m.launch input pace).heardBy l := rfl

theorem advance_launch_attach (hl : l.alarms = []) (m : Machine) (input : Array UInt8)
    (pace : Pace) (k : ℕ) :
    ((m.attach l).launch input pace).advance k =
      ((((m.attach .attentive).launch input pace).advance k).1,
        (((m.attach .attentive).launch input pace).advance k).2.heardBy l) := by
  rw [launch_attach, launch_attach, Progress.advance_heardBy hl]

theorem runPaced_attach (hl : l.alarms = []) (m : Machine) (input : Array UInt8) (pace : Pace) :
    (m.attach l).runPaced input pace =
      ((m.attach .attentive).runPaced input pace).map (·.heardBy l) := by
  rw [runPaced_eq, runPaced_eq, advance_launch_attach hl]
  dsimp only
  split <;> rfl

theorem runWithin_attach (hl : l.alarms = []) (m : Machine) (input : Array UInt8)
    (limit : UInt64) :
    (m.attach l).runWithin input limit =
      ((m.attach .attentive).runWithin input limit).heardBy l := by
  unfold runWithin
  rw [advance_launch_attach hl]
  generalize ((m.attach .attentive).launch input .immediate).advance limit.toNat = out
  obtain ⟨ended, r⟩ := out
  dsimp only
  split
  · rfl
  · change (if r.machine.program.size ≤ r.machine.store.pc then _ else _) = _
    split <;> rfl

end Machine

end TapeMachine
