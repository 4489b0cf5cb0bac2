import TapeMachine.Proofs.CommandLine.RunCommand
import TapeMachine.Proofs.Machine.Listening

/-!
# Displaying a run while it goes on

A run that is displayed live puts out each step at once, on a screen of its own, and learns
only from the write itself that a byte is lost. By its end it has put out what the displayed
run leaves that has one screen for all its steps, and that knows of a full output from the
beginning and has an alarm for it.
-/
namespace TapeMachine

/-! ### One more alarm -/

namespace Listener

variable (l : Listener) (n : ℕ) (events : List Event)

/-- The listener with one more alarm, on the output. -/
def alert : Listener :=
  { l with alarms := l.alarms ++ [⟨.output, n⟩] }

@[simp] theorem heard_alert : (l.alert n).heard = l.heard := rfl

@[simp] theorem cancels_alert :
    (l.alert n).cancels events = (l.cancels events || (⟨.output, n⟩ : Alarm).due events) := by
  simp [alert, cancels]

@[simp] theorem after_alert :
    (l.alert n).after events =
      (l.after events).alert ((⟨.output, n⟩ : Alarm).after events).remaining := by
  simp [alert, after, Alarm.after]

end Listener

namespace Machine

variable (m : Machine) (n : ℕ)

@[simp] theorem listener_heed : m.heed.listener = m.listener := by
  unfold heed cancel
  split
  · split <;> rfl
  · rfl

@[simp] theorem listener_wake : m.wake.listener = m.listener := by
  unfold wake
  split <;> rfl

variable {m} in
theorem events_step_of_halted (h : m.step.ran = none) : m.step.events = [] := by
  unfold step fetch at h ⊢
  split at h
  · cases h
  · rfl

variable {m} in
theorem exists_events_step_of_ran {i : Instruction} (h : m.step.ran = some i) :
    ∃ s, m.step.events = m.listener.heard s := by
  unfold step fetch at h ⊢
  split at h
  · exact ⟨_, by rw [← listener_heed, ← listener_wake]; rfl⟩
  · cases h

def alert : Machine :=
  m.attach (m.listener.alert n)

/-- One more alarm changes nothing about a step but what comes of the alarm itself. -/
theorem step_alert :
    (m.alert n).step =
      { m.step with machine :=
          { m.step.machine with
            cancelRequested := m.step.machine.cancelRequested ||
              (⟨.output, n⟩ : Alarm).due m.step.events
            listener := m.step.machine.listener.alert
              ((⟨.output, n⟩ : Alarm).after m.step.events).remaining } } := by
  have hget : (m.heed.attach (m.listener.alert n)).program.get?
      (m.heed.attach (m.listener.alert n)).store.pc = m.heed.program.get? m.heed.store.pc := rfl
  rw [alert, step, step, heed_attach, fetch, fetch, hget]
  cases m.heed.program.get? m.heed.store.pc with
  | none =>
    have hnone : (⟨.output, n⟩ : Alarm).due [] = false := by
      simp [Alarm.due, Alarm.counted]
      omega
    simp [halt, attach, hnone, Alarm.after, Alarm.counted]
  | some i =>
    dsimp only
    rw [wake_attach]
    simp [execute, attach, Bool.or_assoc]

end Machine

namespace CommandLine

variable {w : Surroundings} {r : Progress}

/-! ### An alarm for the first byte -/

theorem counted_output (n : ℕ) (events : List Event) :
    (⟨.output, n⟩ : Alarm).counted events = (events.flatMap written).length := by
  induction events with
  | nil => rfl
  | cons e events ih =>
    have hone : (⟨.output, n⟩ : Alarm).counted [e] = (written e).length := by cases e <;> rfl
    rw [← List.singleton_append, Alarm.counted_append, ih, hone, List.singleton_append,
      List.flatMap_cons, List.length_append]

theorem machine_step_alert (m : Machine) :
    (m.alert 1).step =
      if m.step.events.flatMap written = [] then { m.step with machine := m.step.machine.alert 1 }
      else { m.step with machine := m.step.machine.requestCancel.alert 0 } := by
  have hdue : (⟨.output, 1⟩ : Alarm).due m.step.events =
      decide (m.step.events.flatMap written ≠ []) := by
    simp [Alarm.due, counted_output, Nat.one_le_iff_ne_zero, -List.length_flatMap]
  have hremaining : ((⟨.output, 1⟩ : Alarm).after m.step.events).remaining =
      1 - (m.step.events.flatMap written).length := by
    rw [Alarm.after, counted_output]
  rw [Machine.step_alert, hdue, hremaining]
  by_cases h : m.step.events.flatMap written = []
  · simp [h, Machine.alert, Machine.attach]
  · rw [Nat.sub_eq_zero_of_le (List.length_pos_iff.mpr h)]
    simp [h, Machine.alert, Machine.attach, Machine.requestCancel]

def alert (r : Progress) (n : ℕ) : Progress :=
  { r with machine := r.machine.alert n }

theorem pause_alert (hcalm : r.pace.cancelAt = none) (i : Instruction) (n : ℕ) :
    (alert r n).pause i = alert (r.pause i) n := by
  by_cases hpause : r.pace.delay ≠ 0 ∧ i.isVisible = true
  · simp [Progress.pause, alert, hpause, hcalm]
  · simp [Progress.pause, alert, hpause]

theorem pause_requestCancel (hcalm : r.pace.cancelAt = none) (i : Instruction) :
    r.requestCancel.pause i = (r.pause i).requestCancel := by
  by_cases hpause : r.pace.delay ≠ 0 ∧ i.isVisible = true
  · simp [Progress.pause, Progress.requestCancel, hpause, hcalm]
  · simp [Progress.pause, Progress.requestCancel, hpause]

theorem flatMap_events_pause {β : Type} {f : Event → List β} (hf : ∀ delay, f (.paused delay) = [])
    (r : Progress) (i : Instruction) :
    (r.pause i).events.toList.flatMap f = r.events.toList.flatMap f := by
  rw [(r.events_pause i).1, List.flatMap_append, flatMap_pauses hf, List.append_nil]

theorem events_take (hevents : r.events = #[]) (stepped : Stepped) :
    (r.take stepped).events.toList = stepped.events := by
  simp [Progress.take, hevents]

theorem step_alert (hcalm : r.pace.cancelAt = none) (hevents : r.events = #[]) :
    (alert r 1).step =
      (r.step.1, if r.step.2.events.toList.flatMap written = [] then alert r.step.2 1
        else alert r.step.2.requestCancel 0) := by
  have hstep : (alert r 1).machine.step = _ := machine_step_alert r.machine
  have hran : (alert r 1).machine.step.ran = r.machine.step.ran := by
    rw [hstep]
    split <;> rfl
  have htake : (alert r 1).take (alert r 1).machine.step =
      if r.machine.step.events.flatMap written = [] then alert (r.take r.machine.step) 1
      else alert (r.take r.machine.step).requestCancel 0 := by
    rw [hstep]
    split <;> rfl
  cases hi : r.machine.step.ran with
  | none =>
    rw [Progress.step_of_halted hi, Progress.step_of_halted (hran.trans hi), htake,
      events_take hevents]
  | some i =>
    rw [Progress.step_of_ran hi, Progress.step_of_ran (hran.trans hi), htake,
      flatMap_events_pause fun _ => rfl, events_take hevents]
    have hcalm' : (r.take r.machine.step).pace.cancelAt = none := hcalm
    have hcalm'' : (r.take r.machine.step).requestCancel.pace.cancelAt = none := hcalm
    split
    · rw [pause_alert hcalm']
    · rw [pause_alert hcalm'', pause_requestCancel hcalm']

/-! ### Screens -/

/-- Below what is on a screen stands what is on another. -/
def Screen.append (s t : Screen) : Screen :=
  ⟨s.written ++ t.written, s.shown ++ t.shown⟩

theorem Screen.addAll_append (s t : Screen) (events : Array Event) :
    (s.append t).addAll w events = s.append (t.addAll w events) := by
  rw [addAll, addAll, ← Array.foldl_toList, ← Array.foldl_toList]
  induction events.toList generalizing t with
  | nil => rfl
  | cons e events ih =>
    have hwritten : s.written ++ t.written ++ CommandLine.written e =
        s.written ++ (t.written ++ CommandLine.written e) := by
      apply Array.toList_inj.mp
      simp
    have hadd : (s.append t).add w e = s.append (t.add w e) := by
      simp [append, add, hwritten, String.append_assoc]
    rw [List.foldl_cons, List.foldl_cons, hadd, ih]

theorem Screen.blank_addAll (events : Array Event) :
    Screen.blank.addAll w events =
      ⟨(events.toList.flatMap CommandLine.written).toArray,
        String.ofList (events.toList.flatMap (CommandLine.shown w))⟩ := by
  have hwritten := toList_written_addAll w blank events
  have hshown := shown_addAll w blank events
  obtain ⟨written, shown, hscreen⟩ : ∃ written shown, blank.addAll w events = ⟨written, shown⟩ :=
    ⟨_, _, rfl⟩
  rw [hscreen] at hwritten hshown ⊢
  simp_all [blank, ← Array.toList_inj]

theorem Screen.append_blank (s : Screen) : s.append .blank = s := by
  simp [append, blank]

theorem Displayed.step_append (s : Screen) (r : Progress) :
    (⟨r, s⟩ : Displayed).step w =
      ((Displayed.step w ⟨r, .blank⟩).1, ⟨(Displayed.step w ⟨r, .blank⟩).2.run,
        s.append (Displayed.step w ⟨r, .blank⟩).2.screen⟩) := by
  conv_lhs => rw [← s.append_blank]
  simp [step, flush, Screen.addAll_append]

/-! ### Lost bytes -/

def Surroundings.full (w : Surroundings) : Surroundings :=
  { w with outputFull := true }

theorem shown_full (hw : w.outputFull = false) (e : Event) :
    shown w.full e =
      (if written e = [] then [] else (w.log (.lost .noSpace)).toList) ++ shown w e := by
  have hloss : w.loss = "" := by simp [Surroundings.loss, hw]
  have hlost : w.full.loss = w.log (.lost .noSpace) := rfl
  cases e <;> simp [shown, written, hloss, hlost]

theorem shown_full_heard (hw : w.outputFull = false) (l : Listener) (s : Snapshot) :
    (l.heard s).flatMap (shown w.full) =
      (if (l.heard s).flatMap written = [] then [] else (w.log (.lost .noSpace)).toList) ++
        (l.heard s).flatMap (shown w) := by
  have hexecuted : written (.executed s) = [] := rfl
  unfold Listener.heard
  cases s.effect.event? with
  | none => cases l.steps <;> simp [shown_full hw, hexecuted]
  | some e => cases hhears : l.hears e <;> cases l.steps <;> simp [hhears, shown_full hw, hexecuted]

theorem shown_full_step (hw : w.outputFull = false) (hevents : r.events = #[]) :
    r.step.2.events.toList.flatMap (shown w.full) =
      (if r.step.2.events.toList.flatMap written = [] then []
        else (w.log (.lost .noSpace)).toList) ++ r.step.2.events.toList.flatMap (shown w) := by
  cases hran : r.machine.step.ran with
  | none =>
    rw [Progress.step_of_halted hran, events_take hevents, Machine.events_step_of_halted hran]
    rfl
  | some i =>
    obtain ⟨s, hs⟩ := Machine.exists_events_step_of_ran hran
    rw [Progress.step_of_ran hran, flatMap_events_pause fun _ => rfl,
      flatMap_events_pause fun _ => rfl, flatMap_events_pause fun _ => rfl, events_take hevents, hs]
    exact shown_full_heard hw _ s

theorem launch_display_full (hw : w.outputFull = false) (m : Machine) (maxSteps : Option UInt64)
    (input : Array UInt8) (pace : Pace) :
    (m.attach (display w.full maxSteps)).launch input pace =
      alert ((m.attach (display w maxSteps)).launch input pace) 1 := by
  have hdisplay : display w.full maxSteps = (display w maxSteps).alert 1 := by
    simp [display, Surroundings.full, hw, Listener.alert, Listener.ofChannels]
  rw [hdisplay]
  rfl

/-- Where the output takes nothing, a run that has an alarm for its first byte takes a step like
a run without it that then loses what it has written. -/
theorem step_lost (hw : w.outputFull = false) (hcalm : r.pace.cancelAt = none)
    (hevents : r.events = #[]) :
    (⟨alert r 1, .blank⟩ : Displayed).step w.full =
      let (halted, step) := Displayed.step w ⟨r, .blank⟩
      (halted,
        if step.screen.written = #[] then ⟨alert step.run 1, step.screen⟩
        else ⟨alert (step.lose w .noSpace).run 0, (step.lose w .noSpace).screen⟩) := by
  have hshown := shown_full_step hw hevents
  simp only [Displayed.step, step_alert hcalm hevents, Displayed.flush, Screen.blank_addAll]
  by_cases h : r.step.2.events.toList.flatMap written = []
  · simp [h, hshown, alert]
  · simp [h, hshown, alert, Displayed.lose, Progress.requestCancel]

/-! ### The live run -/

/-- One step of a live run. What it writes is lost unless the output takes it. -/
def stepLive (w : Surroundings) (taken : Bool) (d : Displayed) : Bool × Displayed :=
  let (halted, step) := Displayed.step w ⟨d.run, .blank⟩
  let step := if taken ∨ step.screen.written = #[] then step else step.lose w .noSpace
  (halted, ⟨step.run, d.screen.append step.screen⟩)

/-- A live run to its end; nothing if it has no end. -/
def runLive (w : Surroundings) (taken : Bool) (r : Progress) : Option Displayed :=
  let (halted, d) := repeatUntil (stepLive w taken) UInt64.size ⟨r, .blank⟩
  if halted then some d else none

theorem stepLive_taken : stepLive w true = Displayed.step w := by
  funext d
  simp [stepLive, Displayed.step_append d.screen d.run]

theorem stepLive_of_step {halted : Bool} {d : Displayed}
    (hstep : Displayed.step w ⟨r, .blank⟩ = (halted, d)) (s : Screen) :
    stepLive w false ⟨r, s⟩ =
      (halted, if d.screen.written = #[] then ⟨d.run, s.append d.screen⟩
        else ⟨(d.lose w .noSpace).run, s.append (d.lose w .noSpace).screen⟩) := by
  simp only [stepLive, hstep, Bool.false_eq_true, false_or]
  split <;> rfl

theorem Displayed.step_of_requested (hrun : r.machine.phase = .running)
    (hrequested : r.machine.cancelRequested = true) (hevents : r.events = #[]) (s : Screen) :
    (⟨r, s⟩ : Displayed).step w = (true, ⟨{ r with machine := r.machine.abort }, s⟩) := by
  have hstep := Machine.step_of_requested hrun hrequested
  rw [Displayed.step, Progress.step_of_halted (by rw [hstep]), hstep]
  simp [Progress.take, hevents, Displayed.flush, Screen.addAll]

theorem stepLive_of_requested (taken : Bool) (hrun : r.machine.phase = .running)
    (hrequested : r.machine.cancelRequested = true) (hevents : r.events = #[]) (s : Screen) :
    stepLive w taken ⟨r, s⟩ = (true, ⟨{ r with machine := r.machine.abort }, s⟩) := by
  simp [stepLive, Displayed.step_of_requested hrun hrequested hevents, Screen.blank, Screen.append]

/-- What a step that goes on leaves to the next one. -/
theorem goes_on_of_step {d : Displayed} (hrun : r.machine.phase = .running)
    (hcalm : r.pace.cancelAt = none) (hstep : Displayed.step w ⟨r, .blank⟩ = (false, d)) :
    d.run.machine.phase = .running ∧ d.run.pace.cancelAt = none ∧ d.run.events = #[] := by
  cases hran : r.machine.step.ran with
  | none =>
    rw [Displayed.step, Progress.step_of_halted hran] at hstep
    cases hstep
  | some i =>
    rw [Displayed.step, Progress.step_of_ran hran] at hstep
    obtain rfl := congrArg Prod.snd hstep
    have hpause := Progress.pause_of_cancelAt_none (r := r.take r.machine.step) hcalm i
    refine ⟨?_, hpause.2, rfl⟩
    change ((r.take r.machine.step).pause i).machine.phase = .running
    rw [hpause.1]
    exact Machine.phase_step_of_ran hrun hran

/-- A live run whose output takes nothing goes the way of the run that has an alarm for its
first byte. The step after a byte is lost is the last one of both. -/
theorem repeatUntil_stepLive_full (hw : w.outputFull = false) (hrun : r.machine.phase = .running)
    (hcalm : r.pace.cancelAt = none) (hevents : r.events = #[]) (s : Screen) (count : ℕ) :
    ∃ n, repeatUntil (Displayed.step w.full) count ⟨alert r 1, s⟩ =
      let (halted, d) := repeatUntil (stepLive w false) count ⟨r, s⟩
      (halted, ⟨alert d.run n, d.screen⟩) := by
  induction count generalizing r s with
  | zero => exact ⟨1, rfl⟩
  | succ count ih =>
    have hfull := Displayed.step_append (w := w.full) s (alert r 1)
    rw [step_lost hw hcalm hevents] at hfull
    obtain ⟨halted, d, hstep⟩ : ∃ halted d, Displayed.step w ⟨r, .blank⟩ = (halted, d) :=
      ⟨_, _, rfl⟩
    have hlive := stepLive_of_step hstep s
    simp only [hstep] at hfull
    by_cases hwritten : d.screen.written = #[]
    · simp only [hwritten, if_true] at hfull hlive
      cases halted with
      | true =>
        refine ⟨1, ?_⟩
        rw [repeatUntil_succ_of_end _ hfull, repeatUntil_succ_of_end _ hlive]
      | false =>
        obtain ⟨hrun', hcalm', hevents'⟩ := goes_on_of_step hrun hcalm hstep
        rw [repeatUntil_succ_of_not_end _ hfull, repeatUntil_succ_of_not_end _ hlive]
        exact ih hrun' hcalm' hevents' _
    · simp only [hwritten, if_false] at hfull hlive
      refine ⟨0, ?_⟩
      cases halted with
      | true => rw [repeatUntil_succ_of_end _ hfull, repeatUntil_succ_of_end _ hlive]
      | false =>
        obtain ⟨hrun', -, hevents'⟩ := goes_on_of_step hrun hcalm hstep
        rw [repeatUntil_succ_of_not_end _ hfull, repeatUntil_succ_of_not_end _ hlive]
        cases count with
        | zero => rfl
        | succ count =>
          have hlast := Displayed.step_of_requested (w := w.full)
            (r := alert (d.lose w .noSpace).run 0) hrun' rfl hevents'
          have hlast' := stepLive_of_requested (w := w) false
            (r := (d.lose w .noSpace).run) hrun' rfl hevents'
          rw [repeatUntil_succ_of_end _ (hlast _), repeatUntil_succ_of_end _ (hlast' _)]
          rfl

/-- What a displayed run leaves is what a live run leaves, both where the output takes what is
written and where it takes nothing. -/
theorem showRun_eq_runLive (hw : w.outputFull = false) (m : Machine) (maxSteps : Option UInt64)
    (input : Array UInt8) {pace : Pace} (hcalm : pace.cancelAt = none) :
    showRun w (m.attach (display w maxSteps)) input pace =
        (runLive w true ((m.attach (display w maxSteps)).launch input pace)).map
          (fun d => (d.run.finish, d.screen)) ∧
      (showRun w.full (m.attach (display w.full maxSteps)) input pace).map
          (fun (e, screen) => (e.outcome, e.machine.store, screen)) =
        (runLive w false ((m.attach (display w maxSteps)).launch input pace)).map
          (fun d => (d.run.finish.outcome, d.run.machine.store, d.screen)) := by
  constructor
  · rw [showRun, inRounds_repeatUntil, runLive, stepLive_taken]
    dsimp only
    split <;> rfl
  · obtain ⟨n, hfull⟩ := repeatUntil_stepLive_full (w := w)
      (r := (m.attach (display w maxSteps)).launch input pace) hw rfl hcalm rfl .blank UInt64.size
    rw [showRun, inRounds_repeatUntil, launch_display_full hw, hfull, runLive]
    dsimp only
    split <;> rfl

end CommandLine

end TapeMachine
