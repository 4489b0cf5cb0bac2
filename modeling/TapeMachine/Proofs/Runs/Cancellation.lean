import TapeMachine.Proofs.Runs.Budget
import TapeMachine.Proofs.Session.History

/-!
# Cancelled runs

The first request for cancellation lets the instruction in flight finish and keeps
every further one from running. Until then nothing tells the run from one that nobody
cancels: taking the alarms and the requests away commutes with every step up to it.
-/
namespace TapeMachine

variable {m : Machine} {r : Progress} {input : Array UInt8} {pace : Pace} {limit : UInt64}
  {n k count : ℕ}

def Listener.withoutAlarms (l : Listener) : Listener :=
  { l with alarms := [] }

/-- The machine that nobody asks to cancel. -/
def Machine.uncancelled (m : Machine) : Machine :=
  { m with cancelRequested := false, listener := m.listener.withoutAlarms }

namespace Machine

theorem wake_uncancelled (m : Machine) : m.uncancelled.wake = m.wake.uncancelled := by
  unfold wake
  change (if m.phase = .idle then _ else _) = _
  split <;> rfl

theorem execute_uncancelled (m : Machine) (x : Instruction) :
    m.uncancelled.execute x = { m.execute x with machine := (m.execute x).machine.uncancelled } :=
  rfl

theorem step_uncancelled (h : m.cancelRequested = false) :
    m.uncancelled.step = { m.step with machine := m.step.machine.uncancelled } := by
  have hget : m.uncancelled.program.get? m.uncancelled.store.pc = m.program.get? m.store.pc := rfl
  rw [step, step, heed_of_not_requested m h, heed_of_not_requested m.uncancelled rfl, fetch, fetch,
    hget]
  cases m.program.get? m.store.pc with
  | none => rfl
  | some x =>
    dsimp only
    rw [wake_uncancelled, execute_uncancelled]

end Machine

namespace Progress

def uncancelled (r : Progress) : Progress where
  machine := r.machine.uncancelled
  pace := { r.pace with cancelAt := none }
  events := r.events

theorem undisturbed_uncancelled (hrun : r.machine.phase = .running) :
    r.uncancelled.Undisturbed := by
  have hphase : r.uncancelled.machine.phase ≠ .idle := by
    simp [uncancelled, Machine.uncancelled, hrun]
  exact undisturbed_of_cancelAt (Machine.undisturbed_of_alarms rfl hphase rfl) rfl

theorem pause_uncancelled (r : Progress) (i : Instruction) :
    r.uncancelled.pause i = (r.pause i).uncancelled := by
  unfold pause
  change (if r.pace.delay ≠ 0 ∧ i.isVisible then _ else _) = _
  split
  · by_cases hnow : r.pace.cancelAt = some 1
    · simp [uncancelled, Pace.afterPause, hnow, Machine.uncancelled, Machine.requestCancel]
    · simp [uncancelled, Pace.afterPause, hnow]
  · rfl

/-- Up to the first request a step does not depend on who would cancel the run later. -/
theorem step_uncancelled (h : r.machine.cancelRequested = false) :
    r.uncancelled.step = (r.step.1, r.step.2.uncancelled) := by
  have hstep : r.uncancelled.machine.step =
      { r.machine.step with machine := r.machine.step.machine.uncancelled } :=
    Machine.step_uncancelled h
  cases hran : r.machine.step.ran with
  | none =>
    have hran' : r.uncancelled.machine.step.ran = none := by rw [hstep, hran]
    rw [step_of_halted hran, step_of_halted hran', hstep]
    rfl
  | some i =>
    have hran' : r.uncancelled.machine.step.ran = some i := by rw [hstep, hran]
    rw [step_of_ran hran, step_of_ran hran', hstep, ← pause_uncancelled]
    rfl

theorem advance_uncancelled
    (h : ∀ j < k, (r.advance j).2.machine.cancelRequested = false) :
    r.uncancelled.advance k = ((r.advance k).1, (r.advance k).2.uncancelled) := by
  induction k with
  | zero => simp [advance_zero]
  | succ k ih =>
    rw [advance_succ, advance_succ, ih fun j hj => h j (hj.trans (Nat.lt_succ_self k))]
    dsimp only
    split
    · rfl
    · exact step_uncancelled (h k (Nat.lt_succ_self k))

/-- The first request of the run comes while its `n`-th instruction is executed, or in
the pause after that. -/
def FirstRequest (r : Progress) (n : ℕ) : Prop :=
  (∀ k < n, (r.advance k).2.machine.cancelRequested = false) ∧
    (r.advance n).2.machine.cancelRequested = true

instance (r : Progress) (n : ℕ) : Decidable (r.FirstRequest n) :=
  inferInstanceAs (Decidable (_ ∧ _))

theorem exists_firstRequest (h : (r.advance k).2.machine.cancelRequested = true) :
    ∃ n ≤ k, r.FirstRequest n := by
  have hex : ∃ n, (r.advance n).2.machine.cancelRequested = true := ⟨k, h⟩
  refine ⟨Nat.find hex, Nat.find_min' hex h, ?_, Nat.find_spec hex⟩
  intro j hj
  exact Bool.eq_false_of_not_eq_true (Nat.find_min hex hj)

theorem FirstRequest.not_ended (h : r.FirstRequest n) : (r.advance n).1 = false := by
  obtain ⟨hbefore, hnow⟩ := h
  cases n with
  | zero => rw [advance_zero]
  | succ k =>
    have hk := hbefore k (Nat.lt_succ_self k)
    rw [advance_succ] at hnow ⊢
    split at hnow
    · simp [hk] at hnow
    · next hgoes =>
      rw [if_neg hgoes]
      cases hran : (r.advance k).2.machine.step.ran with
      | none =>
        rw [step_of_halted hran] at hnow
        change (r.advance k).2.machine.step.machine.cancelRequested = true at hnow
        rw [(Machine.step_eq_of_halted hran).1, Machine.heed_of_not_requested _ hk] at hnow
        exact absurd hnow (by simp [Machine.halt, hk])
      | some i => rw [step_of_ran hran]

theorem running_advance_uncancelled (hrun : r.machine.phase = .running)
    (hgoes : (r.uncancelled.advance n).1 = false) :
    (r.uncancelled.advance n).2.machine.program = r.machine.program ∧
      (r.uncancelled.advance n).2.machine.phase = .running ∧
      (r.uncancelled.advance n).2.machine.store.steps =
        r.machine.store.steps + UInt64.ofNat n := by
  have hpeaceful : r.uncancelled.Peaceful := .inr (undisturbed_uncancelled hrun)
  obtain ⟨hmachine, hended⟩ := hpeaceful.advance n
  have hwalk : .halted ∉ (r.uncancelled.machine.walk n).effects := by
    rw [← hended, hgoes]
    exact Bool.false_ne_true
  rw [hmachine]
  exact ⟨Machine.program_walk _ _, Machine.running_walk hrun hwalk⟩

/-- Nothing tells the run from the one that nobody cancels until the first request. -/
theorem FirstRequest.advance (h : r.FirstRequest n) (hrun : r.machine.phase = .running) :
    r.uncancelled.advance n = (false, (r.advance n).2.uncancelled) ∧
      (r.advance n).2.machine.program = r.machine.program ∧
      (r.advance n).2.machine.phase = .running ∧
      (r.advance n).2.machine.store.steps = r.machine.store.steps + UInt64.ofNat n := by
  have huncancelled := advance_uncancelled h.1
  rw [h.not_ended] at huncancelled
  have hrunning := running_advance_uncancelled hrun (congrArg Prod.fst huncancelled)
  rw [huncancelled] at hrunning
  exact ⟨huncancelled, hrunning⟩

/-- The step after the first request ends the run. -/
theorem FirstRequest.advance_succ (h : r.FirstRequest n) (hrun : r.machine.phase = .running) :
    r.advance (n + 1) =
      (true, { (r.advance n).2 with machine := (r.advance n).2.machine.abort }) := by
  have hstep := Machine.step_of_requested (h.advance hrun).2.2.1 h.2
  rw [Progress.advance_succ, h.not_ended, if_neg Bool.false_ne_true,
    step_of_halted (by rw [hstep]), hstep]
  simp [take]

theorem cancelled_pause (r : Progress) (i : Instruction) :
    (r.pause i).machine.cancelled = r.machine.cancelled := by
  rcases r.machine_pause_cases i with hpause | hpause
  · rw [hpause]
  · rw [hpause, Machine.requestCancel]

theorem cancelled_advance (h : ∀ k < count, k ≤ stepsUntil step count r →
    (r.advance k).2.machine.cancelRequested = false) :
    (r.advance count).2.machine.cancelled = r.machine.cancelled := by
  induction count generalizing r with
  | zero => rw [advance_zero]
  | succ count ih =>
    have hcalm : r.machine.cancelRequested = false := by
      have hfirst := h 0 (Nat.succ_pos count) (Nat.zero_le _)
      rwa [advance_zero] at hfirst
    cases hran : r.machine.step.ran with
    | none =>
      rw [advance_succ_of_halted count hran]
      exact Machine.cancelled_step hcalm
    | some i =>
      rw [advance_succ_of_ran count hran, ih, cancelled_pause]
      · exact Machine.cancelled_step hcalm
      · intro k hlt hk
        rw [← advance_succ_of_ran k hran]
        apply h _ (Nat.succ_lt_succ hlt)
        rw [stepsUntil, step_of_ran hran]
        exact Nat.succ_le_succ hk

theorem cancelled_advance_of_not_firstRequest
    (h : ∀ k ≤ stepsUntil step count r, ¬ r.FirstRequest k) :
    (r.advance count).2.machine.cancelled = r.machine.cancelled := by
  apply cancelled_advance
  intro k _ hk
  by_contra hrequested
  obtain ⟨n, hn, hfirst⟩ := exists_firstRequest (Bool.eq_true_of_not_eq_false hrequested)
  exact h n (hn.trans hk) hfirst

end Progress

namespace Machine

/-- The run ended because it was cancelled after `n` instructions. It leaves what these
leave in the run that nobody cancels, except that the program counter is at the end, and
it reports what they report. -/
structure CancelledAfter (m : Machine) (input : Array UInt8) (pace : Pace) (n : ℕ) (e : Ended) :
    Prop where
  outcome_eq : e.outcome = .cancelled
  phase_eq : e.machine.phase = .halted
  ran : ((m.launch input pace).uncancelled.advance n).1 = false
  store_eq : e.machine.store =
    { ((m.launch input pace).uncancelled.advance n).2.machine.store with pc := m.program.size }
  steps_eq : e.machine.store.steps = UInt64.ofNat n
  events_eq : e.events = ((m.launch input pace).uncancelled.advance n).2.events

theorem advance_of_firstRequest (h : (m.launch input pace).FirstRequest n) :
    ∃ r, (∀ count, n < count → (m.launch input pace).advance count = (true, r)) ∧
      m.CancelledAfter input pace n r.finish := by
  obtain ⟨huncancelled, hprogram, -, hsteps⟩ := h.advance rfl
  have hend := h.advance_succ rfl
  refine ⟨{ ((m.launch input pace).advance n).2 with
      machine := ((m.launch input pace).advance n).2.machine.abort }, ?_, rfl, rfl,
    congrArg Prod.fst huncancelled, ?_, ?_, ?_⟩
  · intro count hlt
    obtain ⟨l, rfl⟩ := Nat.exists_eq_add_of_le hlt
    rw [Progress.advance_eq] at hend ⊢
    exact repeatUntil_add_of_end l hend
  · rw [huncancelled]
    simp only [Progress.finish, abort, hprogram]
    rfl
  · exact hsteps.trans (UInt64.zero_add _)
  · rw [huncancelled]
    rfl

theorem runPaced_of_end {r : Progress}
    (h : (m.launch input pace).advance UInt64.size = (true, r)) :
    m.runPaced input pace = some r.finish := by
  rw [runPaced_eq, h, if_pos rfl]

theorem runWithin_of_firstRequest (h : (m.launch input .immediate).FirstRequest n)
    (hlt : n < limit.toNat) : m.CancelledAfter input .immediate n (m.runWithin input limit) := by
  obtain ⟨r, hend, hcancelled⟩ := advance_of_firstRequest h
  simpa only [runWithin, hend _ hlt, if_true] using hcancelled

/-- A request that comes with the last instruction of the budget is left to whoever
steps on. -/
theorem runWithin_of_firstRequest_last
    (h : (m.launch input .immediate).FirstRequest limit.toNat) :
    (m.runWithin input limit).machine.store =
        ((m.launch input .immediate).uncancelled.advance limit.toNat).2.machine.store ∧
      (m.runWithin input limit).events =
        ((m.launch input .immediate).uncancelled.advance limit.toNat).2.events ∧
      (m.runWithin input limit).machine.cancelRequested = true ∧
      (m.program.size ≤ (m.runWithin input limit).machine.store.pc →
        (m.runWithin input limit).outcome = .completed ∧
          (m.runWithin input limit).machine.phase = .halted) ∧
      ((m.runWithin input limit).machine.store.pc < m.program.size →
        (m.runWithin input limit).outcome = .outOfSteps ∧
          (m.runWithin input limit).machine.phase = .running ∧
          (m.runWithin input limit).machine.step =
            ⟨(m.runWithin input limit).machine.abort, none, .halted, []⟩) := by
  obtain ⟨huncancelled, hprogram, hphase, -⟩ := h.advance rfl
  have hcancelled : ((m.launch input .immediate).advance limit.toNat).2.machine.cancelled = false :=
    Progress.cancelled_advance fun k hk _ => h.1 k hk
  have hrequested := h.2
  have hgoes := h.not_ended
  rw [huncancelled]
  generalize hq : (m.launch input .immediate).advance limit.toNat = q at *
  obtain ⟨ended, q⟩ := q
  obtain rfl : ended = false := hgoes
  have hprogram' : q.machine.program = m.program := hprogram
  by_cases hpc : m.program.size ≤ q.machine.store.pc
  · have hrun : m.runWithin input limit = q.halt.finish := by
      simp [runWithin, hq, hprogram', hpc]
    rw [hrun]
    refine ⟨rfl, rfl, hrequested, fun _ => ⟨?_, rfl⟩, fun hlt => absurd hpc hlt.not_ge⟩
    have hmark : q.machine.cancelled = false := hcancelled
    simp [Progress.finish, Progress.halt, halt, hmark]
  · have hrun : m.runWithin input limit = ⟨q.machine, .outOfSteps, q.events⟩ := by
      simp [runWithin, hq, hprogram', hpc]
    rw [hrun]
    exact ⟨rfl, rfl, hrequested, fun hle => absurd hle hpc, fun _ =>
      ⟨rfl, hphase, step_of_requested hphase hrequested⟩⟩

theorem finish_of_not_firstRequest
    (h : ∀ k ≤ stepsUntil Progress.step count (m.launch input pace),
      ¬ (m.launch input pace).FirstRequest k) :
    ((m.launch input pace).advance count).2.finish.outcome = .completed := by
  have hcancelled := Progress.cancelled_advance_of_not_firstRequest h
  have hstart : (m.launch input pace).machine.cancelled = false := rfl
  rw [hstart] at hcancelled
  simp [Progress.finish, hcancelled]

theorem runPaced_of_not_firstRequest {e : Ended} (hrun : m.runPaced input pace = some e)
    (h : ∀ k ≤ stepsUntil Progress.step UInt64.size (m.launch input pace),
      ¬ (m.launch input pace).FirstRequest k) : e.outcome ≠ .cancelled := by
  obtain ⟨-, rfl⟩ := runPaced_eq_some_iff.mp hrun
  rw [finish_of_not_firstRequest h]
  decide

theorem runWithin_of_not_firstRequest
    (h : ∀ k ≤ stepsUntil Progress.step limit.toNat (m.launch input .immediate),
      ¬ (m.launch input .immediate).FirstRequest k) :
    (m.runWithin input limit).outcome ≠ .cancelled := by
  have houtcome := finish_of_not_firstRequest h
  simp only [runWithin]
  split
  · rw [houtcome]
    decide
  · split
    · change ((m.launch input .immediate).advance limit.toNat).2.finish.outcome ≠ _
      rw [houtcome]
      decide
    · simp

/-- The first request for cancellation ends every kind of run after the instruction in
flight, whichever that is: the run is cancelled, it has run no other instruction, and it
has lost nothing of what the run without requests does up to there. Only a limit that is
used up with this very instruction hides the request from the run, which then completes
or not as the program does; if not, the next step obeys. Without a request while the
instructions of the run are executed, no run is cancelled. -/
theorem cancelled_at_first_request (m : Machine) (input : Array UInt8) :
    (∀ pace n, (m.launch input pace).FirstRequest n →
      ((m.launch input pace).advance n).1 = false ∧
      ∃ r, (m.launch input pace).advance (n + 1) = (true, r) ∧
        m.CancelledAfter input pace n r.finish ∧
        (n < UInt64.size → m.runPaced input pace = some r.finish)) ∧
    (∀ n, (m.launch input .immediate).FirstRequest n → n < UInt64.size →
      ∃ e, m.run input = some e ∧ m.CancelledAfter input .immediate n e) ∧
    (∀ n (limit : UInt64), (m.launch input .immediate).FirstRequest n → n < limit.toNat →
      m.CancelledAfter input .immediate n (m.runWithin input limit)) ∧
    (∀ limit : UInt64, (m.launch input .immediate).FirstRequest limit.toNat →
      let e := m.runWithin input limit
      let calm := ((m.launch input .immediate).uncancelled.advance limit.toNat).2
      e.machine.store = calm.machine.store ∧ e.events = calm.events ∧
      e.machine.cancelRequested = true ∧
      (m.program.size ≤ e.machine.store.pc →
        e.outcome = .completed ∧ e.machine.phase = .halted) ∧
      (e.machine.store.pc < m.program.size →
        e.outcome = .outOfSteps ∧ e.machine.phase = .running ∧
        e.machine.step = ⟨e.machine.abort, none, .halted, []⟩)) ∧
    (∀ pace e, m.runPaced input pace = some e →
      (∀ k ≤ stepsUntil Progress.step UInt64.size (m.launch input pace),
        ¬ (m.launch input pace).FirstRequest k) → e.outcome ≠ .cancelled) ∧
    (∀ e, m.run input = some e →
      (∀ k ≤ stepsUntil Progress.step UInt64.size (m.launch input .immediate),
        ¬ (m.launch input .immediate).FirstRequest k) → e.outcome ≠ .cancelled) ∧
    ∀ limit : UInt64,
      (∀ k ≤ stepsUntil Progress.step limit.toNat (m.launch input .immediate),
        ¬ (m.launch input .immediate).FirstRequest k) →
      (m.runWithin input limit).outcome ≠ .cancelled := by
  have hpaced : ∀ pace n, (m.launch input pace).FirstRequest n →
      ((m.launch input pace).advance n).1 = false ∧
      ∃ r, (m.launch input pace).advance (n + 1) = (true, r) ∧
        m.CancelledAfter input pace n r.finish ∧
        (n < UInt64.size → m.runPaced input pace = some r.finish) := by
    intro pace n h
    obtain ⟨r, hend, hcancelled⟩ := advance_of_firstRequest h
    exact ⟨h.not_ended, r, hend _ (Nat.lt_succ_self n), hcancelled,
      fun hlt => runPaced_of_end (hend _ hlt)⟩
  refine ⟨hpaced, ?_, fun n limit h hlt => runWithin_of_firstRequest h hlt,
    fun limit h => runWithin_of_firstRequest_last h, fun pace e => runPaced_of_not_firstRequest,
    fun e => runPaced_of_not_firstRequest, fun limit => runWithin_of_not_firstRequest⟩
  intro n h hlt
  obtain ⟨-, r, -, hcancelled, hrun⟩ := hpaced .immediate n h
  exact ⟨r.finish, hrun hlt, hcancelled⟩

/-- The program `+[-].`, which writes a zero at its end. -/
def farewell : Program where
  code := #[.increment, .loopStart, .decrement, .loopEnd, .write]
  partners := #[none, some 3, none, some 1, none]
  table_eq := rfl

/-- A machine that is asked to cancel when something happens on a channel for the
`count`-th time. -/
def farewellMachine (channel : Channel) (count : ℕ) : Machine :=
  (loaded farewell).attach (.ofChannels [channel] [⟨channel, count⟩])

/-- A request with the last instruction of the program, one in a pause, and one that is
left to the next step, each with the tape, the output and the log that it leaves. -/
theorem cancelled_at_first_request_farewell :
    ((farewellMachine .output 1).launch #[] .immediate).FirstRequest 5 ∧
      (∃ e, (farewellMachine .output 1).run #[] = some e ∧
        (farewellMachine .output 1).CancelledAfter #[] .immediate 5 e ∧
        e.machine.store.tape.cells = #[0, 0] ∧ e.machine.store.output = #[0] ∧
        e.events = #[.wrote 0]) ∧
      (farewellMachine .output 1).CancelledAfter #[] .immediate 5
        ((farewellMachine .output 1).runWithin #[] 6) ∧
      ((farewellMachine .output 1).runWithin #[] 5).outcome = .completed ∧
      (∀ k ≤ stepsUntil Progress.step 4 ((farewellMachine .output 1).launch #[] .immediate),
        ¬ ((farewellMachine .output 1).launch #[] .immediate).FirstRequest k) ∧
      ((farewellMachine .output 1).runWithin #[] 4).outcome ≠ .cancelled ∧
      ((farewellMachine .output 1).launch #[] ⟨5, some 1⟩).FirstRequest 1 ∧
      (∃ e, (farewellMachine .output 1).runPaced #[] ⟨5, some 1⟩ = some e ∧
        (farewellMachine .output 1).CancelledAfter #[] ⟨5, some 1⟩ 1 e ∧
        e.machine.store.tape.cells = #[1, 0] ∧ e.machine.store.output = #[] ∧
        e.events = #[.paused 5]) ∧
      ((farewellMachine .changes 2).launch #[] .immediate).FirstRequest 3 ∧
      ((farewellMachine .changes 2).runWithin #[] 3).outcome = .outOfSteps ∧
      ((farewellMachine .changes 2).runWithin #[] 3).machine.store.tape.cells = #[0, 0] ∧
      ((farewellMachine .changes 2).runWithin #[] 3).machine.store.output = #[] ∧
      ((farewellMachine .changes 2).runWithin #[] 3).events =
        #[.changed 0 1, .changed 0 0] ∧
      ((farewellMachine .changes 2).runWithin #[] 3).machine.step.ran = none := by
  have hlast : ((farewellMachine .output 1).launch #[] .immediate).FirstRequest 5 := by
    decide +kernel
  have hpause : ((farewellMachine .output 1).launch #[] ⟨5, some 1⟩).FirstRequest 1 := by
    decide +kernel
  have hearly : ((farewellMachine .changes 2).launch #[] .immediate).FirstRequest 3 := by
    decide +kernel
  have hnone : ∀ k ≤ stepsUntil Progress.step 4 ((farewellMachine .output 1).launch #[] .immediate),
      ¬ ((farewellMachine .output 1).launch #[] .immediate).FirstRequest k := by
    decide +kernel
  obtain ⟨hpaced, hrun, hwithin, hbudget, -, -, hcalm⟩ :=
    cancelled_at_first_request (farewellMachine .output 1) #[]
  obtain ⟨e, hresult, hcancelled⟩ := hrun 5 hlast (by decide)
  obtain ⟨-, r, -, hcancelled', hresult'⟩ := hpaced _ 1 hpause
  obtain ⟨-, -, -, hcompleted, -⟩ := hbudget 5 hlast
  obtain ⟨-, -, -, hbudget', -, -, -⟩ := cancelled_at_first_request (farewellMachine .changes 2) #[]
  obtain ⟨hstore, hevents, -, -, hgoes⟩ := hbudget' 3 hearly
  obtain ⟨hspent, -, hstep⟩ := hgoes (by decide +kernel)
  refine ⟨hlast, ⟨e, hresult, hcancelled, ?_⟩, hwithin 5 6 hlast (by decide),
    (hcompleted (by decide +kernel)).1, hnone, hcalm 4 hnone, hpause,
    ⟨r.finish, hresult' (by decide), hcancelled', ?_⟩, hearly, hspent, ?_⟩
  · rw [hcancelled.store_eq, hcancelled.events_eq]
    decide +kernel
  · rw [hcancelled'.store_eq, hcancelled'.events_eq]
    decide +kernel
  · rw [hstore, hevents, hstep]
    decide +kernel

end Machine

end TapeMachine
