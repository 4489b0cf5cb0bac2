import TapeMachine.Proofs.Machine.Stepping

/-!
# Runs within a limit

A run within a limit is a walk of as many steps, after which a machine that has come
to the end of its program is halted. A machine whose run has used its limit up can
therefore be stepped on, and goes through what a larger limit would have let it do. The
loop that tests the step counter before each step takes the same steps: the counter
reaches the limit before it could wrap.
-/
namespace TapeMachine

variable {m : Machine} {input : Array UInt8} {r r' : Progress} {limit : UInt64}
  {n k : ℕ} {out : Bool × Progress} {e : Ended}

def Walk.finish (w : Walk) : Ended where
  machine := w.machine
  outcome := if w.machine.cancelled then .cancelled else .completed
  events := w.events.toArray

namespace Machine

/-! ### The walk of a run -/

theorem advance_launch_immediate (m : Machine) (input : Array UInt8) (k : ℕ) :
    ((m.launch input .immediate).advance k).2.machine = ((m.start input).walk k).machine ∧
      ((m.launch input .immediate).advance k).2.events =
        ((m.start input).walk k).events.toArray ∧
      (((m.launch input .immediate).advance k).1 = true ↔
        .halted ∈ ((m.start input).walk k).effects) := by
  have hpeaceful : (m.launch input .immediate).Peaceful := .inl rfl
  obtain ⟨hmachine, hended⟩ := hpeaceful.advance k
  refine ⟨hmachine, Array.toList_inj.mp ?_, hended⟩
  exact Progress.events_advance (r := m.launch input .immediate) rfl k

theorem runWithin_eq (m : Machine) (input : Array UInt8) (limit : UInt64) :
    m.runWithin input limit =
      let w := (m.start input).walk limit.toNat
      if m.program.size ≤ w.machine.store.pc then
        ⟨w.machine.halt, if w.machine.cancelled then .cancelled else .completed, w.events.toArray⟩
      else ⟨w.machine, .outOfSteps, w.events.toArray⟩ := by
  obtain ⟨hmachine, hevents, hended⟩ := m.advance_launch_immediate input limit.toNat
  have hprogram : ((m.start input).walk limit.toNat).machine.program = m.program :=
    program_walk _ _
  simp only [runWithin, Progress.halt, Progress.finish, hmachine, hevents, hprogram]
  split
  · next hend =>
    have hrest := atRest_walk (hended.mp hend)
    have hpc : m.program.size ≤ ((m.start input).walk limit.toNat).machine.store.pc := by
      rw [← hprogram]
      exact Array.getElem?_eq_none_iff.mp hrest.2
    rw [if_pos hpc, hrest.halt]
  · rfl

theorem HaltsAfter.finish_walk (h : m.HaltsAfter n) (hlt : n < k) :
    (m.walk k).finish = (m.walk (n + 1)).finish := by
  rw [Walk.finish, h.machine_walk hlt, h.events_walk hlt]
  rfl

/-- A run, cancelled or not, has the end that stepping to the halt comes to. -/
theorem run_eq_some_iff : m.run input = some e ↔
    ∃ n < UInt64.size, (m.start input).HaltsAfter n ∧
      e = ((m.start input).walk (n + 1)).finish := by
  obtain ⟨hmachine, hevents, hended⟩ := m.advance_launch_immediate input UInt64.size
  have hfinish : ((m.launch input .immediate).advance UInt64.size).2.finish =
      ((m.start input).walk UInt64.size).finish := by
    rw [Progress.finish, hmachine, hevents]
    rfl
  rw [run, runPaced_eq_some_iff, hended, hfinish]
  constructor
  · rintro ⟨hhalts, rfl⟩
    obtain ⟨n, hlt, hn⟩ := exists_haltsAfter hhalts
    exact ⟨n, hlt, hn, hn.finish_walk hlt⟩
  · rintro ⟨n, hlt, hn, rfl⟩
    exact ⟨hn.halted_mem_iff.mpr hlt, hn.finish_walk hlt⟩

theorem store_runWithin (m : Machine) (input : Array UInt8) (limit : UInt64) :
    (m.runWithin input limit).machine.store =
      ((m.launch input .immediate).advance limit.toNat).2.machine.store := by
  rw [runWithin_eq, (m.advance_launch_immediate input limit.toNat).1]
  dsimp only
  split <;> rfl

theorem runWithin_of_outOfSteps (h : (m.runWithin input limit).outcome = .outOfSteps) :
    m.runWithin input limit = ⟨((m.start input).walk limit.toNat).machine, .outOfSteps,
        ((m.start input).walk limit.toNat).events.toArray⟩ ∧
      (m.runWithin input limit).machine.program = m.program ∧
      (m.runWithin input limit).machine.store.pc < m.program.size ∧
      (m.runWithin input limit).machine.phase = .running := by
  rw [runWithin_eq] at h ⊢
  dsimp only at h ⊢
  have hprogram : ((m.start input).walk limit.toNat).machine.program = m.program :=
    program_walk _ _
  have hpc : ((m.start input).walk limit.toNat).machine.store.pc < m.program.size := by
    by_contra hend
    rw [if_pos (not_lt.mp hend)] at h
    dsimp only at h
    split at h <;> cases h
  rw [if_neg hpc.not_ge]
  refine ⟨rfl, hprogram, hpc, (running_walk rfl ?_).1⟩
  intro hhalted
  have hget := (atRest_walk hhalted).2
  rw [hprogram] at hget
  exact absurd (Array.getElem?_eq_none_iff.mp hget) hpc.not_ge

/-! ### Going on after the limit -/

/-- A run within a larger limit is a run within the smaller one and a walk from there. -/
theorem runWithin_add_eq {a b : UInt64} (hfits : a.toNat + b.toNat < UInt64.size)
    (hspent : (m.runWithin input a).outcome = .outOfSteps) :
    m.runWithin input (a + b) =
      let w := (m.runWithin input a).machine.walk b.toNat
      let events := (m.runWithin input a).events ++ w.events
      if m.program.size ≤ w.machine.store.pc then
        ⟨w.machine.halt, if w.machine.cancelled then .cancelled else .completed, events⟩
      else ⟨w.machine, .outOfSteps, events⟩ := by
  have hsum : (a + b).toNat = a.toNat + b.toNat := by
    rw [UInt64.toNat_add]
    exact Nat.mod_eq_of_lt hfits
  rw [runWithin_eq, hsum, (runWithin_of_outOfSteps hspent).1]
  simp [machine_walk_add, events_walk_add]

/-- A run that has used its limit up holds all that is needed to go on: stepping on from
it leads to the machine and the events of a run within a larger limit. Only a machine
that has just run the last instruction is halted by the run and still running in the
walk. A request that came with the last instruction of the budget is obeyed by the first
step beyond it. -/
theorem runWithin_add (m : Machine) (input : Array UInt8) (a b : UInt64)
    (hfits : a.toNat + b.toNat < UInt64.size)
    (hspent : (m.runWithin input a).outcome = .outOfSteps) :
    let first := m.runWithin input a
    let further := first.machine.walk b.toNat
    let whole := m.runWithin input (a + b)
    whole.events.toList = first.events.toList ++ further.events ∧
    whole.machine =
      (if .halted ∉ further.effects ∧ further.machine.store.pc = m.program.size then
        further.machine.halt
      else further.machine) ∧
    (.halted ∉ further.effects → further.machine.phase = .running) ∧
    (first.machine.cancelRequested = true →
      first.machine.step = ⟨first.machine.abort, none, .halted, []⟩ ∧
      (0 < b → whole.outcome = .cancelled)) := by
  obtain ⟨-, hprogram, hpc, hrunning⟩ := runWithin_of_outOfSteps hspent
  rw [runWithin_add_eq hfits hspent]
  generalize m.runWithin input a = first at *
  rw [← hprogram] at hpc ⊢
  have hle : (first.machine.walk b.toNat).machine.store.pc ≤ first.machine.program.size :=
    pc_walk_le hpc.le _
  refine ⟨?_, ?_, fun hgoes => (running_walk hrunning hgoes).1, ?_⟩
  · dsimp only
    split <;> simp
  · dsimp only
    by_cases hend : first.machine.program.size ≤ (first.machine.walk b.toNat).machine.store.pc
    · rw [if_pos hend]
      by_cases hhalted : .halted ∈ (first.machine.walk b.toNat).effects
      · rw [(atRest_walk hhalted).halt, ite_self]
      · rw [if_pos (And.intro hhalted (hle.antisymm hend))]
    · rw [if_neg hend, if_neg fun h => hend h.2.ge]
  · intro hrequested
    have hstep := step_of_requested hrunning hrequested
    refine ⟨hstep, ?_⟩
    intro hb
    obtain ⟨l, hl⟩ := Nat.exists_eq_add_of_lt (UInt64.lt_iff_toNat_lt.mp hb)
    have hrest : first.machine.abort.AtRest := ⟨rfl, Array.getElem?_size⟩
    have hwalk : (first.machine.walk b.toNat).machine = first.machine.abort := by
      rw [hl, UInt64.toNat_zero, Nat.zero_add, walk, hstep]
      simp only [hrest.walk]
    simp [hwalk, abort]

/-- A machine of two cells that has loaded a program. -/
def loaded (p : Program) : Machine :=
  (fresh ⟨2, true⟩ Nat.two_pos).install p

/-- The program `+[-]`, which clears a cell. -/
def clearing : Program where
  code := #[.increment, .loopStart, .decrement, .loopEnd]
  partners := #[none, some 3, none, some 1]
  table_eq := rfl

def clearingMachine (alarms : List Alarm) : Machine :=
  (loaded clearing).attach (.ofChannels [.changes, .steps] alarms)

/-- Stepping on to the last instruction, and stepping on after a request. -/
theorem runWithin_add_clearing :
    ((clearingMachine []).runWithin #[] 2).outcome = .outOfSteps ∧
      ((clearingMachine []).runWithin #[] (2 + 2)).machine =
        (((clearingMachine []).runWithin #[] 2).machine.walk 2).machine.halt ∧
      (((clearingMachine []).runWithin #[] 2).machine.walk 2).machine.phase = .running ∧
      ((clearingMachine [⟨.changes, 1⟩]).runWithin #[] 1).outcome = .outOfSteps ∧
      ((clearingMachine [⟨.changes, 1⟩]).runWithin #[] 1).machine.cancelRequested = true ∧
      ((clearingMachine [⟨.changes, 1⟩]).runWithin #[] 1).machine.step.ran = none ∧
      ((clearingMachine [⟨.changes, 1⟩]).runWithin #[] (1 + 2)).outcome = .cancelled := by
  have hspent : ((clearingMachine []).runWithin #[] 2).outcome = .outOfSteps := by decide +kernel
  have hspent' : ((clearingMachine [⟨.changes, 1⟩]).runWithin #[] 1).outcome = .outOfSteps := by
    decide +kernel
  have hrequested : ((clearingMachine [⟨.changes, 1⟩]).runWithin #[] 1).machine.cancelRequested =
      true := by
    decide +kernel
  obtain ⟨-, hmachine, hrunning, -⟩ :=
    runWithin_add (clearingMachine []) #[] 2 2 (by decide) hspent
  obtain ⟨-, -, -, hobeyed⟩ :=
    runWithin_add (clearingMachine [⟨.changes, 1⟩]) #[] 1 2 (by decide) hspent'
  obtain ⟨hstep, hcancelled⟩ := hobeyed hrequested
  exact ⟨hspent, hmachine.trans (if_pos (by decide +kernel)), hrunning (by decide +kernel),
    hspent', hrequested, by rw [hstep], hcancelled (by decide)⟩

end Machine

/-! ### The loop that tests the counter -/

namespace Progress

/-- Step as long as the step counter is below the limit. From `r` this runs `n`
instructions; the flag of `out` says whether it ended because a step found nothing to
run. -/
inductive WhileBelow (limit : UInt64) : Progress → ℕ → Bool × Progress → Prop
  | spent {r : Progress} (h : ¬ r.machine.store.steps < limit) : WhileBelow limit r 0 (false, r)
  | ended {r r' : Progress} (h : r.machine.store.steps < limit) (hstep : r.step = (true, r')) :
      WhileBelow limit r 0 (true, r')
  | ran {r r' : Progress} {n : ℕ} {out : Bool × Progress} (h : r.machine.store.steps < limit)
      (hstep : r.step = (false, r')) (rest : WhileBelow limit r' n out) :
      WhileBelow limit r (n + 1) out

@[simp] theorem store_pause (r : Progress) (i : Instruction) :
    (r.pause i).machine.store = r.machine.store := by
  rcases r.machine_pause_cases i with hpause | hpause
  · rw [hpause]
  · rw [hpause, Machine.requestCancel]

theorem steps_step_of_end (hstep : r.step = (true, r')) :
    r'.machine.store.steps = r.machine.store.steps := by
  cases hran : r.machine.step.ran with
  | none =>
    rw [step_of_halted hran] at hstep
    cases hstep
    exact Machine.steps_step_of_halted hran
  | some i =>
    rw [step_of_ran hran] at hstep
    cases hstep

theorem steps_step_of_not_end (hbelow : r.machine.store.steps < limit)
    (hstep : r.step = (false, r')) :
    r'.machine.store.steps.toNat = r.machine.store.steps.toNat + 1 := by
  cases hran : r.machine.step.ran with
  | none =>
    rw [step_of_halted hran] at hstep
    cases hstep
  | some i =>
    rw [step_of_ran hran] at hstep
    cases hstep
    have hsize : r.machine.store.steps.toNat + 1 < UInt64.size :=
      (Nat.succ_le_of_lt (UInt64.lt_iff_toNat_lt.mp hbelow)).trans_lt limit.toNat_lt_size
    rw [store_pause]
    change r.machine.step.machine.store.steps.toNat = _
    rw [Machine.steps_step_of_ran hran, UInt64.toNat_add]
    exact Nat.mod_eq_of_lt hsize

theorem WhileBelow.eq_advance (h : WhileBelow limit r n out) :
    out = r.advance (limit.toNat - r.machine.store.steps.toNat) ∧
      out.2.machine.store.steps.toNat = r.machine.store.steps.toNat + n := by
  induction h with
  | spent h =>
    rw [UInt64.lt_iff_toNat_lt, not_lt] at h
    rw [Nat.sub_eq_zero_of_le h, advance_zero]
    exact ⟨rfl, rfl⟩
  | @ended r r' h hstep =>
    rw [UInt64.lt_iff_toNat_lt] at h
    obtain ⟨l, hl⟩ := Nat.exists_eq_add_of_lt h
    rw [hl, Nat.add_assoc, Nat.add_sub_cancel_left, advance_eq, repeatUntil_succ_of_end l hstep]
    exact ⟨rfl, congrArg UInt64.toNat (steps_step_of_end hstep)⟩
  | @ran r r' n out h hstep rest ih =>
    have hsteps := steps_step_of_not_end h hstep
    rw [UInt64.lt_iff_toNat_lt] at h
    obtain ⟨l, hl⟩ := Nat.exists_eq_add_of_lt h
    rw [hsteps, hl, advance_eq, Nat.add_right_comm, Nat.add_sub_cancel_left] at ih
    rw [hl, Nat.add_assoc, Nat.add_sub_cancel_left, advance_eq,
      repeatUntil_succ_of_not_end l hstep, ih.2]
    exact ⟨ih.1, by omega⟩

theorem exists_whileBelow (limit : UInt64) (r : Progress) :
    ∃ n out, WhileBelow limit r n out ∧
      (r.machine.store.steps ≤ limit → r.machine.store.steps.toNat + n ≤ limit.toNat) := by
  generalize hleft : limit.toNat - r.machine.store.steps.toNat = left
  induction left generalizing r with
  | zero =>
    refine ⟨0, _, .spent ?_, ?_⟩
    · rw [UInt64.lt_iff_toNat_lt]
      omega
    · rw [UInt64.le_iff_toNat_le]
      exact id
  | succ left ih =>
    have hbelow : r.machine.store.steps < limit := by
      rw [UInt64.lt_iff_toNat_lt]
      omega
    cases hstep : r.step with
    | mk ended r' =>
      cases ended with
      | true => exact ⟨0, _, .ended hbelow hstep, UInt64.le_iff_toNat_le.mp⟩
      | false =>
        have hsteps := steps_step_of_not_end hbelow hstep
        obtain ⟨n, out, hloop, hle⟩ := ih r' (by omega)
        refine ⟨n + 1, out, .ran hbelow hstep hloop, ?_⟩
        intro _
        have := hle (UInt64.le_iff_toNat_le.mpr (by omega))
        omega

/-- From the beginning of a run the loop comes to an end in exactly one way, within the
limit and with every instruction counted. -/
theorem whileBelow_launch (m : Machine) (input : Array UInt8) (pace : Pace) (limit : UInt64) :
    ∃ n ≤ limit.toNat,
      ((m.launch input pace).advance limit.toNat).2.machine.store.steps.toNat = n ∧
      ∀ k out, WhileBelow limit (m.launch input pace) k out ↔
        k = n ∧ out = (m.launch input pace).advance limit.toNat := by
  have hzero : (m.launch input pace).machine.store.steps.toNat = 0 := rfl
  obtain ⟨n, out, hloop, hle⟩ := exists_whileBelow limit (m.launch input pace)
  obtain ⟨rfl, hsteps⟩ := hloop.eq_advance
  rw [hzero, Nat.sub_zero, Nat.zero_add] at hsteps
  refine ⟨n, ?_, hsteps, ?_⟩
  · have := hle (UInt64.le_iff_toNat_le.mpr (hzero ▸ Nat.zero_le _))
    omega
  · intro k out
    constructor
    · intro hk
      obtain ⟨hout, hcount⟩ := hk.eq_advance
      rw [hzero, Nat.sub_zero] at hout
      rw [hout, hsteps, hzero, Nat.zero_add] at hcount
      exact ⟨hcount.symm, hout⟩
    · rintro ⟨rfl, rfl⟩
      exact hloop

end Progress

end TapeMachine
