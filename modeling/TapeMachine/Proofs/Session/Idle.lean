import TapeMachine.Proofs.Runs.Budget
import TapeMachine.Proofs.Session.Stopped

/-!
# Idle machines stepped by hand

A step that finds a machine idle lets it run and resets nothing but the request for
cancellation. That is enough: whatever led to the idle machine has left it as a start with
no input would. So a loaded machine that is stepped by hand is in a run with an empty
queue, from its first step on.
-/
namespace TapeMachine

namespace Machine

variable {m m' : Machine}

theorem walk_succ_congr (h : m.step = m'.step) (k : ℕ) : m.walk (k + 1) = m'.walk (k + 1) := by
  rw [walk, walk, h]

theorem haltsAfter_congr (h : m.step = m'.step) (n : ℕ) : m.HaltsAfter n ↔ m'.HaltsAfter n := by
  cases n with
  | zero => simp [HaltsAfter, walk, h]
  | succ n => rw [HaltsAfter, HaltsAfter, walk_succ_congr h]

end Machine

namespace Session

variable {setup : Setup} {past : History} {m : Machine}

/-- All that a start with no input does to an idle machine is to let it run and to drop the
request for cancellation. -/
theorem Sound.start_of_idle (h : Sound setup past m) (hidle : m.phase = .idle) :
    m.start #[] = { m with phase := .running, cancelRequested := false } := by
  have hcancelled : m.cancelled = false := by
    by_contra hcancelled
    have hhalted := h.halted_of_cancelled (by simpa using hcancelled)
    rw [hidle] at hhalted
    cases hhalted
  have hstore : Store.initial m.store.tape.rewind #[] = m.store := by
    rw [h.store_of_idle hidle]
    rfl
  rw [Machine.start, hstore, ← hcancelled]

theorem Sound.wake_of_idle (h : Sound setup past m) (hidle : m.phase = .idle) :
    m.wake = m.start #[] := by
  rw [h.start_of_idle hidle, Machine.wake, if_pos hidle]

/-- The first step of an idle machine with a program is the first step of a run without
input. -/
theorem Sound.step_of_idle (h : Sound setup past m) (hidle : m.phase = .idle)
    (hsize : 0 < m.program.size) : m.step = (m.start #[]).step := by
  have hpc : m.store.pc = 0 := (h.blank_of_idle hidle).1
  have hget : m.program.get? 0 = some m.program.code[0] := Array.getElem?_eq_getElem hsize
  rw [Machine.step_of_idle hidle (by rwa [hpc]), h.wake_of_idle hidle,
    Machine.step_of_running (m.start #[]) rfl rfl hget]

/-- Without a program there is nothing to run, and a machine that is halted by a step keeps
the request that it did not heed. -/
theorem step_of_empty (hidle : m.phase = .idle) (hsize : m.program.size = 0) :
    m.step = ⟨m.halt, none, .halted, []⟩ ∧
      (m.start #[]).step = ⟨(m.start #[]).halt, none, .halted, []⟩ := by
  have hget : ∀ i, m.program.get? i = none :=
    fun i => Array.getElem?_eq_none_iff.mpr (hsize.le.trans (Nat.zero_le i))
  refine ⟨?_, Machine.step_at_end rfl (hget _)⟩
  rw [Machine.step_of_end (hget _), Machine.heed_of_idle hidle]

/-- To step a reached machine that is idle is to run it with no input, whatever listener it
has and whatever was asked of it before. With a program to run, each number of steps gives
what as many steps give after a start: the same effects, the same events and the same
machine. Stepping until it halts ends where a run ends, and a run ends only there. With no
program both halt at once; a start takes back a request for cancellation, and a step
leaves it. -/
theorem steps_of_idle_are_run (h : Reached setup m past) (hidle : m.phase = .idle) :
    (0 < m.program.size →
      m.step = (m.start #[]).step ∧
      (∀ k, m.walk (k + 1) = (m.start #[]).walk (k + 1)) ∧
      ∀ e, m.run #[] = some e ↔
        ∃ n < UInt64.size, m.HaltsAfter n ∧ e = (m.walk (n + 1)).finish) ∧
    (m.program.size = 0 →
      (m.step.effect = .halted ∧ m.step.events = [] ∧ m.step.machine.phase = .halted) ∧
      ((m.start #[]).step.effect = .halted ∧ (m.start #[]).step.events = [] ∧
        (m.start #[]).step.machine = { m.step.machine with cancelRequested := false }) ∧
      m.step.machine.cancelRequested = m.cancelRequested ∧
      m.run #[] = some ⟨(m.start #[]).step.machine, .completed, #[]⟩) := by
  constructor
  · intro hsize
    have hstep := h.sound.step_of_idle hidle hsize
    refine ⟨hstep, Machine.walk_succ_congr hstep, ?_⟩
    intro e
    simp only [Machine.run_eq_some_iff, Machine.haltsAfter_congr hstep,
      Machine.walk_succ_congr hstep]
  · intro hsize
    obtain ⟨hstep, hstart⟩ := step_of_empty hidle hsize
    have hhalts : (m.start #[]).HaltsAfter 0 := ⟨by simp [Machine.walk], congrArg _ hstart⟩
    refine ⟨?_, ?_, ?_, Machine.run_eq_some_iff.mpr ⟨0, by decide, hhalts, ?_⟩⟩
    · rw [hstep]
      exact ⟨rfl, rfl, rfl⟩
    · rw [hstep, hstart, h.sound.start_of_idle hidle]
      exact ⟨rfl, rfl, rfl⟩
    · rw [hstep]
      rfl
    · rw [Machine.walk, hstart]
      rfl

/-- A loaded machine with a request outstanding and an alarm that goes off in the run, and a
new one with a request. -/
theorem steps_of_idle_are_run_forever :
    ∃ m past m' past', Reached ⟨2, true⟩ m past ∧ Reached ⟨2, true⟩ m' past' ∧
      m.phase = .idle ∧ m.cancelRequested = true ∧ 0 < m.program.size ∧
      m'.phase = .idle ∧ m'.cancelRequested = true ∧ m'.program.size = 0 ∧
      m.walk 3 = (m.start #[]).walk 3 ∧
      (∃ e, m.run #[] = some e ∧ e.machine = (m.walk 2).machine ∧ e.outcome = .cancelled) ∧
      m'.step.machine.cancelRequested = true ∧
      (m'.start #[]).step.machine = { m'.step.machine with cancelRequested := false } := by
  have hnew : Reached ⟨2, true⟩ (.fresh ⟨2, true⟩ Nat.two_pos) .none := .new rfl
  have hrequest := hnew.apply .requestCancel rfl
  have hload := hrequest.apply (.load "+[]")
    (r := .quiet ((Machine.fresh ⟨2, true⟩ Nat.two_pos).install forever) .loaded) (by decide)
  have halarmed := hload.apply (.attach (.ofChannels [.changes] [⟨.changes, 1⟩])) rfl
  have hready := halarmed.apply .requestCancel rfl
  obtain ⟨hprogram, -⟩ := steps_of_idle_are_run hready rfl
  obtain ⟨-, hempty⟩ := steps_of_idle_are_run hrequest rfl
  obtain ⟨-, hwalk, hrun⟩ := hprogram (by decide)
  obtain ⟨-, ⟨-, -, hstart⟩, hkept, -⟩ := hempty rfl
  refine ⟨_, _, _, _, hready, hrequest, rfl, rfl, by decide, rfl, rfl, rfl, hwalk 2,
    ⟨_, (hrun _).mpr ⟨1, by decide, by decide +kernel, rfl⟩, rfl, by decide +kernel⟩, hkept,
    hstart⟩

end Session

end TapeMachine
