import TapeMachine.Machine.Basic
import TapeMachine.Proofs.Brackets.Partners

/-!
# One instruction

What executing an instruction does to the parts of a store, and what it leaves as
it is; and what a step of a machine is, by what it finds at its place. Later proofs
read these facts and not the instructions.
-/
namespace TapeMachine

def Effect.next (pc : ℕ) : Effect → ℕ
  | .jumped _ target => target + 1
  | _ => pc + 1

namespace Store

variable {io : Bool} {p : Program} {s : Store} {x : Instruction}

theorem step_of_get? (h : p.get? s.pc = some x) : s.step io p = (false, (s.execute io p x).2) := by
  simp only [step, h]

theorem step_of_end (h : p.get? s.pc = none) : s.step io p = (true, s) := by
  simp only [step, h]

theorem steps_execute (s : Store) (io : Bool) (p : Program) (x : Instruction) :
    (s.execute io p x).2.steps = s.steps + 1 := by
  cases x with
  | moveRight | moveLeft | increment | decrement => rfl
  | write | read => cases io <;> rfl
  | loopStart | loopEnd =>
    simp only [execute, perform, proceed, jump]
    split <;> rfl

theorem size_tape_execute (s : Store) (io : Bool) (p : Program) (x : Instruction) :
    (s.execute io p x).2.tape.size = s.tape.size := by
  cases x with
  | moveRight | moveLeft | increment | decrement => simp [execute, perform, proceed]
  | write | read => cases io <;> simp [execute, perform, proceed]
  | loopStart | loopEnd =>
    simp only [execute, perform, proceed, jump]
    split <;> rfl

theorem queues_execute (s : Store) (io : Bool) (p : Program) (x : Instruction) :
    ((s.execute io p x).2.output = s.output ∧ (s.execute io p x).2.input = s.input) ∨
      io = true ∧ ((∃ b, (s.execute io p x).2.output = s.output.push b) ∧
          (s.execute io p x).2.input = s.input ∨
        (s.execute io p x).2.output = s.output ∧ (s.execute io p x).2.input = s.input.pop) := by
  cases x with
  | moveRight | moveLeft | increment | decrement => exact .inl ⟨rfl, rfl⟩
  | write =>
    cases io with
    | false => exact .inl ⟨rfl, rfl⟩
    | true => exact .inr ⟨rfl, .inl ⟨⟨s.tape.current, rfl⟩, rfl⟩⟩
  | read =>
    cases io with
    | false => exact .inl ⟨rfl, rfl⟩
    | true => exact .inr ⟨rfl, .inr ⟨rfl, rfl⟩⟩
  | loopStart | loopEnd =>
    left
    simp only [execute, perform, proceed, jump]
    split <;> exact ⟨rfl, rfl⟩

theorem pc_execute (s : Store) (io : Bool) (p : Program) (x : Instruction) :
    (s.execute io p x).2.pc = (s.execute io p x).1.next s.pc := by
  cases x with
  | moveRight | moveLeft | increment | decrement => rfl
  | write | read => cases io <;> rfl
  | loopStart | loopEnd =>
    by_cases h : s.tape.current = 0 <;> simp [execute, perform, proceed, jump, Effect.next, h]

theorem pc_execute_le (io : Bool) (h : p.get? s.pc = some x) :
    (s.execute io p x).2.pc ≤ p.size := by
  have hpc : s.pc < p.size := (Array.getElem?_eq_some_iff.mp h).1
  have htarget : (p.partner? s.pc).getD s.pc < p.size := by
    cases hpartner : p.partner? s.pc with
    | none => exact hpc
    | some target => exact (p.partner?_lt_size hpartner).2
  cases x with
  | moveRight | moveLeft | increment | decrement => exact hpc
  | write | read => cases io <;> exact hpc
  | loopStart | loopEnd =>
    simp only [execute, perform, proceed, jump]
    split
    · exact htarget
    · exact hpc

end Store

namespace Machine

theorem ofSetup_of_pos {setup : Setup} (h : 0 < setup.tapeSize) :
    ofSetup setup = .ok (.fresh setup h) := by
  unfold ofSetup
  split
  · rfl
  · next e he => exact absurd (Setup.check_eq_error_iff.mp he) h.ne'

theorem eq_fresh_of_ofSetup {setup : Setup} {m : Machine} (h : ofSetup setup = .ok m) :
    ∃ size_pos, m = .fresh setup size_pos := by
  unfold ofSetup at h
  split at h
  · exact ⟨_, (Except.ok.inj h).symm⟩
  · simp at h

variable {m : Machine} {x : Instruction}

theorem step_of_get? (h : m.program.get? m.heed.store.pc = some x) :
    m.step = m.heed.wake.execute x := by
  rw [← program_heed] at h
  rw [step, fetch, h]

theorem step_of_end (h : m.program.get? m.heed.store.pc = none) :
    m.step = ⟨m.heed.halt, none, .halted, []⟩ := by
  rw [← program_heed] at h
  rw [step, fetch, h]

theorem cancel_cases (m : Machine) : m.cancel = m ∨ m.cancel = m.abort := by
  unfold cancel
  split
  · exact .inr rfl
  · exact .inl rfl

theorem heed_cases (m : Machine) : m.heed = m ∨ m.heed = m.abort := by
  unfold heed
  split
  · exact m.cancel_cases
  · exact .inl rfl

/-- What runs in a step stands at the program counter: a machine that heeds a request
has left the program. -/
theorem get?_of_ran (h : m.step.ran = some x) : m.program.get? m.store.pc = some x := by
  cases hget : m.program.get? m.heed.store.pc with
  | none => simp [step_of_end hget] at h
  | some y =>
    have hx : some y = some x := by
      rw [step_of_get? hget] at h
      exact h
    rcases m.heed_cases with hheed | hheed
    · rw [hheed] at hget
      exact hget.trans hx
    · have hnone : m.program.get? m.abort.store.pc = none := Array.getElem?_size
      rw [hheed, hnone] at hget
      simp at hget

@[simp] theorem program_wake : m.wake.program = m.program := by
  unfold wake
  split <;> rfl

@[simp] theorem store_wake : m.wake.store = m.store := by
  unfold wake
  split <;> rfl

@[simp] theorem setup_wake : m.wake.setup = m.setup := by
  unfold wake
  split <;> rfl

@[simp] theorem cancelled_wake : m.wake.cancelled = m.cancelled := by
  unfold wake
  split <;> rfl

theorem phase_wake (h : m.phase ≠ .halted) : m.wake.phase = .running := by
  unfold wake
  split
  · rfl
  · next hidle =>
    cases hphase : m.phase with
    | idle => exact absurd hphase hidle
    | running => rfl
    | halted => exact absurd hphase h

end Machine

end TapeMachine
