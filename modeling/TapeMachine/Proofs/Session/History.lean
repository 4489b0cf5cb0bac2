import TapeMachine.Session.Operation
import Mathlib.Tactic

/-!
# Reached machines

A machine is reached when it is new, or an operation with an answer led to it from
one that is reached. Beside it goes what the machine itself does not keep: the queue
that the run was given, and how many instructions ran since.
-/
namespace TapeMachine

/-- How many steps do not come to an end, if there are `count` of them or fewer. -/
def stepsUntil {σ : Type} (step : σ → Bool × σ) : ℕ → σ → ℕ
  | 0, _ => 0
  | count + 1, s =>
    match step s with
    | (true, _) => 0
    | (false, s) => stepsUntil step count s + 1

theorem stepsUntil_le {σ : Type} (step : σ → Bool × σ) (count : ℕ) (s : σ) :
    stepsUntil step count s ≤ count := by
  induction count generalizing s with
  | zero => exact le_rfl
  | succ count ih =>
    rw [stepsUntil]
    split
    · exact Nat.zero_le _
    · exact Nat.succ_le_succ (ih _)

theorem stepsUntil_lt {σ : Type} {step : σ → Bool × σ} {count : ℕ} {s : σ}
    (h : (repeatUntil step count s).1 = true) : stepsUntil step count s < count := by
  induction count generalizing s with
  | zero => simp at h
  | succ count ih =>
    cases hs : step s with
    | mk ended next =>
      cases ended with
      | true => simp [stepsUntil, hs]
      | false =>
        rw [repeatUntil_succ_of_not_end count hs] at h
        simpa [stepsUntil, hs] using ih h

namespace Session

/-- What happened since the last start or load. -/
structure History where
  /-- The queue given at the start. -/
  given : Array UInt8
  /-- The number of instructions that ran. -/
  ran : ℕ

namespace History

def none : History := ⟨#[], 0⟩

def after (m : Machine) (past : History) : Operation → History
  | .load source =>
    match m.load source with
    | .ok _ => none
    | .error _ => past
  | .start input => ⟨input, 0⟩
  | .step count => { past with ran := past.ran + (m.walk count).effects.countP (· ≠ .halted) }
  | .run input => ⟨input, stepsUntil Progress.step UInt64.size (m.launch input .immediate)⟩
  | .runWithin input limit =>
    ⟨input, stepsUntil Progress.step limit.toNat (m.launch input .immediate)⟩
  | .runPaced input pace => ⟨input, stepsUntil Progress.step UInt64.size (m.launch input pace)⟩
  | .cancel | .requestCancel | .attach _ | .judge _ | .showProgram | .describe => past

end History

/-- Operations lead from a new machine to `m`; `past` is what happened on the way.
The machines within a run, with requests that come at any moment of it, are reached
by starting it, stepping and requesting. -/
inductive Reached (setup : Setup) : Machine → History → Prop
  | new {m : Machine} (h : Machine.ofSetup setup = .ok m) : Reached setup m .none
  | apply {m : Machine} {past : History} {r : Response} (h : Reached setup m past)
      (op : Operation) (answer : op.apply m = some r) : Reached setup r.machine (past.after m op)

end Session

end TapeMachine
