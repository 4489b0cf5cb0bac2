import TapeMachine.Proofs.Runs.Underway
import TapeMachine.Proofs.Session.Soundness

/-!
# What every operation keeps

A property of machines that the moves keep of which operations are made holds of every
reached machine.
-/
namespace TapeMachine

/-- New machines have the property, and nothing that can be done with a machine takes it
away. -/
structure Kept (P : Machine → Prop) : Prop where
  fresh : ∀ setup size_pos, P (.fresh setup size_pos)
  install : ∀ m p, P m → P (m.install p)
  start : ∀ m input, P m → P (m.start input)
  step : ∀ m, P m → P m.step.machine
  halt : ∀ m, P m → m.program.size ≤ m.store.pc → P m.halt
  cancel : ∀ m, P m → P m.cancel
  requestCancel : ∀ m, P m → P m.requestCancel
  attach : ∀ m listener, P m → P (m.attach listener)

namespace Kept

variable {P : Machine → Prop} {m m' : Machine} {input : Array UInt8} {k : ℕ}

theorem walk (hP : Kept P) (h : P m) (count : ℕ) : P (m.walk count).machine := by
  induction count with
  | zero => exact h
  | succ count ih =>
    rw [Machine.machine_walk_succ]
    exact hP.step _ ih

theorem underway (hP : Kept P) (hstart : P (m.start input)) (h : m.Underway input m' k) : P m' := by
  induction h with
  | start => exact hstart
  | step h ih => exact hP.step _ ih
  | halt h hend ih => exact hP.halt _ ih hend
  | cancel h ih => exact hP.cancel _ ih
  | requestCancel h ih => exact hP.requestCancel _ ih
  | attach h listener ih => exact hP.attach _ listener ih

open Session

theorem apply (hP : Kept P) (h : P m) {op : Operation} {r : Response}
    (answer : op.apply m = some r) : P r.machine := by
  cases op with
  | load source =>
    cases hcode : Program.ofText source with
    | ok p =>
      simp only [Operation.apply, load_of_accepted m hcode] at answer
      obtain rfl := Option.some.inj answer
      exact hP.install m p h
    | error e =>
      simp only [Operation.apply, load_of_refused m hcode] at answer
      obtain rfl := Option.some.inj answer
      exact h
  | start input =>
    obtain rfl := Option.some.inj answer
    exact hP.start m input h
  | step count =>
    obtain rfl := Option.some.inj answer
    exact hP.walk h count
  | run input | runPaced input pace =>
    obtain ⟨e, hrun, rfl⟩ := Option.map_eq_some_iff.mp answer
    exact hP.underway (hP.start m input h) (Machine.underway_runPaced hrun)
  | runWithin input limit =>
    obtain rfl := Option.some.inj answer
    exact hP.underway (hP.start m input h) (m.underway_runWithin input limit)
  | cancel =>
    obtain rfl := Option.some.inj answer
    exact hP.cancel m h
  | requestCancel =>
    obtain rfl := Option.some.inj answer
    exact hP.requestCancel m h
  | attach listener =>
    obtain rfl := Option.some.inj answer
    exact hP.attach m listener h
  | judge | showProgram | describe =>
    obtain rfl := Option.some.inj answer
    exact h

theorem of_reached (hP : Kept P) {setup : Setup} {past : History} (h : Reached setup m past) :
    P m := by
  induction h with
  | new h =>
    obtain ⟨size_pos, rfl⟩ := Machine.eq_fresh_of_ofSetup h
    exact hP.fresh _ size_pos
  | apply _ op answer ih => exact hP.apply ih answer

end Kept

end TapeMachine
