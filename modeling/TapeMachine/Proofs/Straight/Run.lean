import TapeMachine.Proofs.Silence.Run
import TapeMachine.Proofs.Straight.Reckoning

/-!
# Runs of straight code

A program of moves, changes and writes alone executes each of its instructions once. It is
at its end after as many steps as it has instructions, and leaves the tape and the output
that counting gives.
-/
namespace TapeMachine

namespace Store

variable {io : Bool} {p : Program} {x : Instruction}

theorem execute_of_isVisible (s : Store) (io : Bool) (p : Program) (hx : x.isVisible = true) :
    (s.execute io p x).2 =
      { tape := s.tape.after x
        pc := s.pc + 1
        input := s.input
        output := if io = true ∧ x = .write then s.output.push s.tape.current else s.output
        steps := s.steps + 1 } := by
  cases x with
  | moveRight | moveLeft | increment | decrement => simp [execute, perform, proceed, Tape.after]
  | write => cases io <;> rfl
  | read | loopStart | loopEnd => simp [Instruction.isVisible] at hx

/-- The store after some straight code, as it is reckoned, if it began with the cells of
`t` and with `input`. -/
def reckoned (io : Bool) (t : Tape) (input : Array UInt8) (code : List Instruction) : Store where
  tape := t.reckoned code
  pc := code.length
  input := input
  output := if io then (t.writtenBy code).toArray else #[]
  steps := .ofNat code.length

variable (t : Tape) (input : Array UInt8)

theorem reckoned_nil : reckoned io t input [] = .initial t.rewind input := by
  rw [reckoned, t.reckoned_nil]
  cases io <;> rfl

theorem execute_reckoned (io : Bool) (p : Program) (code : List Instruction)
    (hx : x.isVisible = true) :
    ((reckoned io t input code).execute io p x).2 = reckoned io t input (code ++ [x]) := by
  rw [execute_of_isVisible _ _ _ hx]
  simp only [reckoned, t.reckoned_concat, t.writtenBy_concat]
  cases io <;> by_cases hwrite : x = .write <;> simp [hwrite]

/-- Each step adds one instruction to the code that has been reckoned with. -/
theorem leads_reckoned (io : Bool) (hcode : ∀ x ∈ p.code.toList, x.isVisible = true) (k : ℕ)
    (hk : k ≤ p.code.toList.length) :
    (Store.initial t.rewind input).Leads io p k (reckoned io t input (p.code.toList.take k)) := by
  induction k with
  | zero =>
    rw [List.take_zero, reckoned_nil]
    exact .refl _
  | succ k ih =>
    have hlt : k < p.code.toList.length := hk
    have hpc : (reckoned io t input (p.code.toList.take k)).pc = k :=
      List.length_take_of_le hlt.le
    have hvisible := hcode _ (List.getElem_mem hlt)
    refine (ih hlt.le).trans (leads_succ_iff.mpr ⟨p.code.toList[k], ?_, ?_⟩)
    · rw [hpc, ← p.getElem?_toList_code, List.getElem?_eq_getElem hlt]
    · rw [execute_reckoned t input io p _ hvisible, List.take_append_getElem hlt]
      exact .refl _

theorem endsAfter_reckoned (io : Bool) (hcode : ∀ x ∈ p.code.toList, x.isVisible = true) :
    (Store.initial t.rewind input).EndsAfter io p p.code.toList.length
      (reckoned io t input p.code.toList) := by
  have hlead := leads_reckoned t input io hcode _ le_rfl
  rw [List.take_length] at hlead
  exact ⟨hlead, Array.getElem?_size⟩

end Store

/-! ### Straight programs -/

theorem Program.exists_ofCode_of_isVisible {code : List Instruction}
    (hcode : ∀ x ∈ code, x.isVisible = true) : ∃ p, ofCode code = .ok p := by
  rw [exists_ofCode_eq_ok_iff]
  induction code with
  | nil => exact Brackets.balanced_nil
  | cons x code ih =>
    obtain ⟨hx, hrest⟩ := List.forall_mem_cons.mp hcode
    have hbracket : x.isBracket = false := by
      cases x <;> simp_all [Instruction.isVisible, Instruction.isBracket]
    exact (ih hrest).cons hbracket

/-- A text whose instructions are all moves, changes of cells and writes is a program, and
on every tape it is at its end after as many steps as it has instructions. The pointer is
then where the moves lead from the first cell, around the tape. Every cell holds what it
held at the beginning, with the increments and without the decrements that stood where the
moves before them had led to it, modulo 256. Each `.` has written what that makes of the
cell under the pointer, if there is input and output, and the input is still whole. -/
theorem straight_run_reckoned {source : String}
    (h : ∀ x ∈ Program.instructions source, x.isVisible = true) :
    ∃ p, Program.ofText source = .ok p ∧
      ∀ (m : Machine) (input : Array UInt8), m.program = p → (m.start input).Undisturbed →
        let code := Program.instructions source
        let t := m.store.tape
        let s := ((m.start input).walk code.length).machine.store
        (m.start input).HaltsAfter code.length ∧
        s.tape.size = t.size ∧ (s.tape.pointer : ℤ) = displacement code % t.size ∧
        (∀ cell < t.size, s.tape.cells[cell]? = some (t.valueAfter code cell)) ∧
        s.output.toList = (if m.setup.io then t.writtenBy code else []) ∧ s.input = input ∧
        (code.length < UInt64.size → ∃ e, m.run input = some e ∧ e.outcome = .completed ∧
          e.machine.store = s ∧ s.steps.toNat = code.length) := by
  obtain ⟨p, hp⟩ := Program.exists_ofCode_of_isVisible h
  refine ⟨p, hp, ?_⟩
  rintro m input rfl hcalm code t s
  have hcode : m.program.code.toList = code := Program.toList_code_of_ofCode hp
  have hvisible : ∀ x ∈ m.program.code.toList, x.isVisible = true := by
    rw [hcode]
    exact h
  have hend := Store.endsAfter_reckoned t input m.setup.io hvisible
  rw [hcode] at hend
  have hstore : s = Store.reckoned m.setup.io t input code := by
    rw [show s = _ from (hcalm.walk_eq rfl code.length).1]
    exact congrArg Prod.snd hend.1
  refine ⟨(hcalm.haltsAfter_iff rfl rfl).mpr ⟨_, hend⟩, ?_⟩
  rw [hstore]
  refine ⟨t.size_reckoned code, t.coe_placeAfter code, fun cell => Tape.getElem?_cells_reckoned,
    ?_, rfl, Machine.run_of_endsAfter hcalm rfl hend⟩
  cases m.setup.io <;> rfl

/-- A program that goes over the seam and over the ends of a byte, both ways. -/
def winding : String := "left <+.< right +>->."

def brimful : Tape :=
  (Tape.blank 2 Nat.two_pos).moveRight.store 255

theorem straight_run_reckoned_winding :
    (∀ x ∈ Program.instructions winding, x.isVisible = true) ∧
      ∃ m : Machine, Program.ofText winding = .ok m.program ∧ m.store.tape = brimful ∧
        (m.start #[7]).Undisturbed ∧
        ∃ e, m.run #[7] = some e ∧ e.outcome = .completed ∧
          e.machine.store.steps.toNat = 9 ∧ (e.machine.store.tape.pointer : ℤ) = 0 ∧
          e.machine.store.tape.cells[0]? = some 1 ∧ e.machine.store.tape.cells[1]? = some 255 ∧
          e.machine.store.output.toList = [0, 1] ∧ e.machine.store.input = #[7] := by
  have hvisible : ∀ x ∈ Program.instructions winding, x.isVisible = true := by decide +kernel
  obtain ⟨p, hp, hruns⟩ := straight_run_reckoned hvisible
  let m : Machine := { Machine.loaded p with store := .initial brimful #[] }
  have hcalm : (m.start #[7]).Undisturbed :=
    Machine.undisturbed_of_alarms rfl (by simp [Machine.start]) rfl
  obtain ⟨-, -, hpointer, hcells, houtput, hinput, hrun⟩ := hruns m #[7] rfl hcalm
  obtain ⟨e, he, houtcome, hstore, hsteps⟩ := hrun (by decide +kernel)
  rw [← hstore] at hpointer hcells houtput hinput hsteps
  have hlength : (Program.instructions winding).length = 9 := by decide +kernel
  have hplace : displacement (Program.instructions winding) % (brimful.size : ℤ) = 0 := by
    decide +kernel
  have hfirst : brimful.valueAfter (Program.instructions winding) 0 = 1 := by decide +kernel
  have hsecond : brimful.valueAfter (Program.instructions winding) 1 = 255 := by decide +kernel
  have hwritten : brimful.writtenBy (Program.instructions winding) = [0, 1] := by decide +kernel
  have hsize : 1 < brimful.size := by decide +kernel
  exact ⟨hvisible, m, hp, rfl, hcalm, e, he, houtcome, hsteps.trans hlength,
    hpointer.trans hplace, (hcells 0 brimful.size_pos).trans (congrArg some hfirst),
    (hcells 1 hsize).trans (congrArg some hsecond), houtput.trans hwritten, hinput⟩

end TapeMachine
