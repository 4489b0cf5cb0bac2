import TapeMachine.Proofs.Symmetry.Run

/-!
# Negated bytes

Cells wrap around at both ends, so that no sign of a byte is better than the other. When
`+` and `-` change places, a program does to the negated bytes what it did to the bytes.
Zero is its own negation: a loop that tests a cell, or a read that finds no input, sees no
difference.
-/
namespace TapeMachine

namespace Tape

def negated (t : Tape) : Tape where
  bytes := ⟨t.cells.map fun b => -b⟩
  pointer := t.pointer
  pointer_lt := by
    rw [← ByteArray.size_data, Array.size_map]
    exact t.pointer_lt

variable (t : Tape)

theorem cells_negated : t.negated.cells = t.cells.map fun b => -b := rfl

theorem pointer_negated : t.negated.pointer = t.pointer := rfl

theorem size_negated : t.negated.size = t.size := by
  rw [← size_cells, cells_negated, Array.size_map, size_cells]

theorem current_negated : t.negated.current = -t.current :=
  Array.getElem_map ..

theorem negated_store (b : UInt8) : (t.store b).negated = t.negated.store (-b) := by
  apply Tape.ext
  · rw [cells_negated, cells_store, Array.map_set, cells_store]
    rfl
  · rfl

theorem negated_moveRight : t.moveRight.negated = t.negated.moveRight := by
  apply Tape.ext
  · rw [cells_negated, cells_moveRight, cells_moveRight, cells_negated]
  · rw [pointer_negated, pointer_moveRight, pointer_moveRight, size_negated, pointer_negated]

theorem negated_moveLeft : t.moveLeft.negated = t.negated.moveLeft := by
  apply Tape.ext
  · rfl
  · rw [pointer_negated, pointer_moveLeft, pointer_moveLeft, size_negated, pointer_negated]

theorem negated_increment : t.increment.negated = t.negated.decrement := by
  rw [increment, decrement, negated_store, current_negated, UInt8.neg_add]

theorem negated_decrement : t.decrement.negated = t.negated.increment := by
  rw [increment, decrement, negated_store, current_negated, UInt8.neg_sub, UInt8.sub_eq_add_neg,
    UInt8.add_comm]

theorem negated_blank (size : ℕ) (size_pos : 0 < size) :
    (blank size size_pos).negated = blank size size_pos := by
  apply Tape.ext
  · rw [cells_negated, cells_blank, Array.map_replicate]
    rfl
  · rfl

theorem negated_after (x : Instruction) :
    (t.after x).negated = t.negated.after (Equiv.swap .increment .decrement x) := by
  cases x with
  | moveRight => exact t.negated_moveRight
  | moveLeft => exact t.negated_moveLeft
  | increment => exact t.negated_increment
  | decrement => exact t.negated_decrement
  | _ => rfl

end Tape

/-! ### Negated programs -/

/-- Up and down change places, and every byte becomes its negation. -/
def negation : Symmetry where
  exchange := Equiv.swap .increment .decrement
  tape := Tape.negated
  byte b := -b
  exchange_of_none := Instruction.swap_of_tapeChannel?_eq_none rfl rfl
  tapeChannel?_exchange := Instruction.tapeChannel?_swap rfl
  byte_eq_zero_iff _ := not_iff_not.mp UInt8.neg_ne_zero
  current_tape := Tape.current_negated
  tape_store := Tape.negated_store
  tape_after := Tape.negated_after
  tape_blank := Tape.negated_blank

open Session

/-- A program and the one with `+` and `-` exchanged do the same to bytes and to their
negations, on two machines of one setup and whatever was done with these before: within
any limit their runs have the same outcome after the same number of steps, at the same
place of the program and of the tape. The cells, the output and the rest of the input of
one run are the negations of those of the other. -/
theorem negated_runs_agree {source : String} {p : Program} (h : Program.ofText source = .ok p) :
    ∃ q, Program.ofText (exchanged .increment .decrement source) = .ok q ∧
      ∀ (setup : Setup) (m m' : Machine) (past past' : History),
        Reached setup m past → Reached setup m' past' → m.listener.Alike m'.listener →
        m.load source = .ok (m.install p) ∧
        m'.load (exchanged .increment .decrement source) = .ok (m'.install q) ∧
        ∀ (input : Array UInt8) (limit : UInt64),
          let e := (m.install p).runWithin input limit
          let e' := (m'.install q).runWithin (input.map fun b => -b) limit
          let s := e.machine.store
          let s' := e'.machine.store
          e'.outcome = e.outcome ∧ s'.steps = s.steps ∧ s'.pc = s.pc ∧
            s'.tape.pointer = s.tape.pointer ∧ s'.tape.cells = s.tape.cells.map (fun b => -b) ∧
            s'.output = s.output.map (fun b => -b) ∧ s'.input = s.input.map (fun b => -b) := by
  obtain ⟨q, hq, hcode⟩ := negation.exists_ofText_exchanged rfl h
  refine ⟨q, hq, ?_⟩
  intro setup m m' past past' hm hm' halike
  refine ⟨load_of_accepted m h, load_of_accepted m' hq, ?_⟩
  intro input limit e e' s s'
  obtain ⟨houtcome, hstore, -⟩ := negation.runWithin_install hm hm' halike hcode input limit
  have hsame : s' = negation.store s := hstore
  rw [hsame]
  exact ⟨houtcome, rfl, rfl, rfl, rfl, rfl, rfl⟩

/-- The program `,+[.-],.`, which counts a byte down before it passes the next one on. -/
def countingDown : Program where
  code := #[.read, .increment, .loopStart, .write, .decrement, .loopEnd, .read, .write]
  partners := #[none, none, some 5, none, none, some 2, none, none]
  table_eq := rfl

/-- One cell wraps around upwards, the other downwards, and both programs leave out the
loop. -/
theorem negated_runs_agree_countingDown :
    ∃ q m past, Program.ofText ",-[.+],." = .ok q ∧ Reached ⟨1, true⟩ m past ∧
      let e := (m.install countingDown).runWithin #[4, 9, 255] 8
      let e' := (m.install q).runWithin #[252, 247, 1] 8
      e.outcome = .completed ∧ e.machine.store.steps = 5 ∧ e.machine.store.output = #[9] ∧
        e'.outcome = .completed ∧ e'.machine.store.steps = 5 ∧
        e'.machine.store.output = #[247] ∧ e'.machine.store.input = #[252] := by
  have hp : Program.ofText ",+[.-],." = .ok countingDown := by decide +kernel
  have hsource : exchanged .increment .decrement ",+[.-],." = ",-[.+],." := by decide +kernel
  have hnew : Reached ⟨1, true⟩ (.fresh ⟨1, true⟩ one_pos) .none := .new rfl
  obtain ⟨q, hq, hruns⟩ := negated_runs_agree hp
  obtain ⟨-, -, hagree⟩ := hruns _ _ _ _ _ hnew hnew (.inl rfl)
  have hnegated : (#[4, 9, 255] : Array UInt8).map (fun b => -b) = #[252, 247, 1] := by
    decide +kernel
  have hagree := hagree #[4, 9, 255] 8
  rw [hnegated] at hagree
  obtain ⟨houtcome, hsteps, -, -, -, houtput, hinput⟩ := hagree
  refine ⟨q, _, _, hsource ▸ hq, hnew, by decide +kernel, by decide +kernel, by decide +kernel,
    ?_, ?_, ?_, ?_⟩
  · refine houtcome.trans ?_
    decide +kernel
  · refine hsteps.trans ?_
    decide +kernel
  · refine houtput.trans ?_
    decide +kernel
  · refine hinput.trans ?_
    decide +kernel

end TapeMachine
