import TapeMachine.Proofs.Symmetry.Run

/-!
# The circular tape seen from behind

A circular tape can be read in either direction. When `<` and `>` change places, a program
does the same on the tape turned around its first cell: cell `i` changes places with cell
`size - i`, the first cell stays. Both moves wrap around at the seam, one by one
comparison and the other by another, but each of them is the other one seen from behind.
-/
namespace TapeMachine

/-- The cell that a cell changes places with when the tape is turned around. -/
def opposite (size i : ℕ) : ℕ :=
  (size - i) % size

variable {size i j : ℕ}

theorem opposite_lt (h : i < size) : opposite size i < size :=
  Nat.mod_lt _ (Nat.zero_lt_of_lt h)

theorem eq_opposite_iff (hi : i < size) (hj : j < size) :
    j = opposite size i ↔ (i + j) % size = 0 := by
  unfold opposite
  rcases Nat.eq_zero_or_pos i with rfl | hpos
  · rw [Nat.sub_zero, Nat.mod_self, Nat.zero_add, Nat.mod_eq_of_lt hj]
  · rw [Nat.mod_eq_of_lt (by omega)]
    rcases lt_or_ge (i + j) size with hlt | hge
    · rw [Nat.mod_eq_of_lt hlt]
      omega
    · rw [Nat.mod_eq_sub_mod hge, Nat.mod_eq_of_lt (by omega)]
      omega

theorem add_opposite (h : i < size) : (i + opposite size i) % size = 0 :=
  (eq_opposite_iff h (opposite_lt h)).mp rfl

theorem opposite_opposite (h : i < size) : opposite size (opposite size i) = i := by
  symm
  rw [eq_opposite_iff (opposite_lt h) h, Nat.add_comm]
  exact add_opposite h

/-- To go on by `a` cells is to go on by `b` seen from behind, if both together lead once
around the tape. -/
theorem opposite_add {a b : ℕ} (h : i < size) (hab : a + b = size) :
    opposite size ((i + a) % size) = (opposite size i + b) % size := by
  have hpos := Nat.zero_lt_of_lt h
  symm
  rw [eq_opposite_iff (Nat.mod_lt _ hpos) (Nat.mod_lt _ hpos), ← Nat.add_mod,
    show i + a + (opposite size i + b) = i + opposite size i + size by omega, Nat.add_mod_right,
    add_opposite h]

namespace Tape

/-- The tape turned around its first cell. -/
def mirrored (t : Tape) : Tape where
  bytes := ⟨Array.ofFn fun i : Fin t.size => t.cells.getD (opposite t.size i) 0⟩
  pointer := opposite t.size t.pointer
  pointer_lt := by
    rw [← ByteArray.size_data, Array.size_ofFn]
    exact opposite_lt t.pointer_lt

variable (t : Tape)

@[simp] theorem size_mirrored : t.mirrored.size = t.size := by
  rw [← size_cells]
  exact Array.size_ofFn

theorem pointer_mirrored : t.mirrored.pointer = opposite t.size t.pointer := rfl

theorem getElem?_cells_mirrored (h : i < t.size) :
    t.mirrored.cells[i]? = t.cells[opposite t.size i]? := by
  have hopposite : opposite t.size i < t.cells.size := opposite_lt h
  rw [mirrored, cells, Array.getElem?_ofFn, dif_pos h, Array.getD_eq_getD_getElem?,
    Array.getElem?_eq_getElem hopposite]
  rfl

theorem current_mirrored : t.mirrored.current = t.current := by
  have hpointer : t.pointer < t.size := t.pointer_lt
  apply Option.some.inj
  rw [← getElem?_cells_pointer, ← getElem?_cells_pointer, pointer_mirrored,
    t.getElem?_cells_mirrored (opposite_lt hpointer), opposite_opposite hpointer]

theorem mirrored_store (b : UInt8) : (t.store b).mirrored = t.mirrored.store b := by
  have hpointer : t.pointer < t.size := t.pointer_lt
  apply Tape.ext
  · apply Array.ext_getElem?
    intro i
    rcases lt_or_ge i t.size with hi | hi
    · have hturn : t.pointer = opposite t.size i ↔ opposite t.size t.pointer = i := by
        rw [eq_opposite_iff hi hpointer, eq_comm (b := i), eq_opposite_iff hpointer hi,
          Nat.add_comm]
      rw [getElem?_cells_mirrored _ (by rwa [size_store]), cells_store, cells_store, size_store,
        Array.getElem?_set, Array.getElem?_set, pointer_mirrored, getElem?_cells_mirrored _ hi]
      simp only [hturn]
    · rw [Array.getElem?_eq_none (by simpa using hi), Array.getElem?_eq_none (by simpa using hi)]
  · rw [pointer_mirrored, size_store, pointer_store, pointer_store, pointer_mirrored]

theorem cells_mirrored_congr {t u : Tape} (h : u.cells = t.cells) :
    u.mirrored.cells = t.mirrored.cells := by
  obtain ⟨bytes, pointer, hpointer⟩ := u
  obtain rfl : bytes = t.bytes := ByteArray.ext h
  rfl

theorem mirrored_moveRight : t.moveRight.mirrored = t.mirrored.moveLeft := by
  have hpointer : t.pointer < t.size := t.pointer_lt
  apply Tape.ext
  · rw [cells_moveLeft, cells_mirrored_congr t.cells_moveRight]
  · rw [pointer_mirrored, size_moveRight, pointer_moveRight, pointer_moveLeft, size_mirrored,
      pointer_mirrored, opposite_add (a := 1) (b := t.size - 1) hpointer (by omega)]

theorem mirrored_moveLeft : t.moveLeft.mirrored = t.mirrored.moveRight := by
  have hpointer : t.pointer < t.size := t.pointer_lt
  apply Tape.ext
  · rw [cells_moveRight, cells_mirrored_congr t.cells_moveLeft]
  · rw [pointer_mirrored, size_moveLeft, pointer_moveLeft, pointer_moveRight, size_mirrored,
      pointer_mirrored, opposite_add (a := t.size - 1) (b := 1) hpointer (by omega)]

theorem mirrored_blank (size : ℕ) (size_pos : 0 < size) :
    (blank size size_pos).mirrored = blank size size_pos := by
  apply Tape.ext
  · apply Array.ext_getElem?
    intro i
    rcases lt_or_ge i size with hi | hi
    · rw [getElem?_cells_mirrored _ (by rwa [size_blank]), cells_blank, size_blank,
        Array.getElem?_replicate, Array.getElem?_replicate, if_pos hi, if_pos (opposite_lt hi)]
    · rw [Array.getElem?_eq_none (by simpa using hi), Array.getElem?_eq_none (by simpa using hi)]
  · rw [pointer_mirrored, size_blank, pointer_blank, opposite, Nat.sub_zero, Nat.mod_self]

theorem mirrored_after (x : Instruction) :
    (t.after x).mirrored = t.mirrored.after (Equiv.swap .moveLeft .moveRight x) := by
  cases x with
  | moveRight => exact t.mirrored_moveRight
  | moveLeft => exact t.mirrored_moveLeft
  | increment => exact (t.mirrored_store _).trans (by rw [← current_mirrored]; rfl)
  | decrement => exact (t.mirrored_store _).trans (by rw [← current_mirrored]; rfl)
  | _ => rfl

end Tape

/-! ### Mirrored programs -/

/-- Left and right change places. -/
def mirror : Symmetry where
  exchange := Equiv.swap .moveLeft .moveRight
  tape := Tape.mirrored
  byte := id
  exchange_of_none := Instruction.swap_of_tapeChannel?_eq_none rfl rfl
  tapeChannel?_exchange := Instruction.tapeChannel?_swap rfl
  byte_eq_zero_iff _ := Iff.rfl
  current_tape := Tape.current_mirrored
  tape_store := Tape.mirrored_store
  tape_after := Tape.mirrored_after
  tape_blank := Tape.mirrored_blank

open Session

/-- A program and the one with `<` and `>` exchanged do the same on two machines of one
setup, whatever was done with these before: within any limit their runs have the same
outcome after the same number of steps, at the same place of the program, with the same
output and the same rest of the input. The tapes are images of each other in the mirror
that leaves the first cell where it is, and the pointers add up to zero around the tape. -/
theorem mirrored_runs_agree {source : String} {p : Program} (h : Program.ofText source = .ok p) :
    ∃ q, Program.ofText (exchanged .moveLeft .moveRight source) = .ok q ∧
      ∀ (setup : Setup) (m m' : Machine) (past past' : History),
        Reached setup m past → Reached setup m' past' → m.listener.Alike m'.listener →
        m.load source = .ok (m.install p) ∧
        m'.load (exchanged .moveLeft .moveRight source) = .ok (m'.install q) ∧
        ∀ (input : Array UInt8) (limit : UInt64),
          let e := (m.install p).runWithin input limit
          let e' := (m'.install q).runWithin input limit
          let s := e.machine.store
          let s' := e'.machine.store
          e'.outcome = e.outcome ∧ s'.steps = s.steps ∧ s'.pc = s.pc ∧ s'.output = s.output ∧
            s'.input = s.input ∧ s.tape.size = setup.tapeSize ∧ s'.tape.size = setup.tapeSize ∧
            (∀ i < setup.tapeSize,
              s'.tape.cells[i]? = s.tape.cells[(setup.tapeSize - i) % setup.tapeSize]?) ∧
            (s.tape.pointer + s'.tape.pointer) % setup.tapeSize = 0 := by
  obtain ⟨q, hq, hcode⟩ := mirror.exists_ofText_exchanged rfl h
  refine ⟨q, hq, ?_⟩
  intro setup m m' past past' hm hm' halike
  refine ⟨load_of_accepted m h, load_of_accepted m' hq, ?_⟩
  intro input limit e e' s s'
  obtain ⟨houtcome, hstore, hsize⟩ := mirror.runWithin_install hm hm' halike hcode input limit
  rw [show mirror.byte = id from rfl, Array.map_id] at houtcome hstore
  have hsame : s' = { s with tape := s.tape.mirrored } := by
    rw [show s' = mirror.store s from hstore]
    simp [Symmetry.store, mirror]
  have htape : s'.tape = s.tape.mirrored := by rw [hsame]
  refine ⟨houtcome, by rw [hsame], by rw [hsame], by rw [hsame], by rw [hsame], hsize, ?_, ?_, ?_⟩
  · rw [htape, Tape.size_mirrored]
    exact hsize
  · intro i hi
    rw [htape, Tape.getElem?_cells_mirrored _ (hi.trans_eq hsize.symm), opposite, hsize]
  · rw [htape, Tape.pointer_mirrored, ← hsize]
    exact add_opposite s.tape.pointer_lt

/-- The program `,[-<+>]<.`, which carries a byte to the left. -/
def carryingLeft : Program where
  code := #[.read, .loopStart, .decrement, .moveLeft, .increment, .moveRight, .loopEnd, .moveLeft,
    .write]
  partners := #[none, some 6, none, none, none, none, some 1, none, none]
  table_eq := rfl

/-- On three cells it carries the byte over the seam, and its image carries it to the other
side of the first cell. Both are seen here in the middle of the loop. -/
theorem mirrored_runs_agree_carryingLeft :
    ∃ q m past, Program.ofText ",[->+<]>." = .ok q ∧ Reached ⟨3, true⟩ m past ∧
      let s := ((m.install carryingLeft).runWithin #[2] 5).machine.store
      let s' := ((m.install q).runWithin #[2] 5).machine.store
      s.pc = 5 ∧ s.tape.cells = #[1, 0, 1] ∧ s.tape.pointer = 2 ∧
        s'.pc = 5 ∧ s'.tape.cells[1]? = some 1 ∧ s'.tape.cells[2]? = some 0 := by
  have hp : Program.ofText ",[-<+>]<." = .ok carryingLeft := by decide +kernel
  have hsource : exchanged .moveLeft .moveRight ",[-<+>]<." = ",[->+<]>." := by decide +kernel
  have hnew : Reached ⟨3, true⟩ (.fresh ⟨3, true⟩ three_pos) .none := .new rfl
  obtain ⟨q, hq, hruns⟩ := mirrored_runs_agree hp
  obtain ⟨-, -, hagree⟩ := hruns _ _ _ _ _ hnew hnew (.inl rfl)
  obtain ⟨-, -, hpc, -, -, -, -, hcells, -⟩ := hagree #[2] 5
  refine ⟨q, _, _, hsource ▸ hq, hnew, by decide +kernel, by decide +kernel, by decide +kernel,
    ?_, ?_, ?_⟩
  · rw [hpc]
    decide +kernel
  · rw [hcells 1 (by decide)]
    decide +kernel
  · rw [hcells 2 (by decide)]
    decide +kernel

end TapeMachine
