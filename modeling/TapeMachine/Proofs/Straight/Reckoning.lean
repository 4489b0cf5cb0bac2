import TapeMachine.Proofs.Symmetry.Basic

/-!
# Reckoning with straight code

Code without jumps and reads executes each of its instructions once, and what it does to
a tape can be reckoned by counting. The pointer is where the moves together lead, around
the tape; each instruction before that stood where the moves before it had led; and a cell
has changed by the increments and decrements that stood at it. The counts know nothing of
the seam of the tape nor of the ends of a byte.
-/
namespace TapeMachine

/-- How far the moves in some code lead to the right, on a tape without ends. -/
def displacement (code : List Instruction) : ℤ :=
  code.count .moveRight - code.count .moveLeft

/-- What an instruction adds to the current cell. -/
def Instruction.change : Instruction → ℤ
  | increment => 1
  | decrement => -1
  | _ => 0

/-- The instructions of some code, each beside the code before it. -/
def withPrefixes (code : List Instruction) : List (List Instruction × Instruction) :=
  code.mapIdx fun k x => (code.take k, x)

/-- How often the instruction `x` stands where the moves before it have led to `cell`,
around a tape of `size` cells. -/
def countAt (size cell : ℕ) (x : Instruction) (code : List Instruction) : ℕ :=
  (withPrefixes code).countP fun site => site.2 = x ∧ displacement site.1 ≡ cell [ZMOD size]

variable {size cell : ℕ} {x : Instruction}

theorem withPrefixes_concat (code : List Instruction) (x : Instruction) :
    withPrefixes (code ++ [x]) = withPrefixes code ++ [(code, x)] := by
  rw [withPrefixes, List.mapIdx_concat, List.take_left, withPrefixes, List.append_left_inj,
    List.mapIdx_eq_mapIdx_iff]
  intro k hk
  rw [List.take_append_of_le_length hk.le]

theorem displacement_concat (code : List Instruction) (x : Instruction) :
    displacement (code ++ [x]) = displacement code + displacement [x] := by
  simp only [displacement, List.count_append, Nat.cast_add]
  ring

theorem countAt_concat (code : List Instruction) (y : Instruction) :
    countAt size cell x (code ++ [y]) =
      countAt size cell x code + if y = x ∧ displacement code ≡ cell [ZMOD size] then 1 else 0 := by
  simp only [countAt, withPrefixes_concat, List.countP_append, List.countP_singleton,
    decide_eq_true_eq]

theorem ofInt_toNat (b : UInt8) : UInt8.ofInt b.toNat = b := by
  have hmod : (b.toNat : ℤ) % 2 ^ 8 = b.toNat := by
    exact_mod_cast Nat.mod_eq_of_lt b.toNat_lt
  rw [UInt8.ofInt, hmod, Int.toNat_natCast, UInt8.ofNat_toNat]

namespace Tape

variable (t : Tape) (code : List Instruction)

/-- The cell that the moves of some code lead to, around the tape. -/
def placeAfter : ℕ :=
  (displacement code % t.size).toNat

/-- The value of a cell after some code: what it held, with the increments at it and
without the decrements, modulo 256. -/
def valueAfter (cell : ℕ) : UInt8 :=
  .ofInt ((t.cells.getD cell 0).toNat + countAt t.size cell .increment code -
    countAt t.size cell .decrement code)

/-- The values that the cells have under the pointer wherever a `.` stands. -/
def writtenBy : List UInt8 :=
  (withPrefixes code).filterMap fun site =>
    if site.2 = .write then some (t.valueAfter site.1 (t.placeAfter site.1)) else none

/-! ### Where the pointer is -/

theorem coe_placeAfter : (t.placeAfter code : ℤ) = displacement code % t.size :=
  Int.toNat_of_nonneg (Int.emod_nonneg _ (by exact_mod_cast t.size_pos.ne'))

theorem placeAfter_lt : t.placeAfter code < t.size := by
  have hsize : (0 : ℤ) < t.size := by exact_mod_cast t.size_pos
  have hlt := Int.emod_lt_of_pos (displacement code) hsize
  rw [← coe_placeAfter] at hlt
  exact_mod_cast hlt

variable {t code}

theorem displacement_modEq_iff (h : cell < t.size) :
    displacement code ≡ cell [ZMOD t.size] ↔ t.placeAfter code = cell := by
  have hcell : (cell : ℤ) % t.size = cell := by
    exact_mod_cast Nat.mod_eq_of_lt h
  rw [Int.ModEq, hcell, ← coe_placeAfter]
  exact_mod_cast Iff.rfl

variable (t code)

theorem placeAfter_moveRight :
    t.placeAfter (code ++ [.moveRight]) = (t.placeAfter code + 1) % t.size := by
  zify
  rw [coe_placeAfter, coe_placeAfter, displacement_concat, Int.emod_add_emod]
  rfl

theorem placeAfter_moveLeft :
    t.placeAfter (code ++ [.moveLeft]) = (t.placeAfter code + (t.size - 1)) % t.size := by
  have hleft : displacement [.moveLeft] = -1 := rfl
  have hsize : ((t.size - 1 : ℕ) : ℤ) = -1 + t.size := by
    have := t.size_pos
    omega
  zify
  rw [hsize, coe_placeAfter, coe_placeAfter, displacement_concat, hleft, Int.emod_add_emod,
    ← add_assoc, Int.add_emod_right]

theorem placeAfter_of_not_move (hr : x ≠ .moveRight) (hl : x ≠ .moveLeft) :
    t.placeAfter (code ++ [x]) = t.placeAfter code := by
  have hstay : displacement [x] = 0 := by
    simp [displacement, hr, hl]
  rw [placeAfter, displacement_concat, hstay, add_zero, placeAfter]

/-! ### What the cells hold -/

theorem valueAfter_nil (cell : ℕ) : t.valueAfter [] cell = t.cells.getD cell 0 := by
  have hcount : ∀ x, countAt t.size cell x [] = 0 := fun _ => rfl
  rw [valueAfter, hcount, hcount, Nat.cast_zero, add_zero, sub_zero, ofInt_toNat]

/-- One instruction more changes the cell under the pointer only. -/
theorem valueAfter_concat (x : Instruction) (h : cell < t.size) :
    t.valueAfter (code ++ [x]) cell =
      t.valueAfter code cell + if t.placeAfter code = cell then .ofInt x.change else 0 := by
  simp only [valueAfter, countAt_concat, displacement_modEq_iff h]
  by_cases hplace : t.placeAfter code = cell
  · rw [if_pos hplace, ← UInt8.ofInt_add]
    congr 1
    cases x <;> simp [hplace, Instruction.change] <;> ring
  · simp [hplace]

theorem valueAfter_of_change_eq_zero (hx : x.change = 0) (h : cell < t.size) :
    t.valueAfter (code ++ [x]) cell = t.valueAfter code cell := by
  have hzero : UInt8.ofInt 0 = 0 := rfl
  rw [t.valueAfter_concat code x h, hx, hzero, ite_self, UInt8.add_zero]

/-! ### The reckoned tape -/

/-- The tape after some code, as it is reckoned. -/
def reckoned : Tape where
  bytes := ⟨Array.ofFn fun i : Fin t.size => t.valueAfter code i⟩
  pointer := t.placeAfter code
  pointer_lt := by
    rw [← ByteArray.size_data, Array.size_ofFn]
    exact t.placeAfter_lt code

@[simp] theorem size_reckoned : (t.reckoned code).size = t.size :=
  Array.size_ofFn

theorem pointer_reckoned : (t.reckoned code).pointer = t.placeAfter code := rfl

variable {t code} in
theorem getElem?_cells_reckoned (h : cell < t.size) :
    (t.reckoned code).cells[cell]? = some (t.valueAfter code cell) := by
  rw [reckoned, cells, Array.getElem?_ofFn, dif_pos h]

theorem current_reckoned :
    (t.reckoned code).current = t.valueAfter code (t.placeAfter code) := by
  apply Option.some.inj
  rw [← getElem?_cells_pointer, pointer_reckoned, getElem?_cells_reckoned (t.placeAfter_lt code)]

theorem cells_reckoned_eq {u : Tape} (hsize : u.size = t.size)
    (h : ∀ cell < t.size, u.cells[cell]? = some (t.valueAfter code cell)) :
    (t.reckoned code).cells = u.cells := by
  apply Array.ext_getElem?
  intro i
  rcases lt_or_ge i t.size with hi | hi
  · rw [getElem?_cells_reckoned hi, h i hi]
  · rw [Array.getElem?_eq_none (by simpa using hi),
      Array.getElem?_eq_none (by simpa [hsize] using hi)]

theorem reckoned_nil : t.reckoned [] = t.rewind := by
  apply Tape.ext
  · apply cells_reckoned_eq
    · exact t.size_rewind
    · intro cell hcell
      have hget : t.cells[cell]? = some t.cells[cell] := Array.getElem?_eq_getElem hcell
      rw [cells_rewind, valueAfter_nil, Array.getD_eq_getD_getElem?, hget, Option.getD_some]
  · rfl

theorem cells_reckoned_concat (hx : x.change = 0) :
    (t.reckoned (code ++ [x])).cells = (t.reckoned code).cells := by
  apply cells_reckoned_eq
  · exact t.size_reckoned code
  · intro cell hcell
    rw [getElem?_cells_reckoned hcell, t.valueAfter_of_change_eq_zero code hx hcell]

theorem reckoned_concat_eq_store (hr : x ≠ .moveRight) (hl : x ≠ .moveLeft) :
    t.reckoned (code ++ [x]) =
      (t.reckoned code).store ((t.reckoned code).current + .ofInt x.change) := by
  apply Tape.ext
  · apply cells_reckoned_eq
    · rw [size_store, size_reckoned]
    · intro cell hcell
      rw [cells_store, Array.getElem?_set, pointer_reckoned, getElem?_cells_reckoned hcell,
        current_reckoned, t.valueAfter_concat code x hcell]
      split
      · next hplace => rw [hplace]
      · rw [UInt8.add_zero]
  · exact t.placeAfter_of_not_move code hr hl

/-- One instruction more changes the reckoned tape as it changes any tape. -/
theorem reckoned_concat (x : Instruction) :
    t.reckoned (code ++ [x]) = (t.reckoned code).after x := by
  cases x with
  | moveRight =>
    apply Tape.ext
    · exact (t.cells_reckoned_concat code rfl).trans (cells_moveRight _).symm
    · rw [after, pointer_moveRight, size_reckoned]
      exact t.placeAfter_moveRight code
  | moveLeft =>
    apply Tape.ext
    · exact t.cells_reckoned_concat code rfl
    · rw [after, pointer_moveLeft, size_reckoned]
      exact t.placeAfter_moveLeft code
  | increment => exact t.reckoned_concat_eq_store code (by simp) (by simp)
  | decrement =>
    rw [after, decrement, UInt8.sub_eq_add_neg]
    exact t.reckoned_concat_eq_store code (by simp) (by simp)
  | write | read | loopStart | loopEnd =>
    apply Tape.ext
    · exact t.cells_reckoned_concat code rfl
    · exact t.placeAfter_of_not_move code (by simp) (by simp)

theorem writtenBy_concat (x : Instruction) :
    t.writtenBy (code ++ [x]) =
      t.writtenBy code ++ if x = .write then [(t.reckoned code).current] else [] := by
  rw [writtenBy, withPrefixes_concat, List.filterMap_append, current_reckoned]
  congr 1
  by_cases hx : x = .write <;> simp [hx]

end Tape

end TapeMachine
