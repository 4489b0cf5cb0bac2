/-!
# Circular byte tapes

A tape has a fixed, positive number of byte cells and a pointer to one of them.
Moves wrap around at both ends, and cells count modulo 256. The cells are packed
bytes, so that a long tape takes no more room than it has cells.
-/
namespace TapeMachine

/-- A non-empty row of cells with a pointer to the current one. -/
structure Tape where
  bytes : ByteArray
  pointer : Nat
  pointer_lt : pointer < bytes.size

namespace Tape

/-- So many zeros, two halves at a time. The fuel bounds the number of halvings. -/
def zerosWithin : (fuel : Nat) → (size : Nat) → ByteArray
  | 0, _ => .empty
  | fuel + 1, size =>
    if size = 0 then .empty
    else
      let half := zerosWithin fuel (size / 2)
      let halves := half ++ half
      if size % 2 = 0 then halves else halves.push 0

def zeros (size : Nat) : ByteArray :=
  zerosWithin size size

theorem data_zerosWithin {fuel size : Nat} (h : size ≤ fuel) :
    (zerosWithin fuel size).data = Array.replicate size 0 := by
  induction fuel generalizing size with
  | zero =>
    obtain rfl : size = 0 := by omega
    rfl
  | succ fuel ih =>
    have hhalf := @ih (size / 2) (by omega)
    unfold zerosWithin
    split
    · next hzero =>
      subst hzero
      rfl
    · split
      · rw [ByteArray.data_append, hhalf, Array.replicate_append_replicate]
        congr 1
        omega
      · rw [ByteArray.data_push, ByteArray.data_append, hhalf, Array.replicate_append_replicate,
          ← Array.replicate_succ]
        congr 1
        omega

@[simp] theorem data_zeros (size : Nat) : (zeros size).data = Array.replicate size 0 :=
  data_zerosWithin (Nat.le_refl size)

@[simp] theorem size_zeros (size : Nat) : (zeros size).size = size := by
  rw [← ByteArray.size_data, data_zeros, Array.size_replicate]

/-- A tape of zeros, its pointer at the first cell. -/
def blank (size : Nat) (size_pos : 0 < size) : Tape where
  bytes := zeros size
  pointer := 0
  pointer_lt := by simpa using size_pos

def cells (t : Tape) : Array UInt8 := t.bytes.data

def size (t : Tape) : Nat := t.bytes.size

theorem size_pos (t : Tape) : 0 < t.size :=
  Nat.zero_lt_of_lt t.pointer_lt

@[inline] def current (t : Tape) : UInt8 :=
  have := t.pointer_lt
  t.bytes[t.pointer]

@[inline] def store (t : Tape) (value : UInt8) : Tape where
  bytes := t.bytes.set t.pointer value t.pointer_lt
  pointer := t.pointer
  pointer_lt := by
    rw [← ByteArray.size_data, ByteArray.set]
    simpa using t.pointer_lt

@[inline] def increment (t : Tape) : Tape :=
  t.store (t.current + 1)

@[inline] def decrement (t : Tape) : Tape :=
  t.store (t.current - 1)

/-- One cell to the right, from the last cell to the first. -/
@[inline] def moveRight (t : Tape) : Tape :=
  if h : t.pointer + 1 < t.bytes.size then
    { bytes := t.bytes, pointer := t.pointer + 1, pointer_lt := h }
  else
    { bytes := t.bytes, pointer := 0, pointer_lt := t.size_pos }

/-- One cell to the left, from the first cell to the last. -/
@[inline] def moveLeft (t : Tape) : Tape where
  bytes := t.bytes
  pointer := if t.pointer = 0 then t.bytes.size - 1 else t.pointer - 1
  pointer_lt := by
    have := t.pointer_lt
    split <;> omega

/-- Back to the first cell, the cells kept. -/
def rewind (t : Tape) : Tape where
  bytes := t.bytes
  pointer := 0
  pointer_lt := t.size_pos

/-- All cells zero and the pointer at the first. -/
def clear (t : Tape) : Tape :=
  blank t.size t.size_pos

variable (t : Tape)

@[ext] theorem ext {t u : Tape} (hc : t.cells = u.cells) (hp : t.pointer = u.pointer) : t = u := by
  obtain ⟨bytes, pointer, h⟩ := t
  obtain ⟨bytes', pointer', h'⟩ := u
  obtain rfl : bytes = bytes' := ByteArray.ext hc
  obtain rfl : pointer = pointer' := hp
  rfl

instance : DecidableEq Tape := fun t u =>
  decidable_of_iff (t.cells = u.cells ∧ t.pointer = u.pointer)
    ⟨fun h => ext h.1 h.2, fun h => h ▸ ⟨rfl, rfl⟩⟩

@[simp] theorem size_cells : t.cells.size = t.size := rfl

theorem pointer_lt_size : t.pointer < t.cells.size := t.pointer_lt

theorem current_eq (h : t.pointer < t.cells.size) : t.current = t.cells[t.pointer] := rfl

theorem getElem?_cells_pointer : t.cells[t.pointer]? = some t.current :=
  Array.getElem?_eq_getElem t.pointer_lt_size

@[simp] theorem cells_blank (size : Nat) (h : 0 < size) :
    (blank size h).cells = Array.replicate size 0 :=
  data_zeros size

@[simp] theorem pointer_blank (size : Nat) (h : 0 < size) : (blank size h).pointer = 0 := rfl

@[simp] theorem size_blank (size : Nat) (h : 0 < size) : (blank size h).size = size :=
  size_zeros size

@[simp] theorem cells_store (value : UInt8) :
    (t.store value).cells = t.cells.set t.pointer value t.pointer_lt_size := rfl

@[simp] theorem pointer_store (value : UInt8) : (t.store value).pointer = t.pointer := rfl

@[simp] theorem current_store (value : UInt8) : (t.store value).current = value := by
  simp [current_eq _ (t.store value).pointer_lt_size]

@[simp] theorem size_store (value : UInt8) : (t.store value).size = t.size := by
  rw [← size_cells, cells_store, Array.size_set, size_cells]

@[simp] theorem size_increment : t.increment.size = t.size :=
  t.size_store _

@[simp] theorem size_decrement : t.decrement.size = t.size :=
  t.size_store _

@[simp] theorem cells_moveRight : t.moveRight.cells = t.cells := by
  unfold moveRight
  split <;> rfl

@[simp] theorem size_moveRight : t.moveRight.size = t.size := by
  rw [← size_cells, cells_moveRight, size_cells]

theorem pointer_moveRight : t.moveRight.pointer = (t.pointer + 1) % t.size := by
  have := t.pointer_lt
  unfold moveRight size
  split
  · rw [Nat.mod_eq_of_lt ‹_›]
  · rw [show t.pointer + 1 = t.bytes.size by omega, Nat.mod_self]

@[simp] theorem cells_moveLeft : t.moveLeft.cells = t.cells := rfl

@[simp] theorem size_moveLeft : t.moveLeft.size = t.size := rfl

theorem pointer_moveLeft :
    t.moveLeft.pointer = (t.pointer + (t.size - 1)) % t.size := by
  have := t.pointer_lt
  simp only [moveLeft, size]
  split
  · rw [Nat.mod_eq_of_lt (by omega)]
    omega
  · rw [show t.pointer + (t.bytes.size - 1) = t.pointer - 1 + t.bytes.size by omega,
      Nat.add_mod_right, Nat.mod_eq_of_lt (by omega)]

@[simp] theorem cells_rewind : t.rewind.cells = t.cells := rfl

@[simp] theorem size_rewind : t.rewind.size = t.size := rfl

@[simp] theorem size_clear : t.clear.size = t.size :=
  size_blank t.size t.size_pos

@[simp] theorem rewind_clear : t.clear.rewind = t.clear := rfl

@[simp] theorem clear_blank (size : Nat) (h : 0 < size) : (blank size h).clear = blank size h := by
  apply ext
  · simp [clear]
  · rfl

@[simp] theorem clear_clear : t.clear.clear = t.clear :=
  clear_blank t.size t.size_pos

end Tape

end TapeMachine
