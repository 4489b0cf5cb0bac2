import TapeMachine.CommandLine.TapeLine
import TapeMachine.Proofs.Text.Characters
import TapeMachine.Proofs.Text.Numerals

/-!
# Reading a tape line back

The index of a tape line has no fixed width, and the brackets around the current cell are
instructions as well, while the blanks around the others also fill up their values. A tape
line can still be read in only one way: the index ends where its digits do, the character
after the next blank is the instruction, and behind the bar stand cells of five characters.
-/
namespace TapeMachine.CommandLine

open Text

namespace TapeLine

structure Reading where
  index : ℕ
  instruction : Instruction
  values : List UInt8
  pointer : ℕ
  deriving DecidableEq

/-- Read five characters: whether they show the current cell, and its value. -/
def readCell? : List Char → Option (Bool × UInt8)
  | ['[', a, b, c, ']'] => (columnByte? [a, b, c]).map fun value => (true, value)
  | [' ', a, b, c, ' '] => (columnByte? [a, b, c]).map fun value => (false, value)
  | _ => none

def readCells? : List Char → Option (List (Bool × UInt8))
  | [] => some []
  | a :: b :: c :: d :: e :: rest =>
    (readCell? [a, b, c, d, e]).bind fun cell => (readCells? rest).map fun cells => cell :: cells
  | _ => none

def readTapeLine? (line : List Char) : Option Reading :=
  match numeral? line with
  | some (index, ' ' :: c :: ' ' :: '|' :: rest) =>
    (Instruction.ofChar? c).bind fun i => (readCells? rest).bind fun cells =>
      (cells.findIdx? Prod.fst).map fun pointer => ⟨index, i, cells.map Prod.snd, pointer⟩
  | _ => none

/-- Read a text of tape lines, each with its end. -/
def readTapeLines? (text : String) : Option (List Reading) :=
  readLines? readTapeLine? text

def Reading.ofSnapshot (s : Snapshot) : Reading :=
  ⟨s.index, s.instruction, s.tape.cells.toList, s.tape.pointer⟩

/-- How the cell at `k` is shown: its value in three columns, in brackets if the pointer is
there, and between blanks if it is not. -/
inductive Cell (t : Tape) (k : ℕ) : List Char → Prop
  | current {value : UInt8} {column : List Char} (hvalue : t.cells[k]? = some value)
      (hcurrent : k = t.pointer) (hcolumn : RightAligned 3 column value.toNat) :
      Cell t k (['['] ++ column ++ [']'])
  | other {value : UInt8} {column : List Char} (hvalue : t.cells[k]? = some value)
      (hother : k ≠ t.pointer) (hcolumn : RightAligned 3 column value.toNat) :
      Cell t k ([' '] ++ column ++ [' '])

variable {t : Tape} {k : ℕ} {value : UInt8} {cell rest : List Char} {x : Bool × UInt8}

/-! ### Cells -/

theorem cell_cellText (hvalue : t.cells[k]? = some value) :
    Cell t k (cellText (k = t.pointer) value) := by
  have hcolumn := rightAligned_padded (length_toDigits_toNat_le value)
  by_cases h : k = t.pointer
  · simpa [cellText, h] using Cell.current hvalue h hcolumn
  · simpa [cellText, h] using Cell.other hvalue h hcolumn

theorem Cell.length_eq (h : Cell t k cell) : cell.length = 5 := by
  cases h with
  | current _ _ hcolumn => simp [hcolumn.length_eq]
  | other _ _ hcolumn => simp [hcolumn.length_eq]

theorem Cell.newline_notMem (h : Cell t k cell) : '\n' ∉ cell := by
  cases h with
  | current _ _ hcolumn => simp [hcolumn.notMem (c := '\n') rfl (by decide)]
  | other _ _ hcolumn => simp [hcolumn.notMem (c := '\n') rfl (by decide)]

theorem Cell.readCell?_eq (h : Cell t k cell) (hvalue : t.cells[k]? = some value) :
    readCell? cell = some (decide (k = t.pointer), value) := by
  cases h with
  | current hvalue' hcurrent hcolumn =>
    obtain rfl := Option.some.inj (hvalue.symm.trans hvalue')
    obtain ⟨a, b, c, rfl⟩ := List.length_eq_three.mp hcolumn.length_eq
    simp [readCell?, hcolumn.columnByte?_eq, hcurrent]
  | other hvalue' hother hcolumn =>
    obtain rfl := Option.some.inj (hvalue.symm.trans hvalue')
    obtain ⟨a, b, c, rfl⟩ := List.length_eq_three.mp hcolumn.length_eq
    simp [readCell?, hcolumn.columnByte?_eq, hother]

theorem readCells?_append (h : readCell? cell = some x) :
    readCells? (cell ++ rest) = (readCells? rest).map fun cells => x :: cells := by
  have hfive : ∃ a b c d e, cell = [a, b, c, d, e] := by
    unfold readCell? at h
    split at h
    · exact ⟨_, _, _, _, _, rfl⟩
    · exact ⟨_, _, _, _, _, rfl⟩
    · cases h
  obtain ⟨a, b, c, d, e, rfl⟩ := hfive
  simp [readCells?, h]

theorem readCells?_flatten {α : Type} {text : α → List Char} {meaning : α → Bool × UInt8}
    {l : List α} (h : ∀ a ∈ l, readCell? (text a) = some (meaning a)) :
    readCells? (l.map text).flatten = some (l.map meaning) := by
  induction l with
  | nil => rfl
  | cons a l ih =>
    obtain ⟨ha, hl⟩ := List.forall_mem_cons.mp h
    rw [List.map_cons, List.flatten_cons, readCells?_append ha, ih hl]
    rfl

end TapeLine

open TapeLine

/-! ### The cells of a tape -/

variable (t : Tape) (s : Snapshot) {k : ℕ} {cell : List Char}

def tapeCells : List (List Char) :=
  t.cells.toList.zipIdx.map fun (value, k) => cellText (k = t.pointer) value

/-- What the cells say: whether the pointer is there, and the value. -/
def tapeMarks : List (Bool × UInt8) :=
  t.cells.toList.zipIdx.map fun (value, k) => (decide (k = t.pointer), value)

theorem tapeLine_eq :
    tapeLine s = padded '0' 4 s.index ++ [' ', s.instruction.toChar, ' ', '|'] ++
      (tapeCells s.tape).flatten := by
  simp [tapeLine, tapeCells, List.flatMap_def]

theorem length_tapeCells : (tapeCells t).length = t.size := by
  simp [tapeCells]

theorem cell_of_getElem?_tapeCells (h : (tapeCells t)[k]? = some cell) : Cell t k cell := by
  simp only [tapeCells, List.getElem?_map, List.getElem?_zipIdx, Option.map_map,
    Option.map_eq_some_iff] at h
  obtain ⟨value, hvalue, rfl⟩ := h
  rw [Array.getElem?_toList] at hvalue
  simpa using cell_cellText hvalue

theorem readCells?_tapeCells : readCells? (tapeCells t).flatten = some (tapeMarks t) := by
  apply readCells?_flatten
  rintro ⟨value, k⟩ hmem
  have hvalue : t.cells[k]? = some value := by
    rw [← Array.getElem?_toList]
    exact List.mem_zipIdx_iff_getElem?.mp hmem
  exact (cell_cellText hvalue).readCell?_eq hvalue

/-- The pointer is at the only cell that is marked. -/
theorem findIdx?_tapeMarks : (tapeMarks t).findIdx? Prod.fst = some t.pointer := by
  have hlt : t.pointer < (tapeMarks t).length := by
    simpa [tapeMarks] using t.pointer_lt_size
  refine List.findIdx?_eq_some_iff_getElem.mpr ⟨hlt, by simp [tapeMarks], ?_⟩
  intro j hj
  simpa [tapeMarks] using hj.ne

theorem map_snd_tapeMarks : (tapeMarks t).map Prod.snd = t.cells.toList := by
  rw [tapeMarks, List.map_map]
  exact List.zipIdx_map_fst 0 _

/-! ### Lines -/

theorem readTapeLine?_tapeLine :
    readTapeLine? (tapeLine s) =
      some ⟨s.index, s.instruction, s.tape.cells.toList, s.tape.pointer⟩ := by
  have hindex : numeral? (tapeLine s) =
      some (s.index, ' ' :: s.instruction.toChar :: ' ' :: '|' :: (tapeCells s.tape).flatten) := by
    rw [tapeLine_eq, List.append_assoc]
    exact (numeral_padded 4 s.index).numeral?_append rfl
  simp [readTapeLine?, hindex, readCells?_tapeCells, findIdx?_tapeMarks, map_snd_tapeMarks]

theorem newline_notMem_tapeLine : '\n' ∉ tapeLine s := by
  have hcells : '\n' ∉ (tapeCells s.tape).flatten := by
    rw [List.mem_flatten]
    rintro ⟨cell, hcell, hmem⟩
    obtain ⟨k, hk⟩ := List.mem_iff_getElem?.mp hcell
    exact (cell_of_getElem?_tapeCells s.tape hk).newline_notMem hmem
  have hchar : '\n' ≠ s.instruction.toChar := by
    cases s.instruction <;> decide
  rw [tapeLine_eq]
  simp [(numeral_padded 4 s.index).notMem (c := '\n') rfl, hcells, hchar]

theorem readTapeLines?_flatMap (executed : List Snapshot) :
    readTapeLines? (String.ofList (executed.flatMap fun s => tapeLine s ++ ['\n'])) =
      some (executed.map Reading.ofSnapshot) :=
  readLines?_eq tapeLine (fun s _ => newline_notMem_tapeLine s) fun s _ => readTapeLine?_tapeLine s

theorem tapeLine_eq_iff {s s' : Snapshot} :
    tapeLine s' = tapeLine s ↔ s'.index = s.index ∧ s'.instruction = s.instruction ∧
      s'.tape.cells = s.tape.cells ∧ s'.tape.pointer = s.tape.pointer := by
  constructor
  · intro h
    have hread := congrArg readTapeLine? h
    rw [readTapeLine?_tapeLine, readTapeLine?_tapeLine] at hread
    obtain ⟨hindex, hinstruction, hcells, hpointer⟩ :=
      Reading.mk.inj (Option.some.inj hread)
    exact ⟨hindex, hinstruction, Array.toList_inj.mp hcells, hpointer⟩
  · rintro ⟨hindex, hinstruction, hcells, hpointer⟩
    rw [tapeLine, tapeLine, hindex, hinstruction, hcells, hpointer]

/-- A tape line is an index in at least four digits, the character of the instruction and a
bar, and then five characters for each cell of the tape. The index, the instruction, the
values of all cells and the pointer are read back from it. So no two lines are alike unless
they show the same of all these. -/
theorem tapeLine_read_back (s : Snapshot) :
    (∃ (index : List Char) (cells : List (List Char)),
      tapeLine s = index ++ [' ', s.instruction.toChar] ++ " |".toList ++ cells.flatten ∧
      Numeral 4 index s.index ∧ cells.length = s.tape.size ∧
      ∀ k cell, cells[k]? = some cell → cell.length = 5 ∧ Cell s.tape k cell) ∧
    readTapeLine? (tapeLine s) =
      some ⟨s.index, s.instruction, s.tape.cells.toList, s.tape.pointer⟩ ∧
    ∀ s' : Snapshot, tapeLine s' = tapeLine s ↔
      s'.index = s.index ∧ s'.instruction = s.instruction ∧
        s'.tape.cells = s.tape.cells ∧ s'.tape.pointer = s.tape.pointer := by
  refine ⟨⟨padded '0' 4 s.index, tapeCells s.tape, ?_, numeral_padded 4 s.index,
    length_tapeCells s.tape, ?_⟩, readTapeLine?_tapeLine s, fun _ => tapeLine_eq_iff⟩
  · rw [tapeLine_eq]
    simp
  · intro k cell hcell
    have h := cell_of_getElem?_tapeCells s.tape hcell
    exact ⟨h.length_eq, h⟩

/-- The first bracket is an instruction. -/
example : readTapeLine? "0012 [ |   0 [ 65] 255 ".toList =
    some ⟨12, .loopStart, [0, 65, 255], 1⟩ := by decide

end TapeMachine.CommandLine
