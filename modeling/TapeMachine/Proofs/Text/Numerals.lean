import TapeMachine.Text.Numeral
import Mathlib.Tactic

/-!
# Numerals and lines

A numeral that is filled up with zeros still says its number. Whatever stands behind it
does not change how it is read, as long as that does not begin with a digit. In a column
of fixed width a numeral is filled up with blanks, which do not change what it says either.
A text is read line by line where no line holds the end of another one.
-/
namespace TapeMachine.Text

/-- At least `width` digits and nothing else, and what they say is `n`. -/
structure Numeral (width : ℕ) (cs : List Char) (n : ℕ) : Prop where
  width_le : width ≤ cs.length
  value : digitsValue? cs = some n

/-- Read the numeral at the front; the rest is given back. -/
def numeral? (cs : List Char) : Option (ℕ × List Char) :=
  (digitsValue? (cs.takeWhile Char.isDigit)).map fun n => (n, cs.dropWhile Char.isDigit)

variable {width n : ℕ} {cs rest : List Char} {c : Char}

theorem numeral_padded (width n : ℕ) : Numeral width (padded '0' width n) n where
  width_le := by
    rw [length_padded]
    exact le_max_left _ _
  value := digitsValue?_padded_zero width n

theorem Numeral.isDigit (h : Numeral width cs n) : ∀ c ∈ cs, c.isDigit = true := by
  have hvalue := h.value
  unfold digitsValue? at hvalue
  split at hvalue
  · next hdigits => exact List.all_eq_true.mp hdigits.2
  · cases hvalue

theorem Numeral.notMem (h : Numeral width cs n) (hc : c.isDigit = false) : c ∉ cs := by
  intro hmem
  simp [h.isDigit c hmem] at hc

/-- A numeral ends where the digits do. -/
theorem Numeral.numeral?_append (h : Numeral width cs n) (hc : c.isDigit = false) :
    numeral? (cs ++ c :: rest) = some (n, c :: rest) := by
  have htake : (cs ++ c :: rest).takeWhile Char.isDigit = cs := by
    rw [List.takeWhile_append_of_pos h.isDigit, List.takeWhile_cons_of_neg (by simp [hc]),
      List.append_nil]
  have hdrop : (cs ++ c :: rest).dropWhile Char.isDigit = c :: rest := by
    rw [List.dropWhile_append_of_pos h.isDigit, List.dropWhile_cons_of_neg (by simp [hc])]
  rw [numeral?, htake, hdrop, h.value, Option.map_some]

/-! ### Columns -/

/-- Blanks and then the decimal digits of `n`, `width` characters in all. -/
structure RightAligned (width : ℕ) (cs : List Char) (n : ℕ) : Prop where
  length_eq : cs.length = width
  /-- No zero stands in front of other digits. -/
  spelled : ∃ blanks digits, cs = List.replicate blanks ' ' ++ digits ∧
    digitsValue? digits = some n ∧ (digits.head? = some '0' → digits = ['0'])

def columnValue? (cs : List Char) : Option ℕ :=
  digitsValue? (cs.dropWhile (· = ' '))

def columnByte? (cs : List Char) : Option UInt8 :=
  ((columnValue? cs).filter (· < UInt8.size)).map Nat.toUInt8

theorem digitsValue?_toDigits (n : ℕ) : digitsValue? (Nat.toDigits 10 n) = some n := by
  simpa [padded, List.leftpad] using digitsValue?_padded_zero 0 n

theorem eq_zero_of_head?_toDigits (h : (Nat.toDigits 10 n).head? = some '0') : n = 0 := by
  induction n using Nat.strong_induction_on with
  | _ n ih =>
    by_cases hn : n < 10
    · simpa [Nat.toDigits_of_lt_base hn] using h
    · have hle : 10 ≤ n := Nat.le_of_not_lt hn
      rw [Nat.toDigits_of_base_le (by decide) hle,
        List.head?_append_of_ne_nil _ Nat.toDigits_ne_nil] at h
      have hzero := ih (n / 10) (by omega) h
      omega

theorem rightAligned_padded (h : (Nat.toDigits 10 n).length ≤ width) :
    RightAligned width (padded ' ' width n) n where
  length_eq := by
    rw [length_padded]
    exact max_eq_left h
  spelled := by
    refine ⟨_, _, rfl, digitsValue?_toDigits n, ?_⟩
    intro hzero
    simp [eq_zero_of_head?_toDigits hzero]

theorem RightAligned.columnValue?_eq (h : RightAligned width cs n) : columnValue? cs = some n := by
  obtain ⟨blanks, digits, rfl, hvalue, -⟩ := h.spelled
  have hnumeral : Numeral 0 digits n := ⟨Nat.zero_le _, hvalue⟩
  have hblanks : ∀ c ∈ List.replicate blanks ' ', decide (c = ' ') = true := by simp
  have hdigits : digits.dropWhile (· = ' ') = digits := by
    cases digits with
    | nil => rfl
    | cons d digits =>
      have hd : d.isDigit = true := hnumeral.isDigit d List.mem_cons_self
      apply List.dropWhile_cons_of_neg
      intro hblank
      simp [of_decide_eq_true hblank] at hd
  rw [columnValue?, List.dropWhile_append_of_pos hblanks, hdigits, hvalue]

theorem RightAligned.columnByte?_eq {value : UInt8} (h : RightAligned width cs value.toNat) :
    columnByte? cs = some value := by
  have hlt : value.toNat < UInt8.size := value.toNat_lt
  simp [columnByte?, h.columnValue?_eq, hlt]

theorem RightAligned.notMem (h : RightAligned width cs n) (hc : c.isDigit = false)
    (hblank : c ≠ ' ') : c ∉ cs := by
  obtain ⟨blanks, digits, rfl, hvalue, -⟩ := h.spelled
  have hnumeral : Numeral 0 digits n := ⟨Nat.zero_le _, hvalue⟩
  rw [List.mem_append, not_or]
  exact ⟨fun hmem => hblank (List.eq_of_mem_replicate hmem), hnumeral.notMem hc⟩

/-! ### Lines -/

/-- Read a text of which each line has an end. -/
def readLines? {α : Type} (read : List Char → Option α) (text : String) : Option (List α) :=
  let lines := text.toList.splitOn '\n'
  if lines.getLast? = some [] then lines.dropLast.mapM read else none

theorem splitOn_lines {lines : List (List Char)} (h : ∀ line ∈ lines, '\n' ∉ line) :
    (lines.flatMap fun line => line ++ ['\n']).splitOn '\n' = lines ++ [[]] := by
  induction lines with
  | nil => rfl
  | cons line lines ih =>
    obtain ⟨hline, hlines⟩ := List.forall_mem_cons.mp h
    rw [List.flatMap_cons, List.append_assoc, List.singleton_append,
      List.splitOn_append_cons_self_of_not_mem hline, ih hlines, List.cons_append]

theorem mapM_eq_some_map {α β : Type} {f : α → Option β} {g : α → β} {l : List α}
    (h : ∀ a ∈ l, f a = some (g a)) : l.mapM f = some (l.map g) := by
  induction l with
  | nil => rfl
  | cons a l ih =>
    obtain ⟨ha, hl⟩ := List.forall_mem_cons.mp h
    rw [List.mapM_cons, ha, ih hl]
    rfl

theorem readLines?_eq {α β : Type} {read : List Char → Option β} (line : α → List Char)
    {meaning : α → β} {l : List α} (hend : ∀ a ∈ l, '\n' ∉ line a)
    (hread : ∀ a ∈ l, read (line a) = some (meaning a)) :
    readLines? read (String.ofList (l.flatMap fun a => line a ++ ['\n'])) =
      some (l.map meaning) := by
  have hlines : (l.flatMap fun a => line a ++ ['\n']).splitOn '\n' = l.map line ++ [[]] := by
    rw [← splitOn_lines (by simpa using hend), List.flatMap_map]
  rw [readLines?, String.toList_ofList, hlines]
  simp only [List.getLast?_concat, if_true, List.dropLast_concat, List.mapM_map]
  exact mapM_eq_some_map hread

end TapeMachine.Text
