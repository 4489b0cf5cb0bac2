/-!
# Decimal numerals

Numbers are printed in decimal, filled up on the left to a least width, and
read back from an optional sign and at least one digit.
-/
namespace TapeMachine.Text

/-- The decimal digits of `n`, filled up on the left to at least `width` characters. -/
def padded (fill : Char) (width n : Nat) : List Char :=
  (Nat.toDigits 10 n).leftpad width fill

/-- The value of an unsigned numeral: at least one digit and nothing else. -/
def digitsValue? (cs : List Char) : Option Nat :=
  if cs ≠ [] ∧ cs.all Char.isDigit then some (Nat.ofDigitChars 10 cs 0) else none

/-- The value of a numeral that may start with `+` and may not exceed `limit`. -/
def number? (limit : Nat) (s : String) : Option Nat :=
  let digits := match s.toList with
    | '+' :: rest => rest
    | cs => cs
  (digitsValue? digits).filter (· ≤ limit)

def integer? (s : String) : Option Int :=
  match s.toList with
  | '-' :: rest => (digitsValue? rest).map fun n => -(n : Int)
  | '+' :: rest => (digitsValue? rest).map Int.ofNat
  | cs => (digitsValue? cs).map Int.ofNat

/-- The value of a byte, written as an integer: only zero may stand after a `-`. -/
def byte? (s : String) : Option UInt8 :=
  (integer? s).bind fun n => if 0 ≤ n ∧ n ≤ 255 then some n.toNat.toUInt8 else none

/-- A list of values as text, in square brackets and separated by commas. -/
def bracketed (values : List Nat) : String :=
  "[" ++ ", ".intercalate (values.map toString) ++ "]"

theorem length_padded (fill : Char) (width n : Nat) :
    (padded fill width n).length = max width (Nat.toDigits 10 n).length :=
  List.length_leftpad

theorem all_isDigit_padded_zero (width n : Nat) :
    (padded '0' width n).all Char.isDigit = true := by
  rw [List.all_eq_true]
  intro c hc
  rcases List.mem_append.1 hc with hc | hc
  · rw [List.eq_of_mem_replicate hc]
    decide
  · exact Nat.isDigit_of_mem_toDigits (by decide) (by decide) hc

theorem digitsValue?_padded_zero (width n : Nat) :
    digitsValue? (padded '0' width n) = some n := by
  have hne : padded '0' width n ≠ [] := by
    simp [padded, List.leftpad]
  rw [digitsValue?, if_pos ⟨hne, all_isDigit_padded_zero width n⟩]
  simp [padded, List.leftpad, Nat.ofDigitChars_append]

end TapeMachine.Text
