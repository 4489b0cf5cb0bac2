import TapeMachine.Program.Basic
import Mathlib.Tactic

/-!
# Programs read by characters

An instruction is a single ASCII character, and a character outside ASCII has no ASCII
byte. So the instructions of a text can be read off its characters.
-/
namespace TapeMachine

namespace Instruction

def ofChar? : Char → Option Instruction
  | '>' => some moveRight
  | '<' => some moveLeft
  | '+' => some increment
  | '-' => some decrement
  | '.' => some write
  | ',' => some read
  | '[' => some loopStart
  | ']' => some loopEnd
  | _ => none

variable {c : Char} {i : Instruction} {b : UInt8}

@[simp] theorem ofChar?_toChar (i : Instruction) : ofChar? i.toChar = some i := by
  cases i <;> rfl

theorem toChar_of_ofChar? (h : ofChar? c = some i) : i.toChar = c := by
  unfold ofChar? at h
  split at h <;> cases h <;> rfl

theorem ofChar?_eq_some_iff : ofChar? c = some i ↔ i.toChar = c :=
  ⟨toChar_of_ofChar?, fun h => h ▸ ofChar?_toChar i⟩

theorem toByte_lt (i : Instruction) : i.toByte < 128 := by
  cases i <;> decide

theorem ofByte?_of_le (h : 128 ≤ b) : ofByte? b = none := by
  by_contra hsome
  obtain ⟨i, hi⟩ := Option.ne_none_iff_exists'.mp hsome
  rw [← toByte_of_ofByte? hi] at h
  exact absurd i.toByte_lt (UInt8.not_lt.mpr h)

theorem ofByte?_toUInt8 (h : c.val ≤ 127) : ofByte? c.toUInt8 = ofChar? c := by
  ext i
  rw [ofByte?_eq_some_iff, ofChar?_eq_some_iff]
  have hi : i.toChar.val ≤ 127 := by cases i <;> decide
  constructor
  · intro hbyte
    have hnat := congrArg UInt8.toNat hbyte
    rw [UInt32.le_iff_toNat_le] at h hi
    apply Char.ext
    apply UInt32.toNat_inj.mp
    simp only [toByte, Char.toUInt8, UInt32.toNat_toUInt8] at hnat
    have : (127 : UInt32).toNat = 127 := rfl
    omega
  · rintro rfl
    rfl

/-- Every byte of a character outside ASCII is outside ASCII. -/
theorem le_of_mem_utf8EncodeChar (h : ¬ c.val ≤ 127) (hb : b ∈ String.utf8EncodeChar c) :
    128 ≤ b := by
  have hc : ¬ c.val.toNat ≤ 127 := h
  rw [String.utf8EncodeChar] at hb
  rw [UInt8.le_iff_toNat_le]
  simp only [hc, if_false] at hb
  have : (128 : UInt8).toNat = 128 := rfl
  split at hb
  · simp only [List.mem_cons, List.not_mem_nil, or_false] at hb
    rcases hb with rfl | rfl <;> simp only [UInt8.toNat_ofNat'] <;> omega
  · split at hb
    · simp only [List.mem_cons, List.not_mem_nil, or_false] at hb
      rcases hb with rfl | rfl | rfl <;> simp only [UInt8.toNat_ofNat'] <;> omega
    · simp only [List.mem_cons, List.not_mem_nil, or_false] at hb
      rcases hb with rfl | rfl | rfl | rfl <;> simp only [UInt8.toNat_ofNat'] <;> omega

theorem filterMap_utf8EncodeChar (c : Char) :
    (String.utf8EncodeChar c).filterMap ofByte? = (ofChar? c).toList := by
  by_cases h : c.val ≤ 127
  · have hbytes : String.utf8EncodeChar c = [c.toUInt8] :=
      String.utf8EncodeChar_eq_singleton (Char.utf8Size_eq_one_iff.mpr h)
    rw [hbytes, ← ofByte?_toUInt8 h]
    cases hbyte : ofByte? c.toUInt8 <;> simp [hbyte]
  · have hnone : ofChar? c = none := by
      by_contra hsome
      obtain ⟨i, hi⟩ := Option.ne_none_iff_exists'.mp hsome
      obtain rfl := toChar_of_ofChar? hi
      exact h (by cases i <;> decide)
    rw [hnone]
    apply List.filterMap_eq_nil_iff.mpr
    intro b hb
    exact ofByte?_of_le (le_of_mem_utf8EncodeChar h hb)

end Instruction

namespace Program

/-- The instructions of a text are those of its characters. -/
theorem instructions_eq (source : String) :
    instructions source = source.toList.filterMap Instruction.ofChar? := by
  rw [instructions, Text.bytes, List.filterMap_flatMap]
  simp only [Instruction.filterMap_utf8EncodeChar]
  induction source.toList with
  | nil => rfl
  | cons c cs ih =>
    rw [List.flatMap_cons, ih, List.filterMap_cons]
    cases Instruction.ofChar? c <;> rfl

@[simp] theorem instructions_text (code : List Instruction) :
    instructions (Instruction.text code) = code := by
  rw [instructions_eq, Instruction.text, String.toList_ofList, List.filterMap_map]
  induction code with
  | nil => rfl
  | cons i code ih => rw [List.filterMap_cons, Function.comp_apply, Instruction.ofChar?_toChar, ih]

theorem ofText_text (code : List Instruction) : ofText (Instruction.text code) = ofCode code := by
  rw [ofText, instructions_text]

theorem text_instructions {source : String}
    (h : ∀ c ∈ source.toList, ∃ i : Instruction, i.toChar = c) :
    Instruction.text (instructions source) = source := by
  apply String.toList_inj.mp
  rw [instructions_eq, Instruction.text, String.toList_ofList]
  generalize source.toList = cs at h
  induction cs with
  | nil => rfl
  | cons c cs ih =>
    obtain ⟨⟨i, rfl⟩, hrest⟩ := List.forall_mem_cons.mp h
    rw [List.filterMap_cons, Instruction.ofChar?_toChar, List.map_cons, ih hrest]

end Program

end TapeMachine
