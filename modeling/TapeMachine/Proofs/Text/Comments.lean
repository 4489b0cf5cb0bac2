import TapeMachine.Proofs.Text.Characters

/-!
# Comments

A character that is none of the eight instruction characters is a comment. A text is read
as what is left of it without comments, although reading works on bytes: no byte of a
comment is the byte of an instruction.
-/
namespace TapeMachine

namespace Instruction

def alphabet : List Char :=
  ['>', '<', '+', '-', '.', ',', '[', ']']

theorem toChar_mem_alphabet (i : Instruction) : i.toChar ∈ alphabet := by
  cases i <;> decide

theorem isSome_ofChar?_iff {c : Char} : (ofChar? c).isSome ↔ c ∈ alphabet := by
  constructor
  · intro h
    obtain ⟨i, hi⟩ := Option.isSome_iff_exists.mp h
    rw [← toChar_of_ofChar? hi]
    exact i.toChar_mem_alphabet
  · intro h
    simp only [alphabet, List.mem_cons, List.not_mem_nil, or_false] at h
    rcases h with rfl | rfl | rfl | rfl | rfl | rfl | rfl | rfl <;> rfl

theorem filter_isSome_ofByte? (bytes : List UInt8) :
    bytes.filter (fun b => (ofByte? b).isSome) = (bytes.filterMap ofByte?).map toByte := by
  induction bytes with
  | nil => rfl
  | cons b bytes ih =>
    cases hb : ofByte? b with
    | none => simp [hb, ih]
    | some i => simp [hb, ih, toByte_of_ofByte? hb]

end Instruction

namespace Program

def uncommented (source : String) : List Char :=
  source.toList.filter (· ∈ Instruction.alphabet)

variable {source s t : String} {p : Program}

theorem uncommented_eq (source : String) :
    uncommented source = (instructions source).map Instruction.toChar := by
  rw [uncommented, instructions_eq]
  induction source.toList with
  | nil => rfl
  | cons c cs ih =>
    have hc := Instruction.isSome_ofChar?_iff (c := c)
    cases hi : Instruction.ofChar? c with
    | none =>
      have hnot : c ∉ Instruction.alphabet := by simpa [hi] using hc
      simp [hi, hnot, ih]
    | some i =>
      have hmem : c ∈ Instruction.alphabet := by simpa [hi] using hc
      simp [hi, hmem, ih, Instruction.toChar_of_ofChar? hi]

theorem instructions_congr (h : uncommented s = uncommented t) :
    instructions s = instructions t := by
  rw [uncommented_eq, uncommented_eq] at h
  exact List.map_injective_iff.mpr (fun _ _ => Instruction.toChar_injective) h

theorem ofText_congr (h : uncommented s = uncommented t) : ofText s = ofText t := by
  rw [ofText, ofText, instructions_congr h]

/-- No byte of a comment, however many it has, is the byte of an instruction. -/
theorem filter_bytes (source : String) :
    (Text.bytes source).filter (fun b => (Instruction.ofByte? b).isSome) =
      (uncommented source).map Char.toUInt8 := by
  rw [Instruction.filter_isSome_ofByte?, uncommented_eq, List.map_map]
  rfl

theorem toList_text_of_ofText (h : ofText source = .ok p) : p.text.toList = uncommented source := by
  rw [text, Instruction.text, String.toList_ofList, toList_code_of_ofCode h, uncommented_eq]

theorem length_uncommented (source : String) :
    (instructions source).length = (uncommented source).length := by
  rw [uncommented_eq, List.length_map]

theorem size_of_ofText (h : ofText source = .ok p) : p.size = (uncommented source).length := by
  rw [← length_uncommented, ← toList_code_of_ofCode h, Array.length_toList, size]

theorem ofText_text_self (p : Program) : ofText p.text = .ok p := by
  rw [text, ofText_text, ofCode_toList]

/-- Comments never matter. Two texts that are the same without comments are read alike:
as the same code with the same table of partners, or as the same error at the same index.
The bytes that are kept are those of the instruction characters, one for each. And a
program is what its own text is read as. -/
theorem comments_never_matter :
    (∀ s t, uncommented s = uncommented t → ofText s = ofText t) ∧
    (∀ source,
      (Text.bytes source).filter (fun b => (Instruction.ofByte? b).isSome) =
        (uncommented source).map Char.toUInt8 ∧
      (instructions source).length = (uncommented source).length ∧
      ∀ p, ofText source = .ok p →
        p.size = (uncommented source).length ∧ p.text.toList = uncommented source) ∧
    ∀ p : Program, ofText p.text = .ok p := by
  refine ⟨?_, ?_, ?_⟩
  · intro s t h
    exact ofText_congr h
  · intro source
    refine ⟨filter_bytes source, length_uncommented source, ?_⟩
    intro p h
    exact ⟨size_of_ofText h, toList_text_of_ofText h⟩
  · intro p
    exact p.ofText_text_self

/-- Comments of one to four bytes around a loop, and around a bracket without a partner. -/
theorem comments_never_matter_multibyte :
    uncommented "é+[日-]" = uncommented "+x[-€]😀" ∧
      ofText "é+[日-]" = ofText "+x[-€]😀" ∧
      (∃ p, ofText "é+[日-]" = .ok p ∧ p.size = 4) ∧
      uncommented "ä+]ß" = uncommented "+ ]" ∧
      ofText "ä+]ß" = .error (.unmatchedClose 1) ∧
      ofText "ä+]ß" = ofText "+ ]" := by
  obtain ⟨hsame, hkept, -⟩ := comments_never_matter
  have hloop : uncommented "é+[日-]" = uncommented "+x[-€]😀" := by decide +kernel
  have hopen : uncommented "ä+]ß" = uncommented "+ ]" := by decide +kernel
  have hread : ofText "é+[日-]" =
      .ok ⟨#[.increment, .loopStart, .decrement, .loopEnd],
        #[none, some 3, none, some 1], rfl⟩ := by
    decide +kernel
  obtain ⟨-, -, hparsed⟩ := hkept "é+[日-]"
  have hsize := (hparsed _ hread).1
  exact ⟨hloop, hsame _ _ hloop, ⟨_, hread, hsize.trans (by decide +kernel)⟩, hopen,
    by decide +kernel, hsame _ _ hopen⟩

end Program

end TapeMachine
