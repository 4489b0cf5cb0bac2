import TapeMachine.Program.Listing
import TapeMachine.Proofs.Brackets.Partners
import TapeMachine.Proofs.Text.Characters
import TapeMachine.Proofs.Text.Numerals

/-!
# Reading a listing back

The lines of a listing have no fixed width, and an arrow is made of characters that are
instructions too. A listing can still be read in only one way: an index ends where its
digits do, one character after two spaces is the instruction, and only what follows can be
an arrow.
-/
namespace TapeMachine

open Text

namespace Listing

structure Entry where
  index : ℕ
  instruction : Instruction
  partner : Option ℕ
  deriving DecidableEq

/-- Read what follows an instruction: the arrow to its partner, or nothing. -/
def readArrow? : List Char → Option (Option ℕ)
  | [] => some none
  | ' ' :: ' ' :: '-' :: '>' :: ' ' :: target => (digitsValue? target).map some
  | _ => none

def readLine? (line : List Char) : Option Entry :=
  match numeral? line with
  | some (index, ' ' :: ' ' :: c :: rest) =>
    (Instruction.ofChar? c).bind fun i => (readArrow? rest).map fun partner => ⟨index, i, partner⟩
  | _ => none

def readListing? (listing : String) : Option (List Entry) :=
  readLines? readLine? listing

/-- How the instruction at `k` is listed: its index in at least four digits, two spaces, its
character, and for a bracket an arrow and the index of the partner in at least four digits. -/
inductive Line (p : Program) (k : ℕ) : List Char → Prop
  | plain {i : Instruction} {index : List Char} (hi : p.get? k = some i)
      (hplain : i.isBracket = false) (hindex : Numeral 4 index k) :
      Line p k (index ++ [' ', ' ', i.toChar])
  | bracket {i : Instruction} {j : ℕ} {index target : List Char} (hi : p.get? k = some i)
      (hbracket : i.isBracket = true) (hpartner : p.partner? k = some j)
      (hindex : Numeral 4 index k) (htarget : Numeral 4 target j) :
      Line p k (index ++ [' ', ' ', i.toChar] ++ "  -> ".toList ++ target)

variable {p : Program} {k : ℕ} {i : Instruction} {line : List Char}

theorem newline_notMem_of_line (h : Line p k line) : '\n' ∉ line := by
  have hchar : ∀ i : Instruction, '\n' ≠ i.toChar := by
    intro i
    cases i <;> decide
  cases h with
  | plain hi hplain hindex =>
    simp [hindex.notMem (c := '\n') rfl, hchar]
  | bracket hi hbracket hpartner hindex htarget =>
    simp [hindex.notMem (c := '\n') rfl, htarget.notMem (c := '\n') rfl, hchar]

theorem readLine?_of_line (h : Line p k line) (hi : p.get? k = some i) :
    readLine? line = some ⟨k, i, p.partner? k⟩ := by
  cases h with
  | plain hi' hplain hindex =>
    obtain rfl := Option.some.inj (hi.symm.trans hi')
    have hnone : p.partner? k = none := p.partner?_eq_none_iff.mpr (.inr ⟨i, hi, hplain⟩)
    simp [readLine?, hindex.numeral?_append, readArrow?, hnone]
  | bracket hi' hbracket hpartner hindex htarget =>
    obtain rfl := Option.some.inj (hi.symm.trans hi')
    simp [readLine?, hindex.numeral?_append, readArrow?, hpartner, htarget.value]

end Listing

namespace Program

open Listing

variable (p : Program) {k : ℕ} {i : Instruction}

def lineText (k : ℕ) (i : Instruction) : List Char :=
  padded '0' 4 k ++ [' ', ' ', i.toChar] ++ ((p.partner? k).map arrow).getD []

def lines : List (List Char) :=
  p.code.toList.zipIdx.map fun (i, k) => p.lineText k i

def entries : List Entry :=
  p.code.toList.zipIdx.map fun (i, k) => ⟨k, i, p.partner? k⟩

theorem listing_eq : p.listing = String.ofList (p.lines.flatMap fun line => line ++ ['\n']) := by
  rw [listing, lines, List.flatMap_map]
  rfl

theorem length_lines : p.lines.length = p.size := by
  simp [lines, size]

theorem line_lineText (hi : p.get? k = some i) : Line p k (p.lineText k i) := by
  cases hbracket : i.isBracket with
  | false =>
    have hnone : p.partner? k = none := p.partner?_eq_none_iff.mpr (.inr ⟨i, hi, hbracket⟩)
    rw [lineText, hnone, Option.map_none, Option.getD_none, List.append_nil]
    exact .plain hi hbracket (numeral_padded 4 k)
  | true =>
    obtain ⟨j, hj⟩ := p.exists_partner?_of_isBracket hi hbracket
    rw [lineText, hj, Option.map_some, Option.getD_some, arrow, ← List.append_assoc]
    exact .bracket hi hbracket hj (numeral_padded 4 k) (numeral_padded 4 j)

theorem line_of_getElem?_lines {line : List Char} (h : p.lines[k]? = some line) :
    Line p k line := by
  rw [lines, List.getElem?_map, List.getElem?_zipIdx, getElem?_toList_code] at h
  obtain ⟨i, hi⟩ : ∃ i, p.get? k = some i := by
    cases hi : p.get? k with
    | none => simp [hi] at h
    | some i => exact ⟨i, rfl⟩
  rw [hi, Option.map_some, Option.map_some, Nat.zero_add] at h
  obtain rfl := Option.some.inj h
  exact p.line_lineText hi

theorem newline_notMem_of_mem_lines {line : List Char} (h : line ∈ p.lines) : '\n' ∉ line := by
  obtain ⟨k, hk⟩ := List.mem_iff_getElem?.mp h
  exact newline_notMem_of_line (p.line_of_getElem?_lines hk)

theorem readListing?_listing : readListing? p.listing = some p.entries := by
  have hget : ∀ x ∈ p.code.toList.zipIdx, p.get? x.2 = some x.1 := by
    rintro ⟨i, k⟩ hmem
    exact (p.getElem?_toList_code k).symm.trans (List.mem_zipIdx_iff_getElem?.mp hmem)
  apply readLines?_eq fun x : Instruction × ℕ => p.lineText x.2 x.1
  · intro x hx
    exact newline_notMem_of_line (p.line_lineText (hget x hx))
  · intro x hx
    exact readLine?_of_line (p.line_lineText (hget x hx)) (hget x hx)

theorem map_index_entries : p.entries.map Entry.index = List.range p.size := by
  rw [entries, List.map_map, List.range_eq_range', size, ← Array.length_toList,
    ← List.zipIdx_map_snd]
  rfl

theorem map_instruction_entries : p.entries.map Entry.instruction = p.code.toList := by
  rw [entries, List.map_map]
  exact List.zipIdx_map_fst 0 _

theorem map_partner_entries : p.entries.map Entry.partner = p.partners.toList := by
  apply List.ext_getElem
  · rw [List.length_map, entries, List.length_map, List.length_zipIdx, Array.length_toList,
      Array.length_toList, size_partners, size]
  · intro k hk hk'
    have hpartners : k < p.partners.size := hk'
    simp [entries, partner?, hpartners]

theorem listing_inj {p q : Program} (h : p.listing = q.listing) : p = q := by
  have hentries : p.entries = q.entries := by
    apply Option.some.inj
    rw [← readListing?_listing, ← readListing?_listing, h]
  apply ext
  apply Array.toList_inj.mp
  rw [← map_instruction_entries, ← map_instruction_entries, hentries]

/-- A listing has one line for each instruction, in order and each with its end, from which
the code and the table of partners are read back. So two programs are never listed alike. -/
theorem listing_read_back (p : Program) :
    (∃ lines : List (List Char),
      p.listing = String.ofList (lines.flatMap fun line => line ++ ['\n']) ∧
      lines.length = p.size ∧ (∀ line ∈ lines, '\n' ∉ line) ∧
      ∀ k line, lines[k]? = some line → Line p k line) ∧
    (∃ entries : List Entry, readListing? p.listing = some entries ∧
      entries.map Entry.index = List.range p.size ∧
      entries.map Entry.instruction = p.code.toList ∧
      entries.map Entry.partner = p.partners.toList) ∧
    ∀ q : Program, q.listing = p.listing ↔ q = p := by
  refine ⟨⟨p.lines, p.listing_eq, p.length_lines, ?_, ?_⟩,
    ⟨p.entries, p.readListing?_listing, ?_⟩, ?_⟩
  · intro line hline
    exact p.newline_notMem_of_mem_lines hline
  · intro k line hline
    exact p.line_of_getElem?_lines hline
  · exact ⟨p.map_index_entries, p.map_instruction_entries, p.map_partner_entries⟩
  · intro q
    exact ⟨listing_inj, fun h => h ▸ rfl⟩

end Program

end TapeMachine
