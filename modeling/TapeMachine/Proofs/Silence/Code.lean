import TapeMachine.Proofs.Brackets.Partners
import TapeMachine.Proofs.Text.Characters

/-!
# Code without transfers

Without input and output `.` and `,` do nothing. When they are left out of some code, the
brackets stay balanced and belong together as before, only at other places: each
instruction moves to the front by the number of transfers before it.
-/
namespace TapeMachine

/-- `.` and `,`, which do nothing without input and output. -/
def Instruction.isTransfer : Instruction → Bool
  | write | read => true
  | _ => false

def silenced (code : List Instruction) : List Instruction :=
  code.filter (!·.isTransfer)

/-- A text without `.` and `,`; its comments stay. -/
def silencedText (source : String) : String :=
  String.ofList (source.toList.filter fun c => c ≠ '.' ∧ c ≠ ',')

/-- Where the instruction at `i` is found in the silenced code. -/
def silencedPlace (code : List Instruction) (i : ℕ) : ℕ :=
  (silenced (code.take i)).length

namespace Instruction

variable {x : Instruction}

theorem ne_read_write_iff : (x.toChar ≠ '.' ∧ x.toChar ≠ ',') ↔ x.isTransfer = false := by
  cases x <;> decide

theorem isTransfer_eq_false (h : x.isBracket = true) : x.isTransfer = false := by
  cases x <;> simp_all [isBracket, isTransfer]

end Instruction

open Brackets

variable {code front body back : List Instruction} {i j : ℕ} {x : Instruction}

theorem instructions_silencedText (source : String) :
    Program.instructions (silencedText source) = silenced (Program.instructions source) := by
  rw [Program.instructions_eq, Program.instructions_eq, silencedText, String.toList_ofList,
    silenced, List.filterMap_filter, List.filter_filterMap]
  apply List.filterMap_congr
  intro c _
  cases hc : Instruction.ofChar? c with
  | none => simp
  | some i =>
    obtain rfl := Instruction.toChar_of_ofChar? hc
    simp only [Option.filter_some, Bool.not_eq_true', Instruction.ne_read_write_iff,
      decide_eq_true_eq]

theorem silenced_append (a b : List Instruction) : silenced (a ++ b) = silenced a ++ silenced b :=
  List.filter_append ..

theorem silenced_cons (h : x.isTransfer = false) (code : List Instruction) :
    silenced (x :: code) = x :: silenced code :=
  List.filter_cons_of_pos (by simp [h])

theorem length_silenced (code : List Instruction) :
    (silenced code).length + code.countP Instruction.isTransfer = code.length := by
  rw [List.length_eq_countP_add_countP Instruction.isTransfer (l := code), silenced,
    ← List.countP_eq_length_filter, Nat.add_comm]
  simp

theorem balanced_silenced (h : Balanced code) : Balanced (silenced code) where
  covered := by
    intro prior hprior
    obtain ⟨full, hfull, rfl⟩ := List.prefix_filter_iff.mp hprior
    rw [List.count_filter rfl, List.count_filter rfl]
    exact h.covered full hfull
  level := by
    rw [Level, silenced, List.count_filter rfl, List.count_filter rfl]
    exact h.level

/-! ### Places -/

theorem silencedPlace_succ (h : code[i]? = some x) :
    silencedPlace code (i + 1) =
      if x.isTransfer then silencedPlace code i else silencedPlace code i + 1 := by
  obtain ⟨hi, rfl⟩ := List.getElem?_eq_some_iff.mp h
  have htake : code.take (i + 1) = code.take i ++ [code[i]] := by
    simp
  rw [silencedPlace, htake, silenced_append, List.length_append, silencedPlace]
  cases hx : code[i].isTransfer <;> simp [silenced, hx]

theorem silencedPlace_append (a b : List Instruction) :
    silencedPlace (a ++ b) a.length = (silenced a).length := by
  rw [silencedPlace, List.take_left]

theorem silencedPlace_of_length_le (h : code.length ≤ i) :
    silencedPlace code i = (silenced code).length := by
  rw [silencedPlace, List.take_of_length_le h]

theorem getElem?_silencedPlace (h : code[i]? = some x) (hx : x.isTransfer = false) :
    (silenced code)[silencedPlace code i]? = some x := by
  obtain ⟨hi, rfl⟩ := List.getElem?_eq_some_iff.mp h
  have hsplit : silenced code =
      silenced (code.take i) ++ code[i] :: silenced (code.drop (i + 1)) := by
    rw [← silenced_cons hx, ← silenced_append, List.getElem_cons_drop, List.take_append_drop]
  rw [silencedPlace, hsplit, List.getElem?_append_right le_rfl, Nat.sub_self]
  rfl

theorem Brackets.Pair.exists_eq (h : Pair code i j) :
    ∃ front body back, code = front ++ .loopStart :: (body ++ .loopEnd :: back) ∧
      Balanced body ∧ front.length = i ∧ front.length + 1 + body.length = j := by
  obtain ⟨hi, hstart⟩ := List.getElem?_eq_some_iff.mp h.start
  obtain ⟨hj, hstop⟩ := List.getElem?_eq_some_iff.mp h.stop
  have hlt := h.lt
  have hbody := length_extract (i := i + 1) hj.le
  refine ⟨code.take i, code.extract (i + 1) j, code.drop (j + 1), ?_, h.balanced_between, ?_, ?_⟩
  · have hinside : code.drop (i + 1) = code.extract (i + 1) j ++ code.drop j := by
      rw [List.extract_eq_take_drop]
      conv_lhs => rw [← List.take_append_drop (j - (i + 1)) (code.drop (i + 1)), List.drop_drop,
        Nat.add_sub_cancel' (Nat.succ_le_of_lt hlt)]
    rw [← hstop, List.getElem_cons_drop, ← hinside, ← hstart, List.getElem_cons_drop,
      List.take_append_drop]
  · rw [List.length_take]
    omega
  · rw [List.length_take, hbody]
    omega

theorem pair_silenced (h : Pair code i j) :
    Pair (silenced code) (silencedPlace code i) (silencedPlace code j) := by
  obtain ⟨front, body, back, rfl, hbody, rfl, rfl⟩ := h.exists_eq
  have hstart := silencedPlace_append front (.loopStart :: (body ++ .loopEnd :: back))
  have hstop := silencedPlace_append (front ++ .loopStart :: body) (.loopEnd :: back)
  rw [List.append_assoc, List.cons_append, silenced_append, silenced_cons rfl, List.length_append,
    List.length_append, List.length_cons, List.length_cons, ← Nat.add_assoc,
    Nat.add_right_comm] at hstop
  have hcode : silenced (front ++ .loopStart :: (body ++ .loopEnd :: back)) =
      silenced front ++ .loopStart :: (silenced body ++ .loopEnd :: silenced back) := by
    rw [silenced_append, silenced_cons rfl, silenced_append, silenced_cons rfl]
  rw [hstart, hstop, hcode, ← Nat.add_assoc, Nat.add_right_comm]
  exact pair_of_balanced (balanced_silenced hbody)

end TapeMachine
