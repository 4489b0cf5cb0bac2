import TapeMachine.Proofs.Brackets.Partners

/-!
# Program trees

A program tree is a sequence of simple instructions and loops, each loop with a
tree as its body. Written out with brackets, trees give every balanced code, and
different trees give different code.
-/
namespace TapeMachine

open Brackets

inductive Simple where
  | moveRight
  | moveLeft
  | increment
  | decrement
  | write
  | read

def Simple.instruction : Simple → Instruction
  | moveRight => .moveRight
  | moveLeft => .moveLeft
  | increment => .increment
  | decrement => .decrement
  | write => .write
  | read => .read

inductive Tree where
  | done
  | single (i : Simple) (rest : Tree)
  | loop (body rest : Tree)

theorem Simple.isBracket_instruction (i : Simple) : i.instruction.isBracket = false := by
  cases i <;> rfl

theorem Simple.instruction_injective {i j : Simple} (h : i.instruction = j.instruction) :
    i = j := by
  cases i <;> cases j <;> simp_all [instruction]

theorem Simple.exists_instruction_eq {x : Instruction} (h : x.isBracket = false) :
    ∃ i : Simple, i.instruction = x := by
  cases x with
  | moveRight => exact ⟨.moveRight, rfl⟩
  | moveLeft => exact ⟨.moveLeft, rfl⟩
  | increment => exact ⟨.increment, rfl⟩
  | decrement => exact ⟨.decrement, rfl⟩
  | write => exact ⟨.write, rfl⟩
  | read => exact ⟨.read, rfl⟩
  | loopStart => simp [Instruction.isBracket] at h
  | loopEnd => simp [Instruction.isBracket] at h

namespace Tree

/-- The code of a tree, each loop between brackets. -/
def flatten : Tree → List Instruction
  | done => []
  | single i rest => i.instruction :: rest.flatten
  | loop body rest => .loopStart :: (body.flatten ++ .loopEnd :: rest.flatten)

theorem balanced_flatten (T : Tree) : Balanced T.flatten := by
  induction T with
  | done => exact balanced_nil
  | single i rest ih => exact ih.cons i.isBracket_instruction
  | loop body rest ihbody ihrest => exact ihbody.loop ihrest

/-- The rest of some code after a tree: nothing more, or the end of a loop around it. -/
def Stops (code : List Instruction) : Prop :=
  ∀ x ∈ code.head?, x = .loopEnd

theorem stops_nil : Stops [] := by
  simp [Stops]

theorem stops_loopEnd (code : List Instruction) : Stops (.loopEnd :: code) := by
  simp [Stops]

theorem not_stops_simple (i : Simple) (code : List Instruction) :
    ¬ Stops (i.instruction :: code) := by
  intro h
  have := h i.instruction rfl
  have hbracket := i.isBracket_instruction
  simp [this, Instruction.isBracket] at hbracket

theorem not_stops_loopStart (code : List Instruction) : ¬ Stops (.loopStart :: code) := by
  simp [Stops]

/-- Code is read as a tree in one way only, whatever follows the tree. -/
theorem flatten_append_inj {T U : Tree} {a b : List Instruction} (ha : Stops a) (hb : Stops b)
    (h : T.flatten ++ a = U.flatten ++ b) : T = U ∧ a = b := by
  induction T generalizing U a b with
  | done =>
    cases U with
    | done => exact ⟨rfl, h⟩
    | single i rest =>
      have hstart : a = i.instruction :: (rest.flatten ++ b) := h
      rw [hstart] at ha
      exact absurd ha (not_stops_simple i _)
    | loop body rest =>
      have hstart : a = .loopStart :: (body.flatten ++ .loopEnd :: rest.flatten ++ b) := h
      rw [hstart] at ha
      exact absurd ha (not_stops_loopStart _)
  | single i rest ih =>
    cases U with
    | done =>
      have hstart : i.instruction :: (rest.flatten ++ a) = b := h
      rw [← hstart] at hb
      exact absurd hb (not_stops_simple i _)
    | single j rest' =>
      obtain ⟨hi, hrest⟩ := List.cons.inj h
      obtain ⟨rfl, hab⟩ := ih ha hb hrest
      exact ⟨congrArg (single · rest) (Simple.instruction_injective hi), hab⟩
    | loop body rest' =>
      have hi := (List.cons.inj h).1
      have := i.isBracket_instruction
      simp [hi, Instruction.isBracket] at this
  | loop body rest ihbody ihrest =>
    cases U with
    | done =>
      have hstart : .loopStart :: (body.flatten ++ .loopEnd :: rest.flatten ++ a) = b := h
      rw [← hstart] at hb
      exact absurd hb (not_stops_loopStart _)
    | single i rest' =>
      have hi := (List.cons.inj h).1
      have := i.isBracket_instruction
      simp [← hi, Instruction.isBracket] at this
    | loop body' rest' =>
      have hbody : body.flatten ++ .loopEnd :: (rest.flatten ++ a) =
          body'.flatten ++ .loopEnd :: (rest'.flatten ++ b) := by
        simpa [flatten] using h
      obtain ⟨rfl, htail⟩ := ihbody (stops_loopEnd _) (stops_loopEnd _) hbody
      obtain ⟨rfl, hab⟩ := ihrest ha hb (List.cons.inj htail).2
      exact ⟨rfl, hab⟩

theorem flatten_injective {T U : Tree} (h : T.flatten = U.flatten) : T = U :=
  (flatten_append_inj stops_nil stops_nil (by simpa using h)).1

/-- Code that closes `n` loops which stand open before it. -/
def Closes (n : ℕ) (code : List Instruction) : Prop :=
  depth code code.length = -n ∧ ∀ k, -n ≤ depth code k

theorem closes_zero_iff {code : List Instruction} : Closes 0 code ↔ Balanced code := by
  rw [balanced_iff]
  simp [Closes, and_comm]

theorem Closes.tail {n m : ℕ} {x : Instruction} {code : List Instruction}
    (h : Closes n (x :: code)) (hm : (m : ℤ) = n + rise x) : Closes m code := by
  obtain ⟨hend, hcovered⟩ := h
  rw [List.length_cons, depth_cons] at hend
  refine ⟨by omega, ?_⟩
  intro k
  have := hcovered (k + 1)
  rw [depth_cons] at this
  omega

/-- Code closes loops when what follows its first instruction closes those that are open
then. -/
theorem closes_cons_iff {n : ℕ} {x : Instruction} {code : List Instruction} :
    Closes n (x :: code) ↔ ∃ m : ℕ, (m : ℤ) = n + rise x ∧ Closes m code := by
  constructor
  · intro h
    have hone := h.2 1
    rw [depth_cons, depth_zero, add_zero] at hone
    obtain ⟨m, hm⟩ := Int.eq_ofNat_of_zero_le (show 0 ≤ (n : ℤ) + rise x by omega)
    exact ⟨m, hm.symm, h.tail hm.symm⟩
  · rintro ⟨m, hm, hend, hcovered⟩
    refine ⟨?_, ?_⟩
    · rw [List.length_cons, depth_cons, hend]
      omega
    · intro k
      cases k with
      | zero =>
        rw [depth_zero]
        omega
      | succ k =>
        have := hcovered k
        rw [depth_cons]
        omega

theorem Closes.le_length {n : ℕ} {code : List Instruction} (h : Closes n code) :
    n ≤ code.length := by
  induction code generalizing n with
  | nil =>
    have := h.1
    rw [List.length_nil, depth_zero] at this
    omega
  | cons x code ih =>
    obtain ⟨m, hm, htail⟩ := closes_cons_iff.mp h
    have := ih htail
    have := neg_one_le_rise x
    rw [List.length_cons]
    omega

/-- Closing code begins with a tree, and then closes the innermost open loop. -/
theorem Closes.exists_tree {n : ℕ} {code : List Instruction} (h : Closes n code) :
    ∃ (T : Tree) (rest : List Instruction), code = T.flatten ++ rest ∧
      (n = 0 ∧ rest = [] ∨ ∃ m tail, n = m + 1 ∧ rest = .loopEnd :: tail ∧ Closes m tail) := by
  -- A loop's body and what follows the loop are both shorter, but only the body is the tail.
  induction hlen : code.length using Nat.strong_induction_on generalizing n code with
  | _ length ih =>
    cases code with
    | nil =>
      have hn : n = 0 := by
        have := h.1
        simp at this
        omega
      exact ⟨done, [], rfl, .inl ⟨hn, rfl⟩⟩
    | cons x code =>
      subst hlen
      cases hx : x.isBracket with
      | false =>
        obtain ⟨i, rfl⟩ := Simple.exists_instruction_eq hx
        have htail : Closes n code := h.tail (by rw [rise_eq_zero hx, add_zero])
        obtain ⟨T, rest, rfl, hrest⟩ := ih _ (Nat.lt_succ_self _) htail rfl
        exact ⟨single i T, rest, rfl, hrest⟩
      | true =>
        cases x with
        | loopStart =>
          have htail : Closes (n + 1) code := h.tail (by simp [rise])
          obtain ⟨body, _, rfl, ⟨hzero, -⟩ | ⟨m, tail, hm, rfl, hclose⟩⟩ :=
            ih _ (Nat.lt_succ_self _) htail rfl
          · simp at hzero
          · obtain rfl := Nat.succ.inj hm
            obtain ⟨T, rest, rfl, hrest⟩ := ih _ (by simp; omega) hclose rfl
            exact ⟨loop body T, rest, by simp [flatten], hrest⟩
        | loopEnd =>
          have hone := h.2 1
          rw [depth_cons, depth_zero, rise] at hone
          obtain ⟨m, rfl⟩ := Nat.exists_eq_add_of_le' (show 1 ≤ n by omega)
          have htail : Closes m code := h.tail (by simp [rise])
          exact ⟨done, .loopEnd :: code, rfl, .inr ⟨m, code, rfl, rfl, htail⟩⟩
        | _ => simp [Instruction.isBracket] at hx

/-- Balanced code is the code of exactly one tree. -/
theorem existsUnique_of_balanced {code : List Instruction} (h : Balanced code) :
    ∃! T : Tree, T.flatten = code := by
  obtain ⟨T, rest, hcode, ⟨-, rfl⟩ | ⟨m, tail, hm, -⟩⟩ := (closes_zero_iff.mpr h).exists_tree
  · rw [List.append_nil] at hcode
    refine ⟨T, hcode.symm, ?_⟩
    intro U hU
    apply flatten_injective
    exact hU.trans hcode
  · simp at hm

end Tree

end TapeMachine
