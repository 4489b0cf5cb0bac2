import TapeMachine.Machine.Basic
import TapeMachine.Random.Composition
import TapeMachine.Proofs.Structure.Tree
import TapeMachine.Proofs.Text.Characters
import Mathlib.Data.Stream.Init

/-!
# Random programs are the balanced ones

Composing places an instruction only where the loops that it leaves open can still be
closed, and refuses none that leaves them so. So the programs that draws can give are
the balanced ones of the asked length, all of them and no others.
-/
namespace TapeMachine

open Brackets

namespace Random

variable {σ : Type} {draw : σ → Fin 8 × σ} {n m depth remaining : ℕ} {x : Instruction}
  {code placed : List Instruction}

/-! ### One place -/

/-- What is placed leaves no more loops open than there are places left, if that was so
before and a last chance to close loops was not missed. -/
theorem fit_spec (h : depth ≤ remaining + 1) (hforced : depth = remaining + 1 → x = .loopEnd) :
    ((fit depth (remaining + 1) x).2 : ℤ) = depth + rise (fit depth (remaining + 1) x).1 ∧
      (fit depth (remaining + 1) x).2 ≤ remaining := by
  have hroom : x ≠ .loopEnd → depth ≤ remaining := by
    intro hx
    by_contra hfull
    exact hx (hforced (by omega))
  cases x with
  | loopStart =>
    have := hroom (by simp)
    by_cases hfits : depth + 1 < remaining + 1
    · simp only [fit, if_pos hfits, rise]
      omega
    · simp only [fit, if_neg hfits, rise]
      omega
  | loopEnd =>
    by_cases hopen : 0 < depth
    · simp only [fit, if_pos hopen, rise]
      omega
    · simp only [fit, if_neg hopen, rise]
      omega
  | moveRight | moveLeft | increment | decrement | write | read =>
    exact ⟨(add_zero _).symm, hroom (by simp)⟩

/-- An instruction after which all open loops can be closed is placed as it is. -/
theorem fit_eq (hm : (m : ℤ) = depth + rise x) (hle : m ≤ remaining) :
    fit depth (remaining + 1) x = (x, m) := by
  cases x with
  | loopStart =>
    obtain rfl : m = depth + 1 := by
      simp only [rise] at hm
      omega
    exact if_pos (Nat.lt_succ_of_le hle)
  | loopEnd =>
    obtain rfl : depth = m + 1 := by
      simp only [rise] at hm
      omega
    simp [fit]
  | moveRight | moveLeft | increment | decrement | write | read =>
    obtain rfl : m = depth := by
      simp only [rise] at hm
      omega
    rfl

theorem wish_of_forced (draw : σ → Fin 8 × σ) (depth : ℕ) (s : σ) :
    wish draw depth depth s = (.loopEnd, s) := by
  simp [wish]

theorem composeFrom_succ (draw : σ → Fin 8 × σ) (placed : List Instruction)
    (depth remaining : ℕ) (s : σ) :
    composeFrom draw placed depth (remaining + 1) s =
      let w := wish draw depth (remaining + 1) s
      composeFrom draw ((fit depth (remaining + 1) w.1).1 :: placed)
        (fit depth (remaining + 1) w.1).2 remaining w.2 :=
  rfl

/-! ### Every draw gives a balanced program -/

theorem closes_composeFrom (draw : σ → Fin 8 × σ) (h : depth ≤ remaining)
    (placed : List Instruction) (s : σ) :
    ∃ rest, (composeFrom draw placed depth remaining s).1 = placed.reverse ++ rest ∧
      Tree.Closes depth rest := by
  -- `depth ≤ remaining` is what every placement keeps.
  induction remaining generalizing depth placed s with
  | zero =>
    obtain rfl : depth = 0 := Nat.le_zero.mp h
    exact ⟨[], by simp [composeFrom], Tree.closes_zero_iff.mpr balanced_nil⟩
  | succ remaining ih =>
    rw [composeFrom_succ]
    have hforced : depth = remaining + 1 →
        (wish draw depth (remaining + 1) s).1 = .loopEnd := by
      rintro rfl
      rw [wish_of_forced]
    generalize wish draw depth (remaining + 1) s = w at hforced
    obtain ⟨hdepth, hle⟩ := fit_spec h hforced
    obtain ⟨rest, hrest, hcloses⟩ := ih hle ((fit depth (remaining + 1) w.1).1 :: placed) w.2
    refine ⟨(fit depth (remaining + 1) w.1).1 :: rest, ?_,
      Tree.closes_cons_iff.mpr ⟨_, hdepth, hcloses⟩⟩
    rw [hrest, List.reverse_cons, List.append_assoc]
    rfl

theorem balanced_compose (draw : σ → Fin 8 × σ) (n : ℕ) (s : σ) :
    Balanced (compose draw n s).1 := by
  obtain ⟨rest, hrest, hcloses⟩ := closes_composeFrom draw (Nat.zero_le n) [] s
  rw [compose, hrest]
  exact Tree.closes_zero_iff.mp hcloses

theorem exists_ofCode_compose (draw : σ → Fin 8 × σ) (n : ℕ) (s : σ) :
    ∃ p, Program.ofCode (compose draw n s).1 = .ok p ∧ p.size = n := by
  obtain ⟨p, hp⟩ := Program.exists_ofCode_eq_ok_iff.mpr (balanced_compose draw n s)
  refine ⟨p, hp, ?_⟩
  rw [Program.size, ← Array.length_toList, Program.toList_code_of_ofCode hp, length_compose]

/-! ### Every balanced program can be drawn -/

def nextDraw (draws : Stream' (Fin 8)) : Fin 8 × Stream' (Fin 8) :=
  (draws.head, draws.tail)

def drawn (n : ℕ) (draws : Stream' (Fin 8)) : List Instruction :=
  (compose nextDraw n draws).1

theorem exists_wish_eq (h : depth ≠ remaining) (x : Instruction) (draws : Stream' (Fin 8)) :
    ∃ k, wish nextDraw depth remaining (.cons k draws) = (x, draws) := by
  have hmem : x ∈ palette := by cases x <;> simp [palette]
  obtain ⟨k, hk, hx⟩ := Vector.getElem_of_mem hmem
  exact ⟨⟨k, hk⟩, by simp [wish, h, nextDraw, hx]⟩

theorem exists_composeFrom_eq (h : Tree.Closes depth code) (placed : List Instruction) :
    ∃ draws, (composeFrom nextDraw placed depth code.length draws).1 = placed.reverse ++ code := by
  induction code generalizing depth placed with
  | nil => exact ⟨.const 0, by simp [composeFrom]⟩
  | cons x code ih =>
    obtain ⟨m, hm, htail⟩ := Tree.closes_cons_iff.mp h
    have hle := htail.le_length
    obtain ⟨draws, hdraws⟩ := ih htail (x :: placed)
    have hfit := fit_eq hm hle
    by_cases hfull : depth = code.length + 1
    · obtain rfl : x = .loopEnd := by
        cases x <;> simp only [rise] at hm <;> first | rfl | omega
      refine ⟨draws, ?_⟩
      rw [List.length_cons, composeFrom_succ, ← hfull, wish_of_forced, hfull]
      rw [hfull] at hfit
      simp only [hfit, hdraws]
      simp
    · obtain ⟨k, hwish⟩ := exists_wish_eq hfull x draws
      refine ⟨.cons k draws, ?_⟩
      rw [List.length_cons, composeFrom_succ, hwish]
      simp only [hfit, hdraws]
      simp

theorem exists_drawn_eq (h : Balanced code) : ∃ draws, drawn code.length draws = code :=
  exists_composeFrom_eq (Tree.closes_zero_iff.mpr h) []

/-! ### Texts -/

/-- A text of `n` instructions without comments, its brackets balanced. -/
structure BalancedWord (n : ℕ) (text : String) : Prop where
  length_eq : text.length = n
  plain : ∀ c ∈ text.toList, ∃ i : Instruction, i.toChar = c
  balanced : Balanced (Program.instructions text)

theorem balancedWord_text (h : Balanced code) :
    BalancedWord code.length (Instruction.text code) where
  length_eq := by simp [Instruction.text]
  plain := by simp [Instruction.text]
  balanced := by rwa [Program.instructions_text]

theorem BalancedWord.exists_drawn {text : String} (h : BalancedWord n text) :
    ∃ draws, Instruction.text (drawn n draws) = text := by
  have htext := Program.text_instructions h.plain
  have hlength : (Program.instructions text).length = n := by
    rw [← h.length_eq, ← (balancedWord_text h.balanced).length_eq, htext]
  obtain ⟨draws, hdraws⟩ := exists_drawn_eq h.balanced
  rw [hlength] at hdraws
  exact ⟨draws, by rw [hdraws, htext]⟩

/-- The texts that draws give for a length are exactly the balanced words of that length.
Whatever the source of the draws is, the text has the length that was asked for and is a
program of as many instructions; in particular every machine loads what the generator
gives, whatever its state. -/
theorem range_drawn (n : ℕ) :
    (Set.range fun draws => Instruction.text (drawn n draws)) =
      {text | BalancedWord n text} ∧
    (∀ (σ : Type) (draw : σ → Fin 8 × σ) (s : σ),
      let text := Instruction.text (compose draw n s).1
      text.length = n ∧ ∃ p, Program.ofText text = .ok p ∧ p.size = n ∧ p.text = text) ∧
    ∀ (g : Generator) (m : Machine), ∃ p, p.size = n ∧
      m.load (Instruction.text (program n g).1) = .ok (m.install p) := by
  have hword : ∀ {σ : Type} (draw : σ → Fin 8 × σ) (s : σ),
      BalancedWord n (Instruction.text (compose draw n s).1) := by
    intro σ draw s
    have := balancedWord_text (balanced_compose draw n s)
    rwa [length_compose] at this
  refine ⟨Set.Subset.antisymm ?_ ?_, ?_, ?_⟩
  · rintro _ ⟨draws, rfl⟩
    exact hword nextDraw draws
  · intro text htext
    exact htext.exists_drawn
  · intro σ draw s text
    obtain ⟨p, hp, hsize⟩ := exists_ofCode_compose draw n s
    refine ⟨(hword draw s).length_eq, p, (Program.ofText_text _).trans hp, hsize, ?_⟩
    rw [Program.text, Program.toList_code_of_ofCode hp]
  · intro g m
    obtain ⟨p, hp, hsize⟩ := exists_ofCode_compose Generator.below8 n g
    refine ⟨p, hsize, ?_⟩
    rw [Machine.load, Machine.loadCode, Program.instructions_text, program, hp]
    rfl

end Random

end TapeMachine
