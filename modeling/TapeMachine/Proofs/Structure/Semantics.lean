import TapeMachine.Machine.Store
import TapeMachine.Proofs.Structure.Tree

/-!
# What program trees mean

A big-step semantics without program counter and jumps: simple instructions act
on a memory, a loop repeats its body while the current cell is not zero. Beside
the memory in the end it counts simple instructions, entered loops and finished
passes of loop bodies.
-/
namespace TapeMachine

/-- What a tree acts on. The last byte of the input is read next. -/
structure Memory where
  cells : List UInt8
  pointer : ℕ
  input : List UInt8
  output : List UInt8
  deriving DecidableEq

namespace Memory

/-- The pointer at the first cell and nothing written. -/
def initial (cells input : List UInt8) : Memory := ⟨cells, 0, input, []⟩

def current (s : Memory) : UInt8 := s.cells.getD s.pointer 0

def put (s : Memory) (value : UInt8) : Memory :=
  { s with cells := s.cells.set s.pointer value }

end Memory

def Simple.run (io : Bool) (s : Memory) : Simple → Memory
  | moveRight => { s with pointer := (s.pointer + 1) % s.cells.length }
  | moveLeft => { s with pointer := (s.pointer + (s.cells.length - 1)) % s.cells.length }
  | increment => s.put (s.current + 1)
  | decrement => s.put (s.current - 1)
  | write => if io then { s with output := s.output ++ [s.current] } else s
  | read =>
    if io then { s.put (s.input.getLast?.getD 0) with input := s.input.dropLast } else s

/-- `Passes body s n t`: while the current cell is not zero, `body` runs; this leads
from `s` to `t`. Each finished pass counts one beside what its body counts. -/
inductive Passes (body : Memory → ℕ → Memory → Prop) : Memory → ℕ → Memory → Prop
  | stop {s : Memory} (h : s.current = 0) : Passes body s 0 s
  | again {s t u : Memory} {m n : ℕ} (h : s.current ≠ 0) (first : body s m t)
      (others : Passes body t n u) : Passes body s (m + 1 + n) u

/-- `T.Evaluates io s n t`: from `s` the tree ends in `t` with a count of `n`. A simple
instruction counts one, and so does the entry of a loop beside its passes. -/
def Tree.Evaluates (io : Bool) : Tree → Memory → ℕ → Memory → Prop
  | done, s, n, t => n = 0 ∧ t = s
  | single i rest, s, n, t => ∃ k, rest.Evaluates io (i.run io s) k t ∧ n = 1 + k
  | loop body rest, s, n, t =>
    ∃ k u l, Passes (body.Evaluates io) s k u ∧ rest.Evaluates io u l t ∧ n = 1 + k + l

/-! ### Memories of stores -/

/-- The part of a store that the semantics of trees knows. -/
def Store.memory (s : Store) : Memory :=
  ⟨s.tape.cells.toList, s.tape.pointer, s.input.toList, s.output.toList⟩

theorem Store.current_memory (s : Store) : s.memory.current = s.tape.current := by
  have h := s.tape.getElem?_cells_pointer
  rw [← Array.getElem?_toList] at h
  simp [memory, Memory.current, List.getD_eq_getElem?_getD, h]

theorem Store.put_memory (s : Store) (value : UInt8) :
    s.memory.put value = { s with tape := s.tape.store value }.memory := by
  simp [memory, Memory.put]

/-- A simple instruction does to a store what it does to the store's memory, and the
counters wait. -/
theorem Store.perform_simple (s : Store) (io : Bool) (partner : ℕ) (i : Simple) :
    (s.perform io partner i.instruction).2.memory = i.run io s.memory ∧
      (s.perform io partner i.instruction).2.pc = s.pc ∧
        (s.perform io partner i.instruction).2.steps = s.steps := by
  cases i with
  | moveRight =>
    refine ⟨?_, rfl, rfl⟩
    simp [perform, Simple.instruction, Simple.run, memory, Tape.pointer_moveRight]
  | moveLeft =>
    refine ⟨?_, rfl, rfl⟩
    simp [perform, Simple.instruction, Simple.run, memory, Tape.pointer_moveLeft]
  | increment =>
    refine ⟨?_, rfl, rfl⟩
    change { s with tape := s.tape.store (s.tape.current + 1) }.memory = _
    rw [← put_memory, ← current_memory]
    rfl
  | decrement =>
    refine ⟨?_, rfl, rfl⟩
    change { s with tape := s.tape.store (s.tape.current - 1) }.memory = _
    rw [← put_memory, ← current_memory]
    rfl
  | write =>
    cases io with
    | false => exact ⟨rfl, rfl, rfl⟩
    | true =>
      refine ⟨?_, rfl, rfl⟩
      change _ = { s.memory with output := s.memory.output ++ [s.memory.current] }
      rw [current_memory]
      simp [perform, Simple.instruction, memory]
  | read =>
    cases io with
    | false => exact ⟨rfl, rfl, rfl⟩
    | true =>
      refine ⟨?_, rfl, rfl⟩
      change _ = { s.memory.put (s.memory.input.getLast?.getD 0) with
        input := s.memory.input.dropLast }
      rw [put_memory]
      simp [perform, Simple.instruction, memory]

end TapeMachine
