import TapeMachine.Proofs.Runs.Agreement

/-!
# Replaying effects

The effects that steps give back are a complete log. Whoever knows where a machine stands
and reads its effects in order knows where it stands after them, without its program and
its setup: the effects leave no change out and misstate none.
-/
namespace TapeMachine

/-- A copy of what a store holds, apart from the count of its steps. -/
structure Replica where
  pc : ℕ
  cells : Array UInt8
  pointer : ℕ
  input : Array UInt8
  output : Array UInt8

namespace Replica

def ofStore (s : Store) : Replica where
  pc := s.pc
  cells := s.tape.cells
  pointer := s.tape.pointer
  input := s.input
  output := s.output

/-- Do to the copy what an effect says was done, and go on to the next instruction. -/
def follow (r : Replica) (e : Effect) : Replica :=
  let changed :=
    match e with
    | .moved pointer => { r with pointer }
    | .changed pointer value => { r with cells := r.cells.setIfInBounds pointer value }
    | .wrote byte => { r with output := r.output.push byte }
    | .read byte =>
      { r with cells := r.cells.setIfInBounds r.pointer byte, input := r.input.pop }
    | .jumped _ _ | .passed | .ignored | .halted => r
  { changed with pc := e.next r.pc }

def replay (r : Replica) (effects : List Effect) : Replica :=
  effects.foldl follow r

theorem replay_append (r : Replica) (effects effects' : List Effect) :
    r.replay (effects ++ effects') = (r.replay effects).replay effects' :=
  List.foldl_append

end Replica

theorem Tape.setIfInBounds_cells (t : Tape) (value : UInt8) :
    t.cells.setIfInBounds t.pointer value = (t.store value).cells :=
  dif_pos t.pointer_lt_size

namespace Store

theorem follow_execute (s : Store) (io : Bool) (p : Program) (x : Instruction) :
    (Replica.ofStore s).follow (s.execute io p x).1 = .ofStore (s.execute io p x).2 := by
  cases x with
  | moveRight | moveLeft =>
    simp [Replica.ofStore, Replica.follow, execute, perform, proceed, Effect.next]
  | increment | decrement =>
    simp [Replica.ofStore, Replica.follow, execute, perform, proceed, Effect.next,
      Tape.increment, Tape.decrement, Tape.setIfInBounds_cells]
  | write | read =>
    cases io <;>
      simp [Replica.ofStore, Replica.follow, execute, perform, proceed, Effect.next,
        Tape.setIfInBounds_cells]
  | loopStart | loopEnd =>
    simp only [execute, perform, proceed, jump]
    split <;> rfl

theorem source_of_jumped {s : Store} {io : Bool} {p : Program} {x : Instruction}
    {source target : ℕ} (h : (s.execute io p x).1 = .jumped source target) : source = s.pc := by
  cases x with
  | moveRight | moveLeft | increment | decrement => simp [execute, perform] at h
  | write | read => cases io <;> simp [execute, perform] at h
  | loopStart | loopEnd =>
    simp only [execute, perform, jump] at h
    split at h
    · exact (Effect.jumped.inj h).1.symm
    · cases h

end Store

namespace Machine

variable {m : Machine} {x : Instruction} {n k source target : ℕ}

theorem follow_step (h : m.step.ran = some x) :
    (Replica.ofStore m.store).follow m.step.effect = .ofStore m.step.machine.store := by
  obtain ⟨heffect, hstore⟩ := store_step_of_ran h
  rw [heffect, hstore, Store.follow_execute]

theorem source_of_jumped (h : m.step.effect = .jumped source target) : source = m.store.pc := by
  cases hran : m.step.ran with
  | none => simp [(step_eq_of_halted hran).1] at h
  | some x =>
    rw [(store_step_of_ran hran).1] at h
    exact Store.source_of_jumped h

theorem replay_walk (h : .halted ∉ (m.walk n).effects) :
    (Replica.ofStore m.store).replay (m.walk n).effects = .ofStore (m.walk n).machine.store := by
  induction n with
  | zero => rfl
  | succ n ih =>
    obtain ⟨hn, x, hran⟩ := halted_notMem_walk_succ_iff.mp h
    rw [effects_walk_succ, machine_walk_succ, Replica.replay_append, ih hn]
    exact follow_step hran

theorem getElem?_effects_walk (hlt : k < n) :
    (m.walk n).effects[k]? = some (m.walk k).machine.step.effect := by
  obtain ⟨l, rfl⟩ := Nat.exists_eq_add_of_lt hlt
  rw [Nat.add_right_comm, effects_walk_add, effects_walk_succ, List.append_assoc,
    List.getElem?_append_right (length_effects_walk k m).le, length_effects_walk, Nat.sub_self]
  rfl

/-- As long as every step runs an instruction, the effects say all that happens to the
program counter, the tape and the queues: replaying them from where a machine stands leads
to where the steps have led it. Each jump starts at the program counter, and the step
counter has counted the effects. -/
theorem effects_complete (m : Machine) (n : ℕ) (h : .halted ∉ (m.walk n).effects) :
    (Replica.ofStore m.store).replay (m.walk n).effects = .ofStore (m.walk n).machine.store ∧
    (∀ k source target, (m.walk n).effects[k]? = some (.jumped source target) →
      source = (m.walk k).machine.store.pc) ∧
    (m.walk n).machine.store.steps = m.store.steps + UInt64.ofNat n ∧
    (m.store.steps.toNat + n < UInt64.size →
      (m.walk n).machine.store.steps.toNat = m.store.steps.toNat + n) := by
  have hsteps := steps_walk h
  refine ⟨replay_walk h, ?_, hsteps, ?_⟩
  · intro k source target hjumped
    have hlt : k < n := by
      rw [← length_effects_walk n m]
      exact (List.getElem?_eq_some_iff.mp hjumped).1
    rw [getElem?_effects_walk hlt] at hjumped
    exact source_of_jumped (Option.some.inj hjumped)
  · intro hfits
    have hn : n < UInt64.size := (Nat.le_add_left n _).trans_lt hfits
    rw [hsteps, UInt64.toNat_add, UInt64.toNat_ofNat_of_lt' hn]
    exact Nat.mod_eq_of_lt hfits

/-- The whole run of `+[,.]` on one byte, which comes back from a `]` once. -/
theorem effects_complete_relay :
    let m := (loaded relay).start #[7]
    .halted ∉ (m.walk 8).effects ∧
      (m.walk 8).effects = [.changed 0 1, .passed, .read 7, .wrote 7, .jumped 4 1, .read 0,
        .wrote 0, .passed] ∧
      (Replica.ofStore m.store).replay (m.walk 8).effects = .ofStore (m.walk 8).machine.store ∧
      4 = (m.walk 4).machine.store.pc ∧ (m.walk 8).machine.store.steps.toNat = 8 := by
  intro m
  have hgoes : .halted ∉ (m.walk 8).effects := by decide +kernel
  have heffects : (m.walk 8).effects = [.changed 0 1, .passed, .read 7, .wrote 7, .jumped 4 1,
      .read 0, .wrote 0, .passed] := by
    decide +kernel
  obtain ⟨hreplay, hjumped, -, hsteps⟩ := effects_complete m 8 hgoes
  exact ⟨hgoes, heffects, hreplay, hjumped 4 4 1 (by rw [heffects]; rfl), hsteps (by decide)⟩

end Machine

end TapeMachine
