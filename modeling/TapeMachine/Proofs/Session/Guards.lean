import TapeMachine.Proofs.Session.Kept

/-!
# Loop guards

The place after a bracket is reached past the bracket or from its partner. The two
conditions exclude each other, so that the cell says the same either way: it is zero after
a `]`, and not zero after a `[`.
-/
namespace TapeMachine

/-- The cell under the pointer is what the bracket before the program counter, if there is
one, has let pass. -/
def Store.Guarded (p : Program) (s : Store) : Prop :=
  ∀ i, s.pc = i + 1 →
    (p.get? i = some .loopEnd → s.tape.current = 0) ∧
    (p.get? i = some .loopStart → s.tape.current ≠ 0)

namespace Store

variable {s : Store} {p : Program} {x : Instruction} {i : ℕ}

theorem guarded_of_pc_eq_zero (h : s.pc = 0) : s.Guarded p := by
  intro i hi
  omega

/-- Where control goes on, the guard is that of the bracket that it has left or of the
partner. -/
theorem guarded_of_bracket (hpc : s.pc = i + 1) (hget : p.get? i = some x)
    (hend : x = .loopEnd → s.tape.current = 0) (hstart : x = .loopStart → s.tape.current ≠ 0) :
    s.Guarded p := by
  intro j hj
  obtain rfl : i = j := by omega
  rw [hget]
  exact ⟨fun h => hend (Option.some.inj h), fun h => hstart (Option.some.inj h)⟩

theorem guarded_execute (io : Bool) (hget : p.get? s.pc = some x) :
    (s.execute io p x).2.Guarded p := by
  cases x with
  | moveRight | moveLeft | increment | decrement =>
    exact guarded_of_bracket rfl hget (by simp) (by simp)
  | write | read =>
    cases io <;> exact guarded_of_bracket rfl hget (by simp) (by simp)
  | loopStart =>
    by_cases hzero : s.tape.current = 0
    · obtain ⟨j, hj⟩ := p.exists_partner?_of_isBracket hget rfl
      -- The jump goes on after the partner, whose guard is what made this bracket jump.
      have hstop : p.get? j = some .loopEnd :=
        (p.getElem?_toList_code j).symm.trans (p.pair_of_loopStart hget hj).stop
      apply guarded_of_bracket (i := j) (x := .loopEnd) _ hstop
      all_goals simp [execute, perform, jump, proceed, hzero, hj]
    · apply guarded_of_bracket (i := s.pc) _ hget
      all_goals simp [execute, perform, proceed, hzero]
  | loopEnd =>
    by_cases hzero : s.tape.current = 0
    · apply guarded_of_bracket (i := s.pc) _ hget
      all_goals simp [execute, perform, proceed, hzero]
    · obtain ⟨j, hj⟩ := p.exists_partner?_of_isBracket hget rfl
      have hstart : p.get? j = some .loopStart :=
        (p.getElem?_toList_code j).symm.trans (p.pair_of_loopEnd hget hj).start
      apply guarded_of_bracket (i := j) (x := .loopStart) _ hstart
      all_goals simp [execute, perform, jump, proceed, hzero, hj]

end Store

namespace Machine

variable {m m' : Machine} {input : Array UInt8} {pace : Pace} {limit : UInt64} {e : Ended} {k : ℕ}

/-- The machine is within its program, where the loops have let it pass unless it was
cancelled. -/
structure Guarded (m : Machine) : Prop where
  pc_le : m.store.pc ≤ m.program.size
  guarded : m.cancelled = false → m.store.Guarded m.program

theorem guarded_start (m : Machine) (input : Array UInt8) : (m.start input).Guarded :=
  ⟨Nat.zero_le _, fun _ => Store.guarded_of_pc_eq_zero rfl⟩

theorem Guarded.cancel (h : m.Guarded) : m.cancel.Guarded := by
  rcases m.cancel_cases with hcancel | hcancel
  · rwa [hcancel]
  · rw [hcancel]
    exact ⟨le_rfl, fun hcancelled => absurd hcancelled (by simp [abort])⟩

theorem Guarded.step (h : m.Guarded) : m.step.machine.Guarded := by
  refine ⟨by simpa only [program_step] using pc_step_le h.pc_le, ?_⟩
  cases hran : m.step.ran with
  | none =>
    rcases machine_step_of_halted hran with hstep | hstep
    · rw [hstep]
      exact h.guarded
    · rw [hstep]
      exact fun hcancelled => absurd hcancelled (by simp [abort])
  | some x =>
    intro _
    rw [program_step, (store_step_of_ran hran).2]
    exact Store.guarded_execute m.setup.io (get?_of_ran hran)

theorem kept_guarded : Kept Guarded where
  fresh _ _ := ⟨Nat.zero_le _, fun _ => Store.guarded_of_pc_eq_zero rfl⟩
  install _ _ _ := ⟨Nat.zero_le _, fun _ => Store.guarded_of_pc_eq_zero rfl⟩
  start m input _ := m.guarded_start input
  step _ := Guarded.step
  halt _ h _ := ⟨h.pc_le, h.guarded⟩
  cancel _ := Guarded.cancel
  requestCancel _ h := ⟨h.pc_le, h.guarded⟩
  attach _ _ h := ⟨h.pc_le, h.guarded⟩

/-- A machine that has come to the end of a program without being cancelled has passed the
last bracket of it. -/
theorem Guarded.current_of_end (h : m.Guarded) (hcancelled : m.cancelled = false)
    (hend : m.program.size ≤ m.store.pc) (hlast : m.program.code.back? = some .loopEnd) :
    m.store.tape.current = 0 := by
  have hget : m.program.get? (m.program.size - 1) = some .loopEnd := by
    rwa [Array.back?_eq_getElem?] at hlast
  have hsize : m.program.size - 1 < m.program.size := (Array.getElem?_eq_some_iff.mp hget).1
  have hpc := h.pc_le
  exact (h.guarded hcancelled _ (by omega)).1 hget

theorem end_of_completed_runPaced (hrun : m.runPaced input pace = some e)
    (hcompleted : e.outcome = .completed) :
    e.machine.cancelled = false ∧ e.machine.program.size ≤ e.machine.store.pc := by
  obtain ⟨hended, rfl⟩ := runPaced_eq_some_iff.mp hrun
  refine ⟨?_, Array.getElem?_eq_none_iff.mp (Progress.atRest_of_ended hended).2⟩
  simpa [Progress.finish] using hcompleted

theorem end_of_completed_runWithin (hcompleted : (m.runWithin input limit).outcome = .completed) :
    (m.runWithin input limit).machine.cancelled = false ∧
      (m.runWithin input limit).machine.program.size ≤
        (m.runWithin input limit).machine.store.pc := by
  have hprogram : ((m.start input).walk limit.toNat).machine.program = m.program :=
    program_walk _ _
  rw [runWithin_eq] at hcompleted ⊢
  dsimp only at hcompleted ⊢
  split at hcompleted
  · next hend =>
    rw [if_pos hend]
    exact ⟨by simpa [halt] using hcompleted, by simpa [halt, hprogram] using hend⟩
  · simp at hcompleted

end Machine

namespace Session

variable {setup : Setup} {past : History} {m : Machine}

/-- Wherever control stands after a bracket, in every reached machine and in every machine
of its runs that was not cancelled, the cell under the pointer is zero after a `]` and not
zero after a `[`. So a completed run of a program that ends in `]`, at any pace or within a
limit, leaves a zero under the pointer. -/
theorem guarded_of_reached (h : Reached setup m past) :
    (m.cancelled = false → m.store.Guarded m.program) ∧
    ∀ input,
      (∀ m' k, m.Underway input m' k → m'.cancelled = false → m'.store.Guarded m'.program) ∧
      (m.program.code.back? = some .loopEnd →
        (∀ e, m.run input = some e → e.outcome = .completed →
          e.machine.store.tape.current = 0) ∧
        (∀ pace e, m.runPaced input pace = some e → e.outcome = .completed →
          e.machine.store.tape.current = 0) ∧
        ∀ limit, (m.runWithin input limit).outcome = .completed →
          (m.runWithin input limit).machine.store.tape.current = 0) := by
  refine ⟨(Machine.kept_guarded.of_reached h).guarded, fun input => ?_⟩
  have hunderway : ∀ m' k, m.Underway input m' k → m'.Guarded := fun m' k =>
    Machine.kept_guarded.underway (m.guarded_start input)
  refine ⟨fun m' k hm' => (hunderway m' k hm').guarded, fun hlast => ?_⟩
  have hpaced : ∀ pace e, m.runPaced input pace = some e → e.outcome = .completed →
      e.machine.store.tape.current = 0 := by
    intro pace e hrun hcompleted
    have hm' := Machine.underway_runPaced hrun
    obtain ⟨hcancelled, hend⟩ := Machine.end_of_completed_runPaced hrun hcompleted
    exact (hunderway _ _ hm').current_of_end hcancelled hend (by rwa [hm'.program_eq])
  refine ⟨hpaced .immediate, hpaced, ?_⟩
  intro limit hcompleted
  have hm' := m.underway_runWithin input limit
  obtain ⟨hcancelled, hend⟩ := Machine.end_of_completed_runWithin hcompleted
  exact (hunderway _ _ hm').current_of_end hcancelled hend (by rwa [hm'.program_eq])

theorem guarded_of_reached_clearing :
    ∃ m past, Reached ⟨2, true⟩ m past ∧ m.store.pc = 2 ∧ m.store.tape.current ≠ 0 ∧
      (m.runWithin #[] 9).outcome = .completed ∧
      (m.runWithin #[] 9).machine.store.tape.current = 0 := by
  have hnew : Reached ⟨2, true⟩ (.fresh ⟨2, true⟩ Nat.two_pos) .none := .new rfl
  have hload := hnew.apply (.load "+[-]")
    (r := .quiet (Machine.loaded Machine.clearing) .loaded) (by decide)
  have hsteps := (hload.apply (.start #[]) rfl).apply (.step 2) rfl
  obtain ⟨hguarded, hruns⟩ := guarded_of_reached hsteps
  obtain ⟨-, -, hwithin⟩ := (hruns #[]).2 rfl
  have hcompleted : ((((Machine.loaded Machine.clearing).start #[]).walk 2).machine.runWithin
      #[] 9).outcome = .completed := by
    decide +kernel
  exact ⟨_, _, hsteps, by decide +kernel, (hguarded (by decide +kernel) 1 (by decide +kernel)).2
    (by decide +kernel), hcompleted, hwithin 9 hcompleted⟩

end Session

end TapeMachine
