import TapeMachine.Proofs.Machine.Undisturbed
import TapeMachine.Proofs.Structure.Simulation

/-!
# A run computes what its program's tree means

The code of a program is the code of exactly one tree. An uncancelled run ends if
and only if the tree comes to its end, and it leaves the tree's memory behind.
-/
namespace TapeMachine

open Program

variable {m : Machine} {T : Tree} {n : ℕ} {t : Memory}

theorem Program.existsUnique_tree {source : String} {p : Program} (h : ofText source = .ok p) :
    ∃! T : Tree, T.flatten = instructions source := by
  have hbalanced := p.balanced_code
  rw [toList_code_of_ofCode h] at hbalanced
  exact Tree.existsUnique_of_balanced hbalanced

theorem Machine.run_eq_of_evaluates {q : Array UInt8} (hT : T.flatten = m.program.code.toList)
    (hcalm : (m.start q).Undisturbed)
    (heval : T.Evaluates m.setup.io (.initial m.store.tape.cells.toList q.toList) n t)
    (hn : n < UInt64.size) :
    ∃ e, m.run q = some e ∧ e.outcome = .completed ∧ e.machine.phase = .halted ∧
      e.machine.store.memory = t ∧ e.machine.store.steps.toNat = n := by
  obtain ⟨s', hend, hmemory, -, hsteps⟩ :=
    Tree.end_of_evaluates (s := (m.start q).store) hT rfl heval hn
  obtain ⟨hended, hstore, hcancelled, hphase⟩ :=
    @Progress.advance_undisturbed (m.launch q .immediate) hcalm rfl rfl UInt64.size
  have hstart : (m.launch q .immediate).machine = m.start q := rfl
  rw [hstart, setup_start, program_start, hend] at hended hstore
  refine ⟨_, runPaced_eq_some_iff.mpr ⟨hended, rfl⟩, ?_, ?_, ?_, ?_⟩
  · simp only [Progress.finish, hcancelled]
    rfl
  · exact hphase hended
  · exact (congrArg Store.memory hstore).trans hmemory
  · have hzero : (m.start q).store.steps = 0 := rfl
    change ((m.launch q .immediate).advance UInt64.size).2.machine.store.steps.toNat = n
    rw [hstore, hsteps, hzero, UInt64.zero_add, UInt64.toNat_ofNat_of_lt' hn]

theorem Machine.exists_run_iff {q : Array UInt8} (hT : T.flatten = m.program.code.toList)
    (hcalm : (m.start q).Undisturbed) :
    (∃ e, m.run q = some e) ↔ ∃ n t, n < UInt64.size ∧
      T.Evaluates m.setup.io (.initial m.store.tape.cells.toList q.toList) n t := by
  constructor
  · rintro ⟨e, he⟩
    obtain ⟨hended, -⟩ :=
      @Progress.advance_undisturbed (m.launch q .immediate) hcalm rfl rfl UInt64.size
    obtain ⟨htrue, -⟩ := runPaced_eq_some_iff.mp he
    exact (Tree.end_iff_evaluates hT rfl).mp (hended.symm.trans htrue)
  · rintro ⟨n, t, hn, heval⟩
    obtain ⟨e, he, -⟩ := run_eq_of_evaluates hT hcalm heval hn
    exact ⟨e, he⟩

/-- Stepping by hand comes upon the end of the program if and only if the tree ends. -/
theorem Machine.exists_halted_iff {q : Array UInt8} (hT : T.flatten = m.program.code.toList)
    (hcalm : (m.start q).Undisturbed) :
    (∃ k, .halted ∈ ((m.start q).walk k).effects) ↔ ∃ n t,
      T.Evaluates m.setup.io (.initial m.store.tape.cells.toList q.toList) n t := by
  constructor
  · rintro ⟨k, hk⟩
    have hend := (hcalm.walk_eq rfl k).2.mp hk
    obtain ⟨n, t, -, heval⟩ := (Tree.end_iff_evaluates hT rfl).mp hend
    exact ⟨n, t, heval⟩
  · rintro ⟨n, t, heval⟩
    refine ⟨n + 1, (hcalm.walk_eq rfl (n + 1)).2.mpr ?_⟩
    exact (Tree.end_iff_evaluates hT rfl).mpr ⟨n, t, Nat.lt_succ_self n, heval⟩

/-- The code of a program text is that of one tree. Whatever the machine held before,
a run that nobody cancels ends if and only if this tree ends from the machine's cells
and the given input, within the steps that can be counted. It then completes with the
tree's memory and as many steps as the tree counts. Without the bound on the count the
same holds for stepping by hand. -/
theorem run_iff_evaluates {source : String} {p : Program} (h : ofText source = .ok p) :
    (∃! T : Tree, T.flatten = instructions source) ∧
    ∀ T : Tree, T.flatten = instructions source → ∀ (m : Machine) (q : Array UInt8),
      m.program = p → (m.start q).Undisturbed →
      ((∃ k, .halted ∈ ((m.start q).walk k).effects) ↔ ∃ n t,
        T.Evaluates m.setup.io (.initial m.store.tape.cells.toList q.toList) n t) ∧
      ((∃ e, m.run q = some e) ↔ ∃ n t, n < UInt64.size ∧
        T.Evaluates m.setup.io (.initial m.store.tape.cells.toList q.toList) n t) ∧
      ∀ n t, T.Evaluates m.setup.io (.initial m.store.tape.cells.toList q.toList) n t →
        n < UInt64.size →
        ∃ e, m.run q = some e ∧ e.outcome = .completed ∧ e.machine.phase = .halted ∧
          e.machine.store.memory = t ∧ e.machine.store.steps.toNat = n := by
  refine ⟨existsUnique_tree h, ?_⟩
  rintro T hT m q rfl hcalm
  have hflat : T.flatten = m.program.code.toList := hT.trans (toList_code_of_ofCode h).symm
  exact ⟨Machine.exists_halted_iff hflat hcalm, Machine.exists_run_iff hflat hcalm,
    fun n t heval hn => Machine.run_eq_of_evaluates hflat hcalm heval hn⟩

/-- The tree of `,[.,]`, which writes what it reads until a zero. -/
def copyTree : Tree :=
  .single .read (.loop (.single .write (.single .read .done)) .done)

def copyProgram : Program where
  code := #[.read, .loopStart, .write, .read, .loopEnd]
  partners := #[none, some 4, none, none, some 1]
  table_eq := rfl

theorem evaluates_copyTree :
    copyTree.Evaluates true (.initial [0, 0] [66, 65]) 8 ⟨[0, 0], 0, [], [65, 66]⟩ := by
  have hbody : ∀ {a b : UInt8} {q o : List UInt8},
      (Tree.single .write (.single .read .done)).Evaluates true ⟨[a, b], 0, q, o⟩ 2
        ⟨[q.getLast?.getD 0, b], 0, q.dropLast, o ++ [a]⟩ :=
    ⟨1, ⟨0, ⟨rfl, rfl⟩, rfl⟩, rfl⟩
  have hpasses : Passes ((Tree.single .write (.single .read .done)).Evaluates true)
      ⟨[65, 0], 0, [66], []⟩ 6 ⟨[0, 0], 0, [], [65, 66]⟩ :=
    .again (by decide) hbody (.again (by decide) hbody (.stop rfl))
  exact ⟨7, ⟨6, _, 0, hpasses, ⟨rfl, rfl⟩, rfl⟩, rfl⟩

theorem run_iff_evaluates_copies :
    ofText ",[.,] copies" = .ok copyProgram ∧
      ∃ e, ((Machine.fresh ⟨2, true⟩ (by decide)).install copyProgram).run #[66, 65] = some e ∧
        e.outcome = .completed ∧ e.machine.phase = .halted ∧
        e.machine.store.memory = ⟨[0, 0], 0, [], [65, 66]⟩ ∧ e.machine.store.steps.toNat = 8 := by
  have hcopies : ofText ",[.,] copies" = .ok copyProgram := by decide
  have hcalm : (((Machine.fresh ⟨2, true⟩ (by decide)).install copyProgram).start
      #[66, 65]).Undisturbed :=
    Machine.undisturbed_of_alarms rfl (by decide) rfl
  obtain ⟨-, -, hrun⟩ := (run_iff_evaluates hcopies).2 copyTree (by decide) _ _ rfl hcalm
  exact ⟨hcopies, hrun 8 _ evaluates_copyTree (by decide)⟩

end TapeMachine
