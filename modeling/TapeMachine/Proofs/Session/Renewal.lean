import TapeMachine.Proofs.Session.Soundness

/-!
# Beginning anew

Loading a program makes a machine the one that it would be if nothing had ever been
done with it; only its listener stays. A run finds the program, the listener and the
cells, and nothing else of what earlier runs have left behind. So machines with
different pasts have the same future.
-/
namespace TapeMachine

variable {m m' : Machine} {input : Array UInt8}

namespace Machine

/-- The machines are the same to a run that begins. -/
structure Akin (m m' : Machine) : Prop where
  setup_eq : m.setup = m'.setup
  program_eq : m.program = m'.program
  cells_eq : m.store.tape.cells = m'.store.tape.cells
  listener_eq : m.listener = m'.listener

/-- Whatever of a machine is not the same to a run, its start puts in order. -/
theorem Akin.start_eq (h : m.Akin m') (input : Array UInt8) : m.start input = m'.start input := by
  obtain ⟨setup, program, store, phase, cancelled, cancelRequested, listener⟩ := m
  obtain ⟨rfl, rfl, hcells, rfl⟩ := h
  have htape : store.tape.rewind = m'.store.tape.rewind := Tape.ext hcells rfl
  simp only [start, htape]

theorem Akin.launch_eq (h : m.Akin m') (input : Array UInt8) (pace : Pace) :
    m.launch input pace = m'.launch input pace := by
  rw [launch, launch, h.start_eq]

theorem Akin.runPaced_eq (h : m.Akin m') (input : Array UInt8) (pace : Pace) :
    m.runPaced input pace = m'.runPaced input pace := by
  rw [runPaced, runPaced, h.launch_eq]

theorem Akin.runWithin_eq (h : m.Akin m') (input : Array UInt8) (limit : UInt64) :
    m.runWithin input limit = m'.runWithin input limit := by
  simp only [runWithin, h.launch_eq]

end Machine

namespace Session

variable {setup : Setup} {past past' : History} {source : String} {p : Program}

theorem Sound.tapeSize_pos (h : Sound setup past m) : 0 < setup.tapeSize := by
  rw [← h.size_tape]
  exact m.store.tape.size_pos

/-- A machine that has loaded a program is a new one that has loaded it, up to the
listener. -/
theorem Sound.install_eq (h : Sound setup past m) (p : Program) :
    m.install p = ((Machine.fresh setup h.tapeSize_pos).install p).attach m.listener := by
  have htape : m.store.tape.clear = Tape.blank setup.tapeSize h.tapeSize_pos := by
    apply Tape.ext
    · simp [Tape.clear, h.size_tape]
    · rfl
  obtain ⟨setup', program, store, phase, cancelled, cancelRequested, listener⟩ := m
  obtain rfl : setup' = setup := h.setup_eq
  simp only [Machine.install, Machine.attach, Machine.fresh, Store.initial, Tape.clear_blank]
  simp only [htape]

/-- Two reached machines of one setup with the same listener, counts of its alarms
included, have the same future once both have loaded the same program, whatever was done
with them before. If they hold the same program and the same cells, a start is enough,
and so is any kind of run: it has the same end, and up to there the same course. -/
theorem forgets_past (h : Reached setup m past) (h' : Reached setup m' past')
    (hlistener : m.listener = m'.listener) :
    (∀ source p, Program.ofText source = .ok p → ∀ ops,
      m.load source = .ok (m.install p) ∧ m'.load source = .ok (m.install p) ∧
      applyAll m (.load source :: ops) = applyAll m' (.load source :: ops)) ∧
    (m.program = m'.program → m.store.tape.cells = m'.store.tape.cells → ∀ input,
      m.start input = m'.start input ∧
      m.run input = m'.run input ∧
      (∀ limit, m.runWithin input limit = m'.runWithin input limit) ∧
      ∀ pace, m.runPaced input pace = m'.runPaced input pace ∧
        ∀ k, (m.launch input pace).advance k = (m'.launch input pace).advance k) := by
  constructor
  · intro source p hsource ops
    have hload := load_of_accepted m hsource
    have hload' := load_of_accepted m' hsource
    have hinstall : m.install p = m'.install p := by
      rw [h.sound.install_eq, h'.sound.install_eq, hlistener]
    refine ⟨hload, hload'.trans (congrArg _ hinstall.symm), ?_⟩
    simp only [applyAll, Operation.apply, hload, hload', hinstall]
  · intro hprogram hcells input
    have hakin : m.Akin m' :=
      ⟨h.sound.setup_eq.trans h'.sound.setup_eq.symm, hprogram, hcells, hlistener⟩
    refine ⟨hakin.start_eq input, hakin.runPaced_eq input .immediate, hakin.runWithin_eq input, ?_⟩
    intro pace
    refine ⟨hakin.runPaced_eq input pace, ?_⟩
    intro k
    rw [hakin.launch_eq]

/-- The program `>,.`, which passes one byte on. -/
def passing : Program where
  code := #[.moveRight, .read, .write]
  partners := #[none, none, none]
  table_eq := rfl

/-- A machine that has just loaded a program, and one that has been cancelled in the middle
of a run of it. -/
theorem forgets_past_passing :
    ∃ m past m' past', Reached ⟨2, true⟩ m past ∧ Reached ⟨2, true⟩ m' past' ∧
      m.phase = .idle ∧ m'.phase = .halted ∧ m'.cancelled = true ∧ m'.cancelRequested = true ∧
      m'.store.tape.pointer = 1 ∧ m'.store.input = #[7] ∧ m'.store.steps = 1 ∧
      m.run #[5] = m'.run #[5] ∧ m.runWithin #[5] 2 = m'.runWithin #[5] 2 ∧
      m.runPaced #[5] ⟨3, some 2⟩ = m'.runPaced #[5] ⟨3, some 2⟩ ∧
      applyAll m [.load ">,.", .step 2, .requestCancel, .step 1] =
        applyAll m' [.load ">,.", .step 2, .requestCancel, .step 1] := by
  have hnew : Reached ⟨2, true⟩ (.fresh ⟨2, true⟩ Nat.two_pos) .none := .new rfl
  have hload := hnew.apply (.load ">,.")
    (r := .quiet ((Machine.fresh ⟨2, true⟩ Nat.two_pos).install passing) .loaded) (by decide)
  have halarmed := hload.apply (.attach (.ofChannels [.moves] [⟨.moves, 1⟩])) rfl
  have hcancelled := (halarmed.apply (.start #[7]) rfl).apply (.step 2) rfl
  have hready := hload.apply (.attach (.ofChannels [.moves] [⟨.moves, 2⟩])) rfl
  have hready' := hcancelled.apply (.attach (.ofChannels [.moves] [⟨.moves, 2⟩])) rfl
  obtain ⟨hloads, hruns⟩ := forgets_past hready hready' rfl
  obtain ⟨-, hrun, hwithin, hpaced⟩ := hruns rfl (by decide +kernel) #[5]
  obtain ⟨-, -, hall⟩ := hloads ">,." passing (by decide) [.step 2, .requestCancel, .step 1]
  exact ⟨_, _, _, _, hready, hready', rfl, by decide +kernel, by decide +kernel,
    by decide +kernel, by decide +kernel, by decide +kernel, by decide +kernel, hrun, hwithin 2,
    (hpaced _).1, hall⟩

end Session

end TapeMachine
