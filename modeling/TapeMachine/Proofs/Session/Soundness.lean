import TapeMachine.Proofs.Machine.Execution
import TapeMachine.Proofs.Session.History

/-!
# What holds of every reached machine

One invariant, kept by each step and from there by each operation: the setup and
the size of the tape stay, the program counter stays within the program, phases
mean what they say, and output and used input never outnumber the instructions.
Hence no step looks for a cell or a partner that is not there.
-/
namespace TapeMachine

namespace Session

/-- Queues and counters agree with what happened since the last start or load. -/
structure Traffic (io : Bool) (past : History) (s : Store) : Prop where
  steps_eq : s.steps = UInt64.ofNat past.ran
  pending : s.input.toList <+: past.given.toList
  moved_le : s.output.size + (past.given.size - s.input.size) ≤ past.ran
  silent : io = false → s.output = #[] ∧ s.input = past.given

/-- The invariant of reached machines. -/
structure Sound (setup : Setup) (past : History) (m : Machine) : Prop where
  setup_eq : m.setup = setup
  size_tape : m.store.tape.size = setup.tapeSize
  pc_le : m.store.pc ≤ m.program.size
  pc_of_halted : m.phase = .halted → m.store.pc = m.program.size
  halted_of_cancelled : m.cancelled = true → m.phase = .halted
  store_of_idle : m.phase = .idle → m.store = .initial m.store.tape.clear #[]
  traffic : Traffic setup.io past m.store

def History.next (past : History) : History :=
  { past with ran := past.ran + 1 }

variable {setup : Setup} {past : History} {m : Machine} {s : Store} {io : Bool}

theorem traffic_initial (tape : Tape) (input : Array UInt8) (io : Bool) :
    Traffic io ⟨input, 0⟩ (.initial tape input) where
  steps_eq := rfl
  pending := List.prefix_rfl
  moved_le := by simp [Store.initial]
  silent _ := ⟨rfl, rfl⟩

theorem Traffic.execute (h : Traffic io past s) (p : Program) (x : Instruction) :
    Traffic io past.next (s.execute io p x).2 := by
  have hsteps : (s.execute io p x).2.steps = UInt64.ofNat past.next.ran := by
    rw [s.steps_execute, h.steps_eq, History.next, UInt64.ofNat_add]
    rfl
  have hmoved := h.moved_le
  rcases s.queues_execute io p x with ⟨hout, hin⟩ | ⟨rfl, ⟨⟨b, hout⟩, hin⟩ | ⟨hout, hin⟩⟩
  · refine ⟨hsteps, hin ▸ h.pending, ?_, ?_⟩
    · rw [hout, hin]
      exact hmoved.trans (Nat.le_succ _)
    · rw [hout, hin]
      exact h.silent
  · refine ⟨hsteps, hin ▸ h.pending, ?_, by simp⟩
    rw [hout, hin, Array.size_push]
    simp only [History.next]
    omega
  · refine ⟨hsteps, ?_, ?_, by simp⟩
    · rw [hin, Array.toList_pop]
      exact (List.dropLast_prefix _).trans h.pending
    · rw [hout, hin, Array.size_pop]
      simp only [History.next]
      omega

/-! ### Operations that run nothing -/

theorem sound_fresh (size_pos : 0 < setup.tapeSize) :
    Sound setup .none (.fresh setup size_pos) where
  setup_eq := rfl
  size_tape := by simp [Machine.fresh, Store.initial]
  pc_le := Nat.zero_le _
  pc_of_halted := by simp [Machine.fresh]
  halted_of_cancelled := by simp [Machine.fresh]
  store_of_idle _ := by simp [Machine.fresh, Store.initial]
  traffic := traffic_initial _ _ _

theorem Sound.install (h : Sound setup past m) (p : Program) : Sound setup .none (m.install p) where
  setup_eq := h.setup_eq
  size_tape := by simp [Machine.install, Store.initial, h.size_tape]
  pc_le := Nat.zero_le _
  pc_of_halted := by simp [Machine.install]
  halted_of_cancelled := by simp [Machine.install]
  store_of_idle _ := by simp [Machine.install, Store.initial]
  traffic := traffic_initial _ _ _

theorem Sound.start (h : Sound setup past m) (input : Array UInt8) :
    Sound setup ⟨input, 0⟩ (m.start input) where
  setup_eq := h.setup_eq
  size_tape := by simp [Machine.start, Store.initial, h.size_tape]
  pc_le := Nat.zero_le _
  pc_of_halted := by simp [Machine.start]
  halted_of_cancelled := by simp [Machine.start]
  store_of_idle := by simp [Machine.start]
  traffic := traffic_initial _ _ _

theorem Sound.attach (h : Sound setup past m) (listener : Listener) :
    Sound setup past (m.attach listener) :=
  ⟨h.setup_eq, h.size_tape, h.pc_le, h.pc_of_halted, h.halted_of_cancelled, h.store_of_idle,
    h.traffic⟩

theorem Sound.requestCancel (h : Sound setup past m) : Sound setup past m.requestCancel :=
  ⟨h.setup_eq, h.size_tape, h.pc_le, h.pc_of_halted, h.halted_of_cancelled, h.store_of_idle,
    h.traffic⟩

theorem Sound.cancel (h : Sound setup past m) : Sound setup past m.cancel := by
  unfold Machine.cancel
  split
  · exact ⟨h.setup_eq, h.size_tape, le_rfl, fun _ => rfl, fun _ => rfl, by simp [Machine.abort],
      ⟨h.traffic.steps_eq, h.traffic.pending, h.traffic.moved_le, h.traffic.silent⟩⟩
  · exact h

theorem Sound.halt (h : Sound setup past m) (hpc : m.program.size ≤ m.store.pc) :
    Sound setup past m.halt :=
  ⟨h.setup_eq, h.size_tape, h.pc_le, fun _ => h.pc_le.antisymm hpc, fun _ => rfl,
    by simp [Machine.halt], h.traffic⟩

/-! ### Steps and runs -/

theorem Sound.heed (h : Sound setup past m) : Sound setup past m.heed := by
  unfold Machine.heed
  split
  · exact h.cancel
  · exact h

/-- An instruction is executed only before the end of the program, so the machine has
neither halted nor been cancelled. -/
theorem Sound.execute (h : Sound setup past m) {x : Instruction}
    (hget : m.program.get? m.store.pc = some x) :
    Sound setup past.next (m.wake.execute x).machine := by
  have hpc : m.store.pc < m.program.size := (Array.getElem?_eq_some_iff.mp hget).1
  have hhalted : m.phase ≠ .halted := by
    intro hhalted
    have := h.pc_of_halted hhalted
    omega
  have hcancelled : m.cancelled ≠ true := by
    intro hcancelled
    exact hhalted (h.halted_of_cancelled hcancelled)
  have hphase : (m.wake.execute x).machine.phase = .running := Machine.phase_wake hhalted
  have hstore : (m.wake.execute x).machine.store = (m.store.execute setup.io m.program x).2 := by
    simp [Machine.execute, h.setup_eq]
  exact {
    setup_eq := by simp [Machine.execute, h.setup_eq]
    size_tape := by rw [hstore, Store.size_tape_execute, h.size_tape]
    pc_le := by
      rw [hstore]
      simpa [Machine.execute] using Store.pc_execute_le setup.io hget
    pc_of_halted := by simp [hphase]
    halted_of_cancelled := by simp [Machine.execute, hcancelled]
    store_of_idle := by simp [hphase]
    traffic := hstore ▸ h.traffic.execute m.program x }

theorem Sound.step_of_ran (h : Sound setup past m) {x : Instruction} (hran : m.step.ran = some x) :
    Sound setup past.next m.step.machine := by
  cases hget : m.program.get? m.heed.store.pc with
  | none => simp [Machine.step_of_end hget] at hran
  | some y =>
    rw [Machine.step_of_get? hget]
    exact h.heed.execute (by rwa [Machine.program_heed])

theorem Sound.step_of_halted (h : Sound setup past m) (hran : m.step.ran = none) :
    Sound setup past m.step.machine := by
  cases hget : m.program.get? m.heed.store.pc with
  | none =>
    rw [Machine.step_of_end hget]
    apply h.heed.halt
    rw [Machine.program_heed]
    exact Array.getElem?_eq_none_iff.mp hget
  | some y => simp [Machine.step_of_get? hget, Machine.execute] at hran

theorem Sound.walk (h : Sound setup past m) (count : ℕ) :
    Sound setup { past with ran := past.ran + (m.walk count).effects.countP (· ≠ .halted) }
      (m.walk count).machine := by
  induction count generalizing past m with
  | zero => exact h
  | succ count ih =>
    simp only [Machine.walk, List.countP_cons]
    cases hran : m.step.ran with
    | none =>
      have heffect := m.ran_step_eq_none_iff.mp hran
      simpa [heffect] using ih (h.step_of_halted hran)
    | some x =>
      have heffect : m.step.effect ≠ .halted := by
        intro heffect
        simp [m.ran_step_eq_none_iff.mpr heffect] at hran
      have := ih (h.step_of_ran hran)
      simpa [heffect, History.next, Nat.add_assoc, Nat.add_comm 1] using this

theorem Sound.pause {r : Progress} (h : Sound setup past r.machine) (x : Instruction) :
    Sound setup past (r.pause x).machine := by
  unfold Progress.pause
  split
  · dsimp only
    split
    · exact h.requestCancel
    · exact h
  · exact h

theorem Sound.advance {r : Progress} (h : Sound setup past r.machine) (count : ℕ) :
    Sound setup { past with ran := past.ran + stepsUntil Progress.step count r }
      (r.advance count).2.machine := by
  induction count generalizing past r with
  | zero =>
    rw [Progress.advance_zero]
    exact h
  | succ count ih =>
    cases hran : r.machine.step.ran with
    | none =>
      rw [Progress.advance_succ_of_halted count hran, stepsUntil, Progress.step_of_halted hran]
      exact h.step_of_halted hran
    | some x =>
      rw [Progress.advance_succ_of_ran count hran, stepsUntil, Progress.step_of_ran hran]
      have hrest := @ih past.next _ ((h.step_of_ran hran).pause (r := r.take r.machine.step) x)
      simpa [History.next, Nat.add_assoc, Nat.add_comm 1] using hrest

theorem Sound.launch (h : Sound setup past m) (input : Array UInt8) (pace : Pace) (count : ℕ) :
    Sound setup ⟨input, stepsUntil Progress.step count (m.launch input pace)⟩
      ((m.launch input pace).advance count).2.machine := by
  have hadvance := Sound.advance (r := m.launch input pace) (h.start input) count
  rwa [Nat.zero_add] at hadvance

theorem Sound.runPaced (h : Sound setup past m) {input : Array UInt8} {pace : Pace} {e : Ended}
    (hrun : m.runPaced input pace = some e) :
    Sound setup ⟨input, stepsUntil Progress.step UInt64.size (m.launch input pace)⟩ e.machine := by
  obtain ⟨-, rfl⟩ := Machine.runPaced_eq_some_iff.mp hrun
  exact h.launch input pace UInt64.size

theorem Sound.runWithin (h : Sound setup past m) (input : Array UInt8) (limit : UInt64) :
    Sound setup ⟨input, stepsUntil Progress.step limit.toNat (m.launch input .immediate)⟩
      (m.runWithin input limit).machine := by
  have hlaunch := h.launch input .immediate limit.toNat
  simp only [Machine.runWithin]
  split
  · exact hlaunch
  · split
    · next hpc => exact hlaunch.halt hpc
    · exact hlaunch

/-! ### Sessions -/

theorem load_of_accepted {source : String} {p : Program} (m : Machine)
    (hsource : Program.ofText source = .ok p) : m.load source = .ok (m.install p) :=
  congrArg (Except.map m.install) hsource

theorem load_of_refused {source : String} {e : LoadError} (m : Machine)
    (hsource : Program.ofText source = .error e) : m.load source = .error e :=
  congrArg (Except.map m.install) hsource

theorem Sound.apply (h : Sound setup past m) {op : Operation} {r : Response}
    (answer : op.apply m = some r) : Sound setup (past.after m op) r.machine := by
  cases op with
  | load source =>
    cases hcode : Program.ofText source with
    | ok p =>
      have hload := load_of_accepted m hcode
      simp only [Operation.apply, hload] at answer
      obtain rfl := Option.some.inj answer
      simp only [History.after, hload]
      exact h.install p
    | error e =>
      have hload := load_of_refused m hcode
      simp only [Operation.apply, hload] at answer
      obtain rfl := Option.some.inj answer
      simp only [History.after, hload]
      exact h
  | start input =>
    obtain rfl := Option.some.inj answer
    exact h.start input
  | step count =>
    obtain rfl := Option.some.inj answer
    exact h.walk count
  | run input | runPaced input pace =>
    obtain ⟨e, hrun, rfl⟩ := Option.map_eq_some_iff.mp answer
    exact h.runPaced hrun
  | runWithin input limit =>
    obtain rfl := Option.some.inj answer
    exact h.runWithin input limit
  | cancel =>
    obtain rfl := Option.some.inj answer
    exact h.cancel
  | requestCancel =>
    obtain rfl := Option.some.inj answer
    exact h.requestCancel
  | attach listener =>
    obtain rfl := Option.some.inj answer
    exact h.attach listener
  | judge | showProgram | describe =>
    obtain rfl := Option.some.inj answer
    exact h

theorem Reached.sound (h : Reached setup m past) : Sound setup past m := by
  induction h with
  | new h =>
    obtain ⟨size_pos, rfl⟩ := Machine.eq_fresh_of_ofSetup h
    exact sound_fresh size_pos
  | apply _ op answer ih => exact ih.apply answer

theorem Sound.blank_of_idle (h : Sound setup past m) (hidle : m.phase = .idle) :
    m.store.pc = 0 ∧ m.store.tape.pointer = 0 ∧
      m.store.tape.cells = Array.replicate setup.tapeSize 0 ∧
      m.store.output = #[] ∧ m.store.input = #[] ∧ m.store.steps = 0 := by
  have hstore := h.store_of_idle hidle
  have htape : m.store.tape = m.store.tape.clear := congrArg Store.tape hstore
  refine ⟨congrArg Store.pc hstore, ?_, ?_, congrArg Store.output hstore,
    congrArg Store.input hstore, congrArg Store.steps hstore⟩
  · rw [htape]
    rfl
  · rw [htape, ← h.size_tape]
    exact Tape.cells_blank _ _

theorem Traffic.moved_le_steps (h : Traffic io past s) (hran : past.ran < UInt64.size) :
    s.output.size + (past.given.size - s.input.size) ≤ s.steps.toNat := by
  rw [h.steps_eq, UInt64.toNat_ofNat_of_lt' hran]
  exact h.moved_le

/-- Whatever was done with a machine, it keeps its setup and the size of its tape, its
pointer and program counter stay in range, its phase and marks tell where it stands, and
it has not moved more bytes than it has run instructions; without input and output it
has moved none. So a step finds its cell on the tape and every bracket its partner. -/
theorem invariant_of_reached (h : Reached setup m past) :
    (m.setup = setup ∧ m.store.tape.cells.size = setup.tapeSize ∧
      m.store.tape.pointer < setup.tapeSize ∧ m.store.pc ≤ m.program.size) ∧
    (m.phase = .halted → m.store.pc = m.program.size) ∧
    (m.cancelled = true → m.phase = .halted) ∧
    (m.phase = .idle → m.store.pc = 0 ∧ m.store.tape.pointer = 0 ∧
      m.store.tape.cells = Array.replicate setup.tapeSize 0 ∧
      m.store.output = #[] ∧ m.store.input = #[] ∧ m.store.steps = 0) ∧
    (m.store.input.toList <+: past.given.toList ∧ m.store.steps = UInt64.ofNat past.ran ∧
      (past.ran < UInt64.size →
        m.store.output.size + (past.given.size - m.store.input.size) ≤ m.store.steps.toNat)) ∧
    (setup.io = false → m.store.output = #[] ∧ m.store.input = past.given) ∧
    m.store.tape.cells[m.store.tape.pointer]? = some m.store.tape.current ∧
    ∀ x, m.step.ran = some x → m.program.get? m.store.pc = some x ∧
      (x.isBracket = true →
        ∃ target < m.program.size, m.program.partner? m.store.pc = some target) := by
  have hsound := h.sound
  have htraffic := hsound.traffic
  have hpointer : m.store.tape.pointer < setup.tapeSize := by
    rw [← hsound.size_tape]
    exact m.store.tape.pointer_lt
  refine ⟨⟨hsound.setup_eq, hsound.size_tape, hpointer, hsound.pc_le⟩, hsound.pc_of_halted,
    hsound.halted_of_cancelled, hsound.blank_of_idle,
    ⟨htraffic.pending, htraffic.steps_eq, htraffic.moved_le_steps⟩, htraffic.silent,
    m.store.tape.getElem?_cells_pointer, ?_⟩
  intro x hran
  have hget := Machine.get?_of_ran hran
  refine ⟨hget, ?_⟩
  intro hx
  obtain ⟨target, htarget⟩ := m.program.exists_partner?_of_isBracket hget hx
  exact ⟨target, (m.program.partner?_lt_size htarget).2, htarget⟩

/-- The program `,[.-]`, which counts down from what it reads. -/
def countdown : Program where
  code := #[.read, .loopStart, .write, .decrement, .loopEnd]
  partners := #[none, some 4, none, none, some 1]
  table_eq := rfl

theorem invariant_of_reached_countdown :
    ∃ m past, Reached ⟨2, true⟩ m past ∧ past.given = #[3] ∧ past.ran = 4 ∧
      m.cancelled = true ∧ m.store.output = #[3] ∧ m.phase = .halted ∧ m.store.pc = m.program.size ∧
      m.store.output.size + (past.given.size - m.store.input.size) ≤ m.store.steps.toNat := by
  have hnew : Reached ⟨2, true⟩ (.fresh ⟨2, true⟩ (by decide)) .none := .new rfl
  have hload := hnew.apply (.load ",[.-]")
    (r := .quiet ((Machine.fresh ⟨2, true⟩ (by decide)).install countdown) .loaded) (by decide)
  have hstep := (hload.apply (.start #[3]) rfl).apply (.step 4) rfl
  have hcancel := (hstep.apply .requestCancel rfl).apply (.step 1) rfl
  obtain ⟨-, hhalted, hcancelled, -, ⟨-, -, hmoved⟩, -⟩ := invariant_of_reached hcancel
  have hphase := hcancelled (by decide)
  exact ⟨_, _, hcancel, by decide, by decide, by decide, by decide, hphase, hhalted hphase,
    hmoved (by decide)⟩

end Session

end TapeMachine
