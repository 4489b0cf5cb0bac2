import TapeMachine.Proofs.CommandLine.RunCommand
import TapeMachine.Proofs.Golf.Verdict
import TapeMachine.Proofs.Session.Stopped

/-!
# What the golf command declares solved

A challenge is about the tape that a finished program leaves. The command judges the tape
as it stands when the run is over, and a run is also over when its steps are used up. So it
is right about every program that comes to its end in time, and wrong about one that does
not exactly if the tape meets the targets at that moment.
-/
namespace TapeMachine.CommandLine

variable {w : Surroundings} {o : GolfOptions} {p : Program} {text : String} {n k : ℕ}

/-! ### The run of the command -/

def GolfOptions.loaded (o : GolfOptions) (size_pos : 0 < o.tapeSize) (p : Program) : Machine :=
  (Machine.fresh o.setup size_pos).install p

/-- The program executes `n` instructions and then comes to its end. -/
def GolfOptions.EndsAfter (o : GolfOptions) (size_pos : 0 < o.tapeSize) (p : Program) (n : ℕ) :
    Prop :=
  ((o.loaded size_pos p).start #[]).HaltsAfter n

instance (o : GolfOptions) (size_pos : 0 < o.tapeSize) (p : Program) (n : ℕ) :
    Decidable (o.EndsAfter size_pos p n) :=
  inferInstanceAs (Decidable (Machine.HaltsAfter _ n))

def GolfOptions.tapeAfter (o : GolfOptions) (size_pos : 0 < o.tapeSize) (p : Program)
    (count : ℕ) : Tape :=
  (((o.loaded size_pos p).start #[]).walk count).machine.store.tape

/-- The program comes to its end within the limit. -/
def GolfOptions.Finishes (o : GolfOptions) (size_pos : 0 < o.tapeSize) (p : Program) : Prop :=
  ∃ n ≤ o.maxSteps.toNat, o.EndsAfter size_pos p n

/-- The first line of the output is the verdict `solved`. -/
def Exit.DeclaresSolved (e : Exit) : Prop :=
  Text.bytes "solved\n" <+: e.output

instance (e : Exit) : Decidable e.DeclaresSolved :=
  inferInstanceAs (Decidable (_ <+: _))

/-- The command declares solved just what comes to its end within the limit and then leaves
a tape that meets the targets. -/
def GolfOptions.JudgesFinished (o : GolfOptions) (size_pos : 0 < o.tapeSize) (p : Program)
    (w : Surroundings) : Prop :=
  ∃ exit, (Command.golf o).execute w = some exit ∧
    (exit.DeclaresSolved ↔ ∃ n ≤ o.maxSteps.toNat, o.EndsAfter size_pos p n ∧
      (o.tapeAfter size_pos p n).Meets o.targets)

variable (size_pos : 0 < o.tapeSize)

theorem execute_golf (hsource : readSource w o.source = .ok text)
    (hprogram : Program.ofText text = .ok p) :
    (Command.golf o).execute w = some (o.perform w (o.loaded size_pos p)) := by
  have hprepare : prepare w o.source o.setup = .ok (o.loaded size_pos p) :=
    prepare_of_accepted hsource hprogram size_pos
  rw [Command.execute, hprepare]

theorem undisturbed_golf : ((o.loaded size_pos p).start #[]).Undisturbed :=
  Machine.undisturbed_of_alarms rfl (by simp [Machine.start]) rfl

theorem tapeAfter_of_le (hn : o.EndsAfter size_pos p n) (hle : n ≤ k) :
    o.tapeAfter size_pos p k = o.tapeAfter size_pos p n := by
  rcases hle.eq_or_lt with rfl | hlt
  · rfl
  · obtain ⟨hlast, -⟩ := (undisturbed_golf size_pos).machine_walk_of_haltsAfter hn
    rw [GolfOptions.tapeAfter, hn.machine_walk hlt, hlast]
    rfl

/-- The tape that is judged is the one to which as many steps as the limit says lead. -/
theorem tape_runWithin_golf :
    ((o.loaded size_pos p).runWithin #[] o.maxSteps).machine.store.tape =
      o.tapeAfter size_pos p o.maxSteps.toNat := by
  rw [Machine.store_runWithin, (Machine.advance_launch_immediate _ _ _).1]
  rfl

/-! ### The verdict line -/

theorem declaresSolved_verdictText (v : Verdict) (m : Machine) (diagnostics : String) :
    (Exit.success (Text.bytes (verdictText v m)) diagnostics).DeclaresSolved ↔ v.solved = true := by
  cases hsolved : v.solved with
  | true =>
    have htext : verdictText v m = "solved\n" ++ ("Your program is " ++ toString v.programSize ++
        " instructions long. Can you make it shorter?\n") := by
      rw [verdictText, hsolved]
      simp [← String.append_assoc]
    rw [htext, Text.bytes_append]
    exact ⟨fun _ => rfl, fun _ => List.prefix_append _ _⟩
  | false =>
    have htext : ∃ rest, verdictText v m = "not solved, cells differ at " ++ rest := by
      rw [verdictText, hsolved]
      exact ⟨_, by simp [String.append_assoc]; rfl⟩
    obtain ⟨rest, hrest⟩ := htext
    rw [hrest, Text.bytes_append]
    have hs : (Text.bytes "solved\n").head? = some 115 := by decide +kernel
    have hn : (Text.bytes "not solved, cells differ at ").head? = some 110 := by decide +kernel
    constructor
    · rintro ⟨tail, htail⟩
      have hhead := congrArg List.head? htail
      change (_ ++ tail).head? = (_ ++ Text.bytes rest).head? at hhead
      rw [List.head?_append, List.head?_append, hs, hn] at hhead
      cases hhead
    · intro h
      cases h

/-! ### The exit of the command -/

theorem perform_golf (hw : w.outputFull = false) (m : Machine) :
    o.perform w m =
      let e := m.runWithin #[] o.maxSteps
      .success (Text.bytes (verdictText (.ofMachine e.machine o.targets) e.machine))
        (if e.outcome = .outOfSteps then
          "stopped at step limit (" ++ toString e.machine.store.steps.toNat ++ " steps)\n"
        else "") := by
  simp only [GolfOptions.perform, print, hw, Bool.false_eq_true, false_and, if_false]

theorem declaresSolved_perform_iff (hw : w.outputFull = false) :
    (o.perform w (o.loaded size_pos p)).DeclaresSolved ↔
      (o.tapeAfter size_pos p o.maxSteps.toNat).Meets o.targets := by
  rw [perform_golf hw, declaresSolved_verdictText, Verdict.solved_ofMachine_iff,
    tape_runWithin_golf]

theorem diagnostics_perform (hw : w.outputFull = false) :
    (o.Finishes size_pos p → (o.perform w (o.loaded size_pos p)).diagnostics = "") ∧
    (¬ o.Finishes size_pos p → (o.perform w (o.loaded size_pos p)).diagnostics =
      "stopped at step limit (" ++ toString o.maxSteps.toNat ++ " steps)\n") := by
  rw [perform_golf hw]
  constructor
  · rintro ⟨n, hle, hn⟩
    obtain ⟨houtcome, -⟩ := Machine.runWithin_of_le (undisturbed_golf size_pos) hn hle
    simp [Exit.success, houtcome]
  · intro hstopped
    have hlater : ∀ n, o.EndsAfter size_pos p n → o.maxSteps.toNat < n := by
      intro n hn
      by_contra hle
      exact hstopped ⟨n, Nat.le_of_not_lt hle, hn⟩
    obtain ⟨houtcome, hmachine, -, hsteps, -⟩ := Machine.runWithin_of_lt hlater
    simp [Exit.success, houtcome, hmachine, hsteps]

/-- The tape that is judged is that of a finished program, unless the program was stopped. -/
theorem judgesFinished_iff (hw : w.outputFull = false)
    (hsource : readSource w o.source = .ok text) (hprogram : Program.ofText text = .ok p) :
    o.JudgesFinished size_pos p w ↔
      ¬ (¬ o.Finishes size_pos p ∧ (o.tapeAfter size_pos p o.maxSteps.toNat).Meets o.targets) := by
  have hexit := execute_golf size_pos hsource hprogram
  have hdeclares := declaresSolved_perform_iff (o := o) (p := p) size_pos hw
  constructor
  · rintro ⟨exit, hexit', hjudges⟩ ⟨hstopped, hmeets⟩
    obtain rfl := Option.some.inj (hexit.symm.trans hexit')
    obtain ⟨n, hle, hn, -⟩ := hjudges.mp (hdeclares.mpr hmeets)
    exact hstopped ⟨n, hle, hn⟩
  · intro hright
    refine ⟨_, hexit, hdeclares.trans ?_⟩
    constructor
    · intro hmeets
      obtain ⟨n, hle, hn⟩ := not_not.mp fun hstopped => hright ⟨hstopped, hmeets⟩
      exact ⟨n, hle, hn, tapeAfter_of_le size_pos hn hle ▸ hmeets⟩
    · rintro ⟨n, hle, hn, hmeets⟩
      exact (tapeAfter_of_le size_pos hn hle).symm ▸ hmeets

/-- Golf is about the tape of a finished program. The command declares solved what has the
targets on its tape after as many steps as the limit says, or at its end if this comes
first. So it is right about every program that finishes within the limit. It is wrong
exactly about one that is stopped on a tape that meets the targets: it tells of the limit,
and declares the program solved all the same. -/
theorem judges_finished_iff (hw : w.outputFull = false)
    (hsource : readSource w o.source = .ok text) (hprogram : Program.ofText text = .ok p) :
    (∃ exit, (Command.golf o).execute w = some exit ∧ exit.code = 0 ∧
      (exit.DeclaresSolved ↔ (o.tapeAfter size_pos p o.maxSteps.toNat).Meets o.targets) ∧
      (o.Finishes size_pos p → exit.diagnostics = "") ∧
      (¬ o.Finishes size_pos p → exit.diagnostics =
        "stopped at step limit (" ++ toString o.maxSteps.toNat ++ " steps)\n")) ∧
    (∀ n ≤ o.maxSteps.toNat, o.EndsAfter size_pos p n →
      o.tapeAfter size_pos p o.maxSteps.toNat = o.tapeAfter size_pos p n) ∧
    (o.JudgesFinished size_pos p w ↔
      ¬ (¬ o.Finishes size_pos p ∧
        (o.tapeAfter size_pos p o.maxSteps.toNat).Meets o.targets)) := by
  refine ⟨⟨_, execute_golf size_pos hsource hprogram, ?_, declaresSolved_perform_iff size_pos hw,
    diagnostics_perform size_pos hw⟩, ?_, judgesFinished_iff size_pos hw hsource hprogram⟩
  · rw [perform_golf hw]
    rfl
  · intro n hle hn
    exact tapeAfter_of_le size_pos hn hle

def oneCell (code : String) (target : UInt8) (limit : UInt64) : GolfOptions where
  source := .inline code
  targets := [target]
  tapeSize := 1
  maxSteps := limit

theorem oneCell_pos {code : String} {target : UInt8} {limit : UInt64} :
    0 < (oneCell code target limit).tapeSize :=
  Nat.one_pos

/-- `+[-]` clears the cell with the last step that it is given. Stopped after the first one,
it has just set the cell. -/
theorem judges_finished_iff_clearing :
    Program.ofText "+[-]" = .ok Machine.clearing ∧
      (oneCell "+[-]" 0 4).EndsAfter oneCell_pos Machine.clearing 4 ∧
      (oneCell "+[-]" 0 4).JudgesFinished oneCell_pos Machine.clearing (.ofFiles [] [] false) ∧
      (∃ exit, (Command.golf (oneCell "+[-]" 0 4)).execute (.ofFiles [] [] false) = some exit ∧
        exit.DeclaresSolved ∧ exit.diagnostics = "") ∧
      ¬ (oneCell "+[-]" 1 1).JudgesFinished oneCell_pos Machine.clearing
        (.ofFiles [] [] false) := by
  have hprogram : Program.ofText "+[-]" = .ok Machine.clearing := by decide +kernel
  have hends : (oneCell "+[-]" 0 4).EndsAfter oneCell_pos Machine.clearing 4 := by decide +kernel
  obtain ⟨⟨exit, hexit, -, hdeclares, hfinished, -⟩, -, hright⟩ :=
    judges_finished_iff (w := .ofFiles [] [] false) (o := oneCell "+[-]" 0 4) oneCell_pos rfl rfl
      hprogram
  obtain ⟨-, -, hwrong⟩ :=
    judges_finished_iff (w := .ofFiles [] [] false) (o := oneCell "+[-]" 1 1) oneCell_pos rfl rfl
      hprogram
  have hfinishes : (oneCell "+[-]" 0 4).Finishes oneCell_pos Machine.clearing := ⟨4, le_rfl, hends⟩
  have hstopped : ¬ (oneCell "+[-]" 1 1).Finishes oneCell_pos Machine.clearing := by
    unfold GolfOptions.Finishes
    decide +kernel
  refine ⟨hprogram, hends, hright.mpr fun h => h.1 hfinishes,
    ⟨exit, hexit, hdeclares.mpr (by decide +kernel), hfinished hfinishes⟩, ?_⟩
  intro hjudges
  exact hwrong.mp hjudges ⟨hstopped, by decide +kernel⟩

/-- `Session.forever` sets a cell, and then its loop does nothing but go on. -/
theorem step_forever {s : Store} (hpc : s.pc = 2) (hcell : s.tape.current ≠ 0) :
    s.step false Session.forever = (false, { s with pc := 2, steps := s.steps + 1 }) := by
  have hget : Session.forever.get? s.pc = some .loopEnd := by
    rw [hpc]
    rfl
  have hpartner : Session.forever.partner? s.pc = some 1 := by
    rw [hpc]
    rfl
  rw [Store.step_of_get? hget, Store.execute, hpartner]
  simp [Store.perform, hcell, Store.jump, Store.proceed]

theorem repeatUntil_forever {s : Store} (hpc : s.pc = 2) (hcell : s.tape.current ≠ 0) (k : ℕ) :
    (repeatUntil (Store.step false Session.forever) k s).1 = false := by
  induction k generalizing s with
  | zero => rfl
  | succ k ih =>
    rw [repeatUntil_succ_of_not_end k (step_forever hpc hcell)]
    exact ih rfl hcell

theorem not_endsAfter_forever (n : ℕ) :
    ¬ (oneCell "+[]" 1 5).EndsAfter oneCell_pos Session.forever n := by
  intro hn
  have henter : ∃ s, repeatUntil (Store.step false Session.forever) 2
      (((oneCell "+[]" 1 5).loaded oneCell_pos Session.forever).start #[]).store = (false, s) ∧
      s.pc = 2 ∧ s.tape.current ≠ 0 :=
    ⟨_, rfl, by decide +kernel, by decide +kernel⟩
  obtain ⟨s, henter, hpc, hcell⟩ := henter
  have hcalm : (((oneCell "+[]" 1 5).loaded oneCell_pos Session.forever).start #[]).Undisturbed :=
    undisturbed_golf oneCell_pos
  have hhalted := hn.halted_mem_iff.mpr (show n < 2 + (n + 1) by omega)
  have hended := (hcalm.walk_eq rfl _).2.mp hhalted
  change (repeatUntil (Store.step false Session.forever) _ _).1 = true at hended
  rw [repeatUntil_add_of_not_end _ henter, repeatUntil_forever hpc hcell] at hended
  cases hended

/-- A program that never comes to its end is declared solved. -/
theorem not_judgesFinished_forever :
    Program.ofText "+[]" = .ok Session.forever ∧
      (∀ n, ¬ (oneCell "+[]" 1 5).EndsAfter oneCell_pos Session.forever n) ∧
      (Command.golf (oneCell "+[]" 1 5)).execute (.ofFiles [] [] false) =
        some (.success (Text.bytes
          "solved\nYour program is 3 instructions long. Can you make it shorter?\n")
          "stopped at step limit (5 steps)\n") ∧
      ¬ (oneCell "+[]" 1 5).JudgesFinished oneCell_pos Session.forever (.ofFiles [] [] false) := by
  have hprogram : Program.ofText "+[]" = .ok Session.forever := by decide +kernel
  refine ⟨hprogram, not_endsAfter_forever, by decide +kernel, ?_⟩
  rw [judgesFinished_iff oneCell_pos rfl rfl hprogram, not_not]
  constructor
  · rintro ⟨n, -, hn⟩
    exact not_endsAfter_forever n hn
  · decide +kernel

end TapeMachine.CommandLine
