import TapeMachine.Proofs.CommandLine.FullOutput

/-!
# Lost output and the exit code

What a program writes is lost where the output is full. A plain run delivers it at its end
and fails if it cannot, so that its exit code tells of the loss. A displayed run learns of
the loss on the way, takes it for a reason to cancel itself, and then ends like any other
cancelled run, with the exit code of a success.
-/
namespace TapeMachine.CommandLine

variable {w : Surroundings} {o : RunOptions} {p : Program} {text : String} {e : Ended}
  {exit : Exit} {ms c k : ℕ} (size_pos : 0 < o.tapeSize)

/-! ### The end of a run and what the command leaves -/

/-- The end of the run that the command asks for, in whichever way it is done; `none` if it
has no end. -/
def RunOptions.ending (o : RunOptions) (w : Surroundings) (m : Machine) : Option Ended :=
  let input := Text.queue o.input
  match o.delay, o.maxSteps with
  | some ms, limit => (m.attach (display w limit)).runPaced input ⟨1000 * ms, none⟩
  | none, some limit => some (m.runWithin input limit)
  | none, none => m.run input

def RunOptions.leave (o : RunOptions) (w : Surroundings) (e : Ended) : Except Failure Exit :=
  match o.delay with
  | some _ => .ok (finishDisplayed w e (Screen.blank.addAll w e.events))
  | none => finishPlain w e

/-- The run that the command asks for comes to an end, and has executed a `.` by then. -/
def RunOptions.Writes (o : RunOptions) (size_pos : 0 < o.tapeSize) (p : Program)
    (w : Surroundings) : Prop :=
  ∃ e, o.ending w (o.loaded size_pos p) = some e ∧
    ∃ s ∈ o.executed size_pos p e.machine.store.steps.toNat, s.instruction = .write

/-- The exit code tells of output that cannot be delivered: if the command comes back, its
code is zero unless its run has executed a `.`. -/
def RunOptions.ReportsLoss (o : RunOptions) (size_pos : 0 < o.tapeSize) (p : Program)
    (w : Surroundings) : Prop :=
  ∀ exit, (Command.run o).execute w = some exit → (exit.code ≠ 0 ↔ o.Writes size_pos p w)

theorem perform_eq (m : Machine) : o.perform w m = (o.ending w m).map (o.leave w) := by
  unfold RunOptions.perform RunOptions.ending RunOptions.leave
  cases o.delay with
  | none => cases o.maxSteps <;> rfl
  | some ms =>
    simp only [showRun_eq, Option.map_map]
    rfl

theorem execute_eq_ending (hsource : readSource w o.source = .ok text)
    (hprogram : Program.ofText text = .ok p) :
    (Command.run o).execute w =
      (o.ending w (o.loaded size_pos p)).map fun e => settle (o.leave w e) := by
  rw [execute_run hsource hprogram size_pos, perform_eq, Option.map_map]
  rfl

theorem executed_length (p : Program) (k : ℕ) :
    o.executed size_pos p (o.executed size_pos p k).length = o.executed size_pos p k := by
  rw [← take_executed size_pos p (length_executed_le size_pos p k), List.take_length]

/-! ### Plain runs -/

theorem output_of_store (hlt : (o.executed size_pos p k).length < UInt64.size)
    (hstore : e.machine.store =
      ((o.begun size_pos p .deaf .immediate).advance k).2.machine.store) :
    e.machine.store.output.toList =
      (o.executed size_pos p e.machine.store.steps.toNat).flatMap Snapshot.written := by
  obtain ⟨-, houtput, hsteps, -, -⟩ := advance_begun size_pos p .deaf .immediate rfl rfl k
  rw [hstore, houtput, hsteps, UInt64.toNat_ofNat_of_lt' hlt, executed_length]

section

variable (hdelay : o.delay = none)
include hdelay

theorem output_of_ending (hend : o.ending w (o.loaded size_pos p) = some e) :
    e.machine.store.output.toList =
      (o.executed size_pos p e.machine.store.steps.toNat).flatMap Snapshot.written := by
  unfold RunOptions.ending at hend
  rw [hdelay] at hend
  cases hlimit : o.maxSteps with
  | some limit =>
    rw [hlimit] at hend
    obtain rfl := Option.some.inj hend
    exact output_of_store size_pos ((length_executed_le size_pos p _).trans_lt limit.toNat_lt)
      (Machine.store_runWithin _ _ _)
  | none =>
    rw [hlimit] at hend
    obtain ⟨hended, rfl⟩ := Machine.runPaced_eq_some_iff.mp hend
    obtain ⟨hends, -⟩ := advance_begun size_pos p .deaf .immediate rfl rfl UInt64.size
    obtain ⟨n, hlt, hn⟩ := hends.mp hended
    refine output_of_store size_pos ?_ rfl
    rw [executed_of_le size_pos hn hlt.le, length_executed_end size_pos hn]
    exact hlt

/-- With a full output a plain run fails if it has executed a `.`, and only then. -/
theorem settle_leave_plain (hw : w.outputFull = true) (hio : o.io = true)
    (hend : o.ending w (o.loaded size_pos p) = some e) :
    ((∃ s ∈ o.executed size_pos p e.machine.store.steps.toNat, s.instruction = .write) →
      settle (o.leave w e) = .failure (.access .noSpace)) ∧
    ((¬ ∃ s ∈ o.executed size_pos p e.machine.store.steps.toNat, s.instruction = .write) →
      settle (o.leave w e) = .success [] (report e.outcome e.machine.store.steps)) := by
  have houtput := output_of_ending size_pos hdelay hend
  rw [← flatMap_written_ne_nil_iff size_pos hio, ← houtput]
  unfold RunOptions.leave
  rw [hdelay]
  constructor
  · intro hwritten
    simp [finishPlain, hw, hwritten, settle]
  · intro hnone
    simp [finishPlain, not_not.mp hnone, settle]

end

/-! ### Displayed runs -/

/-- So many instructions can be counted, and a displayed run may go that far before its limit
cancels it. -/
def RunOptions.Shows (o : RunOptions) (k : ℕ) : Prop :=
  k < UInt64.size ∧ ∀ limit, o.maxSteps = some limit → k ≤ lastShown limit

theorem exists_first_due (h : o.Due w (o.executed size_pos p k)) :
    ∃ c ≤ k, (∀ j < c, ¬ o.Due w (o.executed size_pos p j)) ∧
      o.Due w (o.executed size_pos p c) := by
  classical
  have hdue : ∃ k, o.Due w (o.executed size_pos p k) := ⟨k, h⟩
  exact ⟨Nat.find hdue, Nat.find_min' hdue h, fun j hj => Nat.find_min hdue hj, Nat.find_spec hdue⟩

theorem shows_of_not_due (hlt : c < UInt64.size) (hlength : (o.executed size_pos p c).length = c)
    (hbefore : ∀ j < c, ¬ o.Due w (o.executed size_pos p j)) : o.Shows c := by
  refine ⟨hlt, fun limit hlimit => ?_⟩
  by_contra hbeyond
  have hle : lastShown limit ≤ c := Nat.le_of_not_le hbeyond
  refine hbefore _ (Nat.lt_of_not_le hbeyond) (.inl ⟨limit, hlimit, ?_⟩)
  rw [← take_executed size_pos p hle, List.length_take, hlength, min_eq_left hle]

section

variable (hsource : readSource w o.source = .ok text) (hprogram : Program.ofText text = .ok p)
  (hdelay : o.delay = some ms)
include hdelay

theorem ending_displayed (m : Machine) :
    o.ending w m =
      (m.attach (display w o.maxSteps)).runPaced (Text.queue o.input) ⟨1000 * ms, none⟩ := by
  unfold RunOptions.ending
  rw [hdelay]

theorem code_leave_displayed (hw : w.outputFull = true) (e : Ended) :
    (settle (o.leave w e)).code = 0 ∧ (settle (o.leave w e)).output = [] := by
  unfold RunOptions.leave
  rw [hdelay]
  simp [settle, finishDisplayed, Exit.success, hw]

include hsource hprogram

theorem shows_of_ending (hend : o.ending w (o.loaded size_pos p) = some e) :
    o.Shows e.machine.store.steps.toNat := by
  rw [ending_displayed hdelay] at hend
  by_cases hdue : ∃ k < UInt64.size, o.Due w (o.executed size_pos p k)
  · obtain ⟨k, hk, hdue⟩ := hdue
    obtain ⟨c, hle, hbefore, hnow⟩ := exists_first_due size_pos hdue
    have hlt := hle.trans_lt hk
    obtain ⟨hlength, -, e', hend', hcancelled⟩ :=
      execute_of_due size_pos hsource hprogram hdelay hbefore hnow hlt
    obtain rfl := Option.some.inj (hend.symm.trans hend')
    rw [hcancelled.steps_eq, UInt64.toNat_ofNat_of_lt' hlt]
    exact shows_of_not_due size_pos hlt hlength hbefore
  · have hquiet : ∀ k < UInt64.size, ¬ o.Due w (o.executed size_pos p k) :=
      fun k hk hnow => hdue ⟨k, hk, hnow⟩
    obtain ⟨hends, hsteps, -⟩ := advance_of_not_due size_pos ms hquiet
    obtain ⟨hended, hfinish⟩ := Machine.runPaced_eq_some_iff.mp hend
    obtain ⟨n, hlt, hn⟩ := hends.mp hended
    have hlength := length_executed_end size_pos hn
    rw [executed_of_le size_pos hn hlt.le, hlength] at hsteps
    have hcount : e.machine.store.steps = .ofNat n := by
      rw [← hfinish]
      exact hsteps
    rw [hcount, UInt64.toNat_ofNat_of_lt' hlt]
    exact shows_of_not_due size_pos hlt hlength fun j hj => hquiet j (hj.trans hlt)

/-- A displayed run executes a `.` if there is one as far as its limit lets it go. -/
theorem writes_displayed_iff (hw : w.outputFull = true) (hio : o.io = true) :
    o.Writes size_pos p w ↔
      ∃ k, o.Shows k ∧ ∃ s ∈ o.executed size_pos p k, s.instruction = .write := by
  constructor
  · rintro ⟨e, hend, hwrite⟩
    exact ⟨_, shows_of_ending size_pos hsource hprogram hdelay hend, hwrite⟩
  · rintro ⟨k, ⟨hlt, hlimit⟩, hwrite⟩
    have hwritten := (flatMap_written_ne_nil_iff size_pos hio p k).mpr hwrite
    obtain ⟨c, hle, hbefore, hnow⟩ := exists_first_due size_pos (.inr ⟨hw, hwritten⟩)
    have hc := hle.trans_lt hlt
    obtain ⟨-, -, e, hend, hcancelled⟩ :=
      execute_of_due size_pos hsource hprogram hdelay hbefore hnow hc
    refine ⟨e, (ending_displayed hdelay _).trans hend, ?_⟩
    rw [hcancelled.steps_eq, UInt64.toNat_ofNat_of_lt' hc]
    rcases hnow with ⟨limit, hsome, hshown⟩ | ⟨-, hwritten'⟩
    · have hck := (hlimit limit hsome).trans (hshown.trans (length_executed_le size_pos p c))
      rwa [le_antisymm hle hck]
    · exact (flatMap_written_ne_nil_iff size_pos hio p c).mp hwritten'

end

/-! ### Exit codes -/

section

variable (hw : w.outputFull = true) (hsource : readSource w o.source = .ok text)
  (hprogram : Program.ofText text = .ok p)
include hw hsource hprogram

theorem exit_plain (hio : o.io = true) (hdelay : o.delay = none)
    (hexit : (Command.run o).execute w = some exit) :
    (o.Writes size_pos p w → exit = .failure (.access .noSpace)) ∧
      (¬ o.Writes size_pos p w → exit.code = 0 ∧ exit.output = []) := by
  rw [execute_eq_ending size_pos hsource hprogram] at hexit
  obtain ⟨e, hend, rfl⟩ := Option.map_eq_some_iff.mp hexit
  obtain ⟨hfails, hsucceeds⟩ := settle_leave_plain size_pos hdelay hw hio hend
  constructor
  · rintro ⟨e', hend', hwrite⟩
    obtain rfl := Option.some.inj (hend.symm.trans hend')
    exact hfails hwrite
  · intro hnone
    rw [hsucceeds fun hwrite => hnone ⟨e, hend, hwrite⟩]
    exact ⟨rfl, rfl⟩

include size_pos in
theorem exit_displayed (hdelay : o.delay = some ms)
    (hexit : (Command.run o).execute w = some exit) : exit.code = 0 ∧ exit.output = [] := by
  rw [execute_eq_ending size_pos hsource hprogram] at hexit
  obtain ⟨e, -, rfl⟩ := Option.map_eq_some_iff.mp hexit
  exact code_leave_displayed hdelay hw e

theorem reportsLoss_plain (hio : o.io = true) (hdelay : o.delay = none) :
    o.ReportsLoss size_pos p w := by
  intro exit hexit
  obtain ⟨hfails, hsucceeds⟩ := exit_plain size_pos hw hsource hprogram hio hdelay hexit
  constructor
  · intro hcode
    by_contra hnone
    exact hcode (hsucceeds hnone).1
  · intro hwrites
    rw [hfails hwrites]
    decide

theorem reportsLoss_displayed_iff (hio : o.io = true) (hdelay : o.delay = some ms) :
    o.ReportsLoss size_pos p w ↔
      ∀ k, o.Shows k → ∀ s ∈ o.executed size_pos p k, s.instruction ≠ .write := by
  have hwrites := writes_displayed_iff size_pos hsource hprogram hdelay hw hio
  constructor
  · intro hreports k hk s hs hwrite
    obtain ⟨e, hend, hlost⟩ := hwrites.mpr ⟨k, hk, s, hs, hwrite⟩
    have hexit : (Command.run o).execute w = some (settle (o.leave w e)) := by
      rw [execute_eq_ending size_pos hsource hprogram, hend, Option.map_some]
    exact (hreports _ hexit).mpr ⟨e, hend, hlost⟩ (code_leave_displayed hdelay hw e).1
  · intro hnone exit hexit
    have hcode := (exit_displayed size_pos hw hsource hprogram hdelay hexit).1
    refine iff_of_false (not_not.mpr hcode) fun h => ?_
    obtain ⟨k, hk, s, hs, hwrite⟩ := hwrites.mp h
    exact hnone k hk s hs hwrite

end

/-- Where the output is full, the exit code of a plain run tells whether anything was lost:
the command fails with the error exactly if its run has executed a `.`. The exit code of a
displayed run is always 0. So it tells the truth exactly about the programs that execute no
`.` as far as the limit lets them go. -/
theorem reports_loss_iff (hw : w.outputFull = true) (hsource : readSource w o.source = .ok text)
    (hprogram : Program.ofText text = .ok p) (hio : o.io = true) :
    RunOptions.ReportsLoss { o with delay := none } size_pos p w ∧
    (∀ exit, (Command.run { o with delay := none }).execute w = some exit →
      (RunOptions.Writes { o with delay := none } size_pos p w →
        exit = .failure (.access .noSpace)) ∧
      (¬ RunOptions.Writes { o with delay := none } size_pos p w →
        exit.code = 0 ∧ exit.output = [])) ∧
    ∀ ms,
      (∀ exit, (Command.run { o with delay := some ms }).execute w = some exit →
        exit.code = 0 ∧ exit.output = []) ∧
      (RunOptions.ReportsLoss { o with delay := some ms } size_pos p w ↔
        ∀ k, o.Shows k → ∀ s ∈ o.executed size_pos p k, s.instruction ≠ .write) := by
  refine ⟨?_, ?_, fun ms => ⟨?_, ?_⟩⟩
  · exact reportsLoss_plain (o := { o with delay := none }) size_pos hw hsource hprogram hio rfl
  · intro exit hexit
    exact exit_plain (o := { o with delay := none }) size_pos hw hsource hprogram hio rfl hexit
  · intro exit hexit
    exact exit_displayed (o := { o with delay := some ms }) size_pos hw hsource hprogram rfl hexit
  · exact reportsLoss_displayed_iff (o := { o with delay := some ms }) size_pos hw hsource hprogram
      hio rfl

theorem ofText_babble : Program.ofText "+[.]" = .ok babble := by
  decide +kernel

/-- With a full output and a limit of three, `+[.]` loses a byte: the plain run fails, and the
displayed run does not. Under a limit of two there is nothing to lose. -/
theorem reports_loss_iff_babble :
    readSource (.ofFiles [] [] true) (.inline "+[.]") = .ok "+[.]" ∧
      Program.ofText "+[.]" = .ok babble ∧
      (Command.run { babbleOptions (some 3) with delay := none }).execute (.ofFiles [] [] true) =
        some ⟨1, [], "could not read program: No space left on device (os error 28)\n"⟩ ∧
      (Command.run (babbleOptions (some 3))).execute (.ofFiles [] [] true) =
        some (.success [] "0000 + |[  1]\n0002 . |[  1]\n\ncancelled after 3 steps\n") ∧
      ¬ (babbleOptions (some 3)).ReportsLoss (babbleOptions_pos _) babble (.ofFiles [] [] true) ∧
      (babbleOptions (some 2)).ReportsLoss (babbleOptions_pos _) babble (.ofFiles [] [] true) := by
  have hsource : readSource (.ofFiles [] [] true) (.inline "+[.]") = .ok "+[.]" := rfl
  obtain ⟨-, hplain, hdisplayed⟩ := reports_loss_iff (o := babbleOptions (some 3))
    (babbleOptions_pos (some 3)) rfl hsource ofText_babble rfl
  obtain ⟨-, -, hdisplayed'⟩ := reports_loss_iff (o := babbleOptions (some 2))
    (babbleOptions_pos (some 2)) rfl hsource ofText_babble rfl
  refine ⟨hsource, ofText_babble, ?_, by decide +kernel, ?_, ?_⟩
  · have hwrites : RunOptions.Writes { babbleOptions (some 3) with delay := none }
        (babbleOptions_pos (some 3)) babble (.ofFiles [] [] true) :=
      ⟨_, rfl, by decide +kernel⟩
    obtain ⟨exit, hexit⟩ : ∃ exit,
        (Command.run { babbleOptions (some 3) with delay := none }).execute
          (.ofFiles [] [] true) = some exit :=
      Option.isSome_iff_exists.mp (by decide +kernel)
    rw [hexit, (hplain exit hexit).1 hwrites]
    decide +kernel
  · intro hreports
    have hnone := (hdisplayed 0).2.mp hreports 3 ⟨by decide, fun _ h => by cases h; decide⟩
    revert hnone
    decide +kernel
  · apply (hdisplayed' 0).2.mpr
    rintro k ⟨-, hk⟩
    have hle : k ≤ 2 := hk 2 rfl
    interval_cases k <;> decide +kernel

/-- A displayed run of `+[.]` loses the byte that it has written, and ends with code 0. -/
theorem not_reportsLoss_babble :
    (babbleOptions none).Writes (babbleOptions_pos _) babble (.ofFiles [] [] true) ∧
      (Command.run (babbleOptions none)).execute (.ofFiles [] [] true) =
        some (.success [] "0000 + |[  1]\n0002 . |[  1]\n\ncancelled after 3 steps\n") ∧
      ¬ (babbleOptions none).ReportsLoss (babbleOptions_pos _) babble (.ofFiles [] [] true) := by
  have hsource : readSource (.ofFiles [] [] true) (.inline "+[.]") = .ok "+[.]" := rfl
  have hexit : (Command.run (babbleOptions none)).execute (.ofFiles [] [] true) =
      some (.success [] "0000 + |[  1]\n0002 . |[  1]\n\ncancelled after 3 steps\n") := by
    decide +kernel
  have hwrites : (babbleOptions none).Writes (babbleOptions_pos _) babble (.ofFiles [] [] true) :=
    (writes_displayed_iff (babbleOptions_pos _) hsource ofText_babble rfl rfl rfl).mpr
      ⟨3, ⟨by decide, fun _ h => nomatch h⟩, by decide +kernel⟩
  exact ⟨hwrites, hexit, fun hreports => (hreports _ hexit).mpr hwrites rfl⟩

end TapeMachine.CommandLine
