import TapeMachine.Proofs.CommandLine.RunCommand

/-!
# The step limit of the run command

A limit on the steps is meant to be the number of instructions that a command executes at
most, and a program that comes to its end by then is to be reported as halted. Plain runs
test the limit before each step and keep to this. Displayed runs test it after each
instruction and cancel themselves, which fails at both ends of the range: they execute an
instruction under a limit of zero, and they take the last instruction of a program that
just fits its limit for one too many.
-/
namespace TapeMachine.CommandLine

variable {w : Surroundings} {o : RunOptions} {p : Program} {text : String} {limit : UInt64}
  {ms : ℕ} (size_pos : 0 < o.tapeSize)

def RunOptions.exitAfter (o : RunOptions) (size_pos : 0 < o.tapeSize) (p : Program) (count : ℕ)
    (outcome : Outcome) : Exit :=
  match o.delay with
  | none => plainExit (o.executed size_pos p count) outcome
  | some _ => displayedExit (o.executed size_pos p count) outcome

/-- The command executes what the program can do in as many steps as the limit says, and
reports that it has halted if it has come to its end by then. -/
def RunOptions.KeepsLimit (o : RunOptions) (size_pos : 0 < o.tapeSize) (p : Program)
    (w : Surroundings) (limit : UInt64) : Prop :=
  ∃ outcome, (Command.run o).execute w = some (o.exitAfter size_pos p limit.toNat outcome) ∧
    ∀ n ≤ limit.toNat, o.EndsAfter size_pos p n → outcome = .completed

theorem exitAfter_plain (hdelay : o.delay = none) (k : ℕ) (outcome : Outcome) :
    o.exitAfter size_pos p k outcome = plainExit (o.executed size_pos p k) outcome := by
  rw [RunOptions.exitAfter, hdelay]

theorem exitAfter_displayed (hdelay : o.delay = some ms) (k : ℕ) (outcome : Outcome) :
    o.exitAfter size_pos p k outcome = displayedExit (o.executed size_pos p k) outcome := by
  rw [RunOptions.exitAfter, hdelay]

theorem keepsLimit_plain (hw : w.outputFull = false) (hsource : readSource w o.source = .ok text)
    (hprogram : Program.ofText text = .ok p) (hdelay : o.delay = none)
    (hlimit : o.maxSteps = some limit) : o.KeepsLimit size_pos p w limit := by
  refine ⟨_, ?_, (outcome_within size_pos).1⟩
  rw [exitAfter_plain size_pos hdelay]
  exact execute_within size_pos hw hsource hprogram hdelay hlimit

/-! ### Displayed runs -/

theorem length_report (count : UInt64) :
    (report .cancelled count).length = (report .completed count).length + 3 := by
  have hcancelled : (report .cancelled count).length =
      "\ncancelled after ".length + (toString count.toNat).length + " steps\n".length := by
    change ("\ncancelled after " ++ toString count.toNat ++ " steps\n").length = _
    rw [String.length_append, String.length_append]
  have hcompleted : (report .completed count).length =
      "\nhalted after ".length + (toString count.toNat).length + " steps\n".length := by
    change ("\nhalted after " ++ toString count.toNat ++ " steps\n").length = _
    rw [String.length_append, String.length_append]
  have hwords : "\ncancelled after ".length = "\nhalted after ".length + 3 := rfl
  omega

theorem append_report_ne (lines : String) (outcome : Outcome) :
    lines ++ report .cancelled 1 ≠ report outcome 0 := by
  intro h
  have hend := congrArg (fun s => s.toList.reverse.take 8) h
  have hlong : 8 ≤ (report .cancelled 1).toList.reverse.length := by decide +kernel
  simp only [String.toList_append, List.reverse_append, List.take_append_of_le_length hlong] at hend
  revert hend
  cases outcome <;> decide +kernel

section

variable (hw : w.outputFull = false) (hsource : readSource w o.source = .ok text)
  (hprogram : Program.ofText text = .ok p) (hdelay : o.delay = some ms)
  (hlimit : o.maxSteps = some limit)
include hw hsource hprogram hdelay hlimit

/-- A displayed run keeps to a limit of zero if there is nothing to execute, and to another
one if the program does not end with it. -/
theorem keepsLimit_displayed (h : limit = 0 ↔ o.EndsAfter size_pos p limit.toNat) :
    o.KeepsLimit size_pos p w limit := by
  obtain ⟨hends, hgoes⟩ := execute_counting size_pos hw hsource hprogram hdelay hlimit
  by_cases hfound : ∃ n < lastShown limit, n ≤ limit.toNat ∧ o.EndsAfter size_pos p n
  · obtain ⟨n, hlt, hle, hn⟩ := hfound
    refine ⟨.completed, ?_, fun _ _ _ => rfl⟩
    rw [exitAfter_displayed size_pos hdelay, executed_of_le size_pos hn hle]
    exact hends n hlt hn
  · have hzero : limit ≠ 0 := by
      rintro rfl
      exact hfound ⟨0, lastShown_pos 0, le_rfl, h.mp rfl⟩
    have hbeyond : ∀ n, o.EndsAfter size_pos p n → limit.toNat < n := by
      intro n hn
      by_contra hle
      rcases (Nat.le_of_not_gt hle).eq_or_lt with rfl | hlt
      · exact hzero (h.mpr hn)
      · exact hfound ⟨n, (lastShown_of_ne_zero hzero).symm ▸ hlt, hlt.le, hn⟩
    refine ⟨.cancelled, ?_, fun n hle hn => absurd (hbeyond n hn) hle.not_gt⟩
    rw [lastShown_of_ne_zero hzero] at hgoes
    rw [exitAfter_displayed size_pos hdelay]
    exact (hgoes fun n hn => (hbeyond n hn).le).2

theorem execute_displayed_cancelled (h : ¬ (limit = 0 ↔ o.EndsAfter size_pos p limit.toNat)) :
    (o.executed size_pos p (lastShown limit)).length = lastShown limit ∧
      (Command.run o).execute w =
        some (displayedExit (o.executed size_pos p (lastShown limit)) .cancelled) := by
  apply (execute_counting size_pos hw hsource hprogram hdelay hlimit).2
  intro n hn
  by_cases hzero : limit = 0
  · subst hzero
    refine Nat.one_le_iff_ne_zero.mpr ?_
    rintro rfl
    exact (not_iff.mp h).mpr hn rfl
  · have hend := (not_iff.mp h).mp hzero
    rw [lastShown_of_ne_zero hzero]
    exact (hend.unique hn).le

theorem not_keepsLimit_displayed (h : ¬ (limit = 0 ↔ o.EndsAfter size_pos p limit.toNat)) :
    ¬ o.KeepsLimit size_pos p w limit := by
  rintro ⟨outcome, hexit, hcompleted⟩
  obtain ⟨hlength, hcancelled⟩ :=
    execute_displayed_cancelled size_pos hw hsource hprogram hdelay hlimit h
  rw [hcancelled, exitAfter_displayed size_pos hdelay] at hexit
  have hdiagnostics := congrArg Exit.diagnostics (Option.some.inj hexit)
  by_cases hzero : limit = 0
  · subst hzero
    change tapeLines (o.executed size_pos p (lastShown 0)) ++
      report .cancelled (.ofNat (o.executed size_pos p (lastShown 0)).length) =
        "" ++ report outcome 0 at hdiagnostics
    rw [hlength, String.empty_append] at hdiagnostics
    exact append_report_ne _ _ hdiagnostics
  · have hend := (not_iff.mp h).mp hzero
    rw [lastShown_of_ne_zero hzero, hcompleted _ le_rfl hend] at hdiagnostics
    have hlengths := congrArg String.length hdiagnostics
    simp [displayedExit, Exit.success, String.length_append, length_report] at hlengths

end

/-- Under a limit as many instructions are to be executed as the program has, but no more
than the limit. A plain run keeps to this and tells that the program has halted whenever it
has. A displayed run does so exactly if there is nothing to execute under a limit of zero,
or if the program does not end with the last instruction that another limit allows.
Otherwise it is cancelled, after one instruction in the first case and after the last one
in the second. -/
theorem keeps_limit_iff (hw : w.outputFull = false) (hsource : readSource w o.source = .ok text)
    (hprogram : Program.ofText text = .ok p) (hlimit : o.maxSteps = some limit) :
    (∀ n, o.EndsAfter size_pos p n →
      (o.executed size_pos p limit.toNat).length = min n limit.toNat) ∧
    ((∀ n, ¬ o.EndsAfter size_pos p n) →
      (o.executed size_pos p limit.toNat).length = limit.toNat) ∧
    RunOptions.KeepsLimit { o with delay := none } size_pos p w limit ∧
    ∀ ms,
      (RunOptions.KeepsLimit { o with delay := some ms } size_pos p w limit ↔
        (limit = 0 ↔ o.EndsAfter size_pos p limit.toNat)) ∧
      (¬ (limit = 0 ↔ o.EndsAfter size_pos p limit.toNat) →
        (o.executed size_pos p (max 1 limit.toNat)).length = max 1 limit.toNat ∧
        (Command.run { o with delay := some ms }).execute w =
          some (displayedExit (o.executed size_pos p (max 1 limit.toNat)) .cancelled)) := by
  refine ⟨fun n hn => length_executed size_pos hn limit.toNat,
    fun h => length_executed_of_le size_pos fun n hn => absurd hn (h n), ?_,
    fun ms => ⟨⟨?_, ?_⟩, ?_⟩⟩
  · exact keepsLimit_plain (o := { o with delay := none }) size_pos hw hsource hprogram rfl hlimit
  · intro hkeeps
    by_contra h
    exact not_keepsLimit_displayed (o := { o with delay := some ms }) size_pos hw hsource hprogram
      rfl hlimit h hkeeps
  · exact keepsLimit_displayed (o := { o with delay := some ms }) size_pos hw hsource hprogram rfl
      hlimit
  · exact execute_displayed_cancelled (o := { o with delay := some ms }) size_pos hw hsource
      hprogram rfl hlimit

def increment : Program where
  code := #[.increment]
  partners := #[none]
  table_eq := rfl

def incrementOptions (delay : Option ℕ) (limit : UInt64) : RunOptions where
  source := .inline "+"
  input := ""
  tapeSize := 1
  io := true
  delay
  maxSteps := some limit

theorem incrementOptions_pos (delay : Option ℕ) (limit : UInt64) :
    0 < (incrementOptions delay limit).tapeSize :=
  Nat.one_pos

theorem keeps_limit_iff_increment :
    readSource (.ofFiles [] [] false) (.inline "+") = .ok "+" ∧
      Program.ofText "+" = .ok increment ∧
      ((incrementOptions none 1).executed (incrementOptions_pos _ _) increment 1).length = 1 ∧
      (incrementOptions none 1).KeepsLimit (incrementOptions_pos _ _) increment
        (.ofFiles [] [] false) 1 ∧
      (incrementOptions (some 5) 2).KeepsLimit (incrementOptions_pos _ _) increment
        (.ofFiles [] [] false) 2 ∧
      ¬ (incrementOptions (some 5) 1).KeepsLimit (incrementOptions_pos _ _) increment
        (.ofFiles [] [] false) 1 := by
  have hsource : readSource (.ofFiles [] [] false) (.inline "+") = .ok "+" := rfl
  have hprogram : Program.ofText "+" = .ok increment := by decide +kernel
  obtain ⟨hexecuted, -, hplain, hfull⟩ := keeps_limit_iff (o := incrementOptions none 1)
    (incrementOptions_pos _ _) rfl hsource hprogram rfl
  obtain ⟨-, -, -, hspare⟩ := keeps_limit_iff (o := incrementOptions none 2)
    (incrementOptions_pos _ _) rfl hsource hprogram rfl
  refine ⟨hsource, hprogram, hexecuted 1 (by decide +kernel), hplain, ?_, ?_⟩
  · exact (hspare 5).1.mpr (by decide +kernel)
  · exact fun hkeeps => absurd ((hfull 5).1.mp hkeeps) (by decide +kernel)

/-- A displayed run of `+` is cancelled after one instruction under both limits, although it
has halted by then under the one, and was not to execute anything under the other. -/
theorem not_keepsLimit_increment :
    (incrementOptions (some 0) 1).EndsAfter (incrementOptions_pos _ _) increment 1 ∧
      (Command.run (incrementOptions (some 0) 1)).execute (.ofFiles [] [] false) =
        some (.success [] "0000 + |[  1]\n\ncancelled after 1 steps\n") ∧
      (Command.run (incrementOptions (some 0) 0)).execute (.ofFiles [] [] false) =
        some (.success [] "0000 + |[  1]\n\ncancelled after 1 steps\n") ∧
      ¬ (incrementOptions (some 0) 1).KeepsLimit (incrementOptions_pos _ _) increment
        (.ofFiles [] [] false) 1 ∧
      ¬ (incrementOptions (some 0) 0).KeepsLimit (incrementOptions_pos _ _) increment
        (.ofFiles [] [] false) 0 := by
  have hsource : readSource (.ofFiles [] [] false) (.inline "+") = .ok "+" := rfl
  have hprogram : Program.ofText "+" = .ok increment := by decide +kernel
  refine ⟨by decide +kernel, by decide +kernel, by decide +kernel, ?_, ?_⟩
  · exact not_keepsLimit_displayed _ rfl hsource hprogram rfl rfl (by decide +kernel)
  · exact not_keepsLimit_displayed _ rfl hsource hprogram rfl rfl (by decide +kernel)

end TapeMachine.CommandLine
