import TapeMachine.Proofs.CommandLine.RunCommand
import TapeMachine.Proofs.Text.TapeLine

/-!
# Displaying a run changes nothing else

When the plain run of a program comes back, the displayed one does so too. It writes the
same bytes and counts the same steps, and what it shows on the way are the tape lines of
the instructions that both have executed. A limit changes nothing about this, unless it is
zero.
-/
namespace TapeMachine.CommandLine

open TapeLine (Reading readTapeLines?)

theorem readTapeLines?_tapeLines (executed : List Snapshot) :
    readTapeLines? (tapeLines executed) =
      some ((executed.filter (·.instruction.isVisible)).map Reading.ofSnapshot) :=
  readTapeLines?_flatMap _

/-- Whenever a plain run of an accepted program returns, there are finitely many
instructions that it has executed. The displayed run, at any delay, returns as well and has
executed the same ones: it leaves the same bytes and reports their number, after a line for
each visible one of them, from which the instruction and the tape after it are read back. -/
theorem displayed_like_plain {w : Surroundings} {o : RunOptions} {p : Program} {text : String}
    {plain : Exit} (size_pos : 0 < o.tapeSize) (ms : ℕ) (hw : w.outputFull = false)
    (hsource : readSource w o.source = .ok text) (hprogram : Program.ofText text = .ok p)
    (hlimit : o.maxSteps ≠ some 0)
    (hplain : (Command.run { o with delay := none }).execute w = some plain) :
    ∃ executed outcome outcome', executed.length < UInt64.size ∧
      executed = o.executed size_pos p executed.length ∧
      plain = .success (executed.flatMap Snapshot.written)
        (report outcome (.ofNat executed.length)) ∧
      (Command.run { o with delay := some ms }).execute w =
        some (.success (executed.flatMap Snapshot.written)
          (tapeLines executed ++ report outcome' (.ofNat executed.length))) ∧
      readTapeLines? (tapeLines executed) =
        some ((executed.filter (·.instruction.isVisible)).map Reading.ofSnapshot) := by
  rcases o.maxSteps.eq_none_or_eq_some with hmax | ⟨limit, hmax⟩
  · obtain ⟨n, hlt, hn, hexit⟩ := execute_unlimited (o := { o with delay := none }) size_pos hw
      hsource hprogram rfl hmax hplain
    have hlength := length_executed_end size_pos hn
    have hdisplayed := execute_uncounted (o := { o with delay := some ms }) size_pos hw hsource
      hprogram rfl hmax hn hlt
    exact ⟨o.executed size_pos p n, .completed, .completed, by rwa [hlength], by rw [hlength],
      hexit, hdisplayed, readTapeLines?_tapeLines _⟩
  · have hexit : (Command.run { o with delay := none }).execute w =
        some (plainExit (o.executed size_pos p limit.toNat)
          ((o.loaded size_pos p).runWithin (Text.queue o.input) limit).outcome) :=
      execute_within (o := { o with delay := none }) size_pos hw hsource hprogram rfl hmax
    have hlast : lastShown limit = limit.toNat :=
      lastShown_of_ne_zero fun hzero => hlimit (hmax.trans (congrArg some hzero))
    obtain ⟨hends, hgoes⟩ := execute_counting (o := { o with delay := some ms }) size_pos hw
      hsource hprogram rfl hmax
    rw [hlast] at hends hgoes
    by_cases h : ∃ n < limit.toNat, o.EndsAfter size_pos p n
    · obtain ⟨n, hlt, hn⟩ := h
      have hlength := length_executed_end size_pos hn
      rw [executed_of_le size_pos hn hlt.le] at hexit
      exact ⟨o.executed size_pos p n, _, .completed,
        by rw [hlength]; exact hlt.trans limit.toNat_lt, by rw [hlength],
        Option.some.inj (hplain.symm.trans hexit), hends n hlt hn, readTapeLines?_tapeLines _⟩
    · obtain ⟨hlength, hdisplayed⟩ := hgoes fun n hn => Nat.le_of_not_gt fun hlt => h ⟨n, hlt, hn⟩
      change (o.executed size_pos p limit.toNat).length = limit.toNat at hlength
      exact ⟨o.executed size_pos p limit.toNat, _, .cancelled,
        by rw [hlength]; exact limit.toNat_lt, by rw [hlength],
        Option.some.inj (hplain.symm.trans hexit), hdisplayed, readTapeLines?_tapeLines _⟩

/-- Run `+[,.]`, which passes on what it reads up to a zero, for at most eight steps. -/
def relayOptions (delay : Option ℕ) : RunOptions where
  source := .inline "+[,.]"
  input := "a"
  tapeSize := 2
  io := true
  delay
  maxSteps := some 8

/-- The limit is used up with the last instruction. Of the eight that are executed three are
visible. -/
theorem displayed_like_plain_relay :
    readSource (.ofFiles [] [] false) (relayOptions none).source = .ok "+[,.]" ∧
      Program.ofText "+[,.]" = .ok Machine.relay ∧ (relayOptions none).maxSteps ≠ some 0 ∧
      (Command.run (relayOptions none)).execute (.ofFiles [] [] false) =
        some (.success [97, 0] "\nhalted after 8 steps\n") ∧
      (Command.run (relayOptions (some 3))).execute (.ofFiles [] [] false) =
        some (.success [97, 0] ("0000 + |[  1]   0 \n0003 . |[ 97]   0 \n0003 . |[  0]   0 \n" ++
          "\ncancelled after 8 steps\n")) ∧
      ∃ executed outcome outcome', executed.length < UInt64.size ∧
        executed = (relayOptions none).executed Nat.two_pos Machine.relay executed.length ∧
        .success [97, 0] "\nhalted after 8 steps\n" = Exit.success
          (executed.flatMap Snapshot.written) (report outcome (.ofNat executed.length)) ∧
        .success [97, 0] ("0000 + |[  1]   0 \n0003 . |[ 97]   0 \n0003 . |[  0]   0 \n" ++
          "\ncancelled after 8 steps\n") = Exit.success (executed.flatMap Snapshot.written)
            (tapeLines executed ++ report outcome' (.ofNat executed.length)) ∧
        readTapeLines? (tapeLines executed) =
          some ((executed.filter (·.instruction.isVisible)).map Reading.ofSnapshot) := by
  have hsource : readSource (.ofFiles [] [] false) (relayOptions none).source = .ok "+[,.]" := rfl
  have hprogram : Program.ofText "+[,.]" = .ok Machine.relay := by decide +kernel
  have hlimit : (relayOptions none).maxSteps ≠ some 0 := by decide
  have hplain : (Command.run (relayOptions none)).execute (.ofFiles [] [] false) =
      some (.success [97, 0] "\nhalted after 8 steps\n") := by decide +kernel
  have hshown : (Command.run (relayOptions (some 3))).execute (.ofFiles [] [] false) =
      some (.success [97, 0] ("0000 + |[  1]   0 \n0003 . |[ 97]   0 \n0003 . |[  0]   0 \n" ++
        "\ncancelled after 8 steps\n")) := by decide +kernel
  obtain ⟨executed, outcome, outcome', hlt, hexecuted, hleft, hdisplayed, hread⟩ :=
    displayed_like_plain (o := relayOptions none) Nat.two_pos 3 rfl hsource hprogram hlimit hplain
  have hoptions : { relayOptions none with delay := some 3 } = relayOptions (some 3) := rfl
  rw [hoptions, hshown, Option.some.injEq] at hdisplayed
  exact ⟨hsource, hprogram, hlimit, hplain, hshown, executed, outcome, outcome', hlt, hexecuted,
    hleft, hdisplayed, hread⟩

end TapeMachine.CommandLine
