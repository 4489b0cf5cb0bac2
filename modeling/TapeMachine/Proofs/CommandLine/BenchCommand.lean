import TapeMachine.CommandLine.Execute
import TapeMachine.Proofs.Benchmark.Report

/-!
# Adding up batches

The benchmark command runs its batches one after the other. What it prints of them can be
read off the ends of all their jobs, so that a benchmark which goes on where another one
has stopped prints the figures that are missing from both together. The number of programs
is not counted but multiplied, which comes to the same.

A tape without cells is refused by each batch and not by the command, even if the batch has
no programs to run on it. Where there are no batches, nobody refuses it.
-/
namespace TapeMachine.CommandLine

open Benchmark (stepCount)

variable {o : Benchmark.Options} {seed : UInt64} {n : ℕ} {σ : Type}

/-! ### The ends of all batches -/

section

variable (source : Random.Source σ)

/-- The ends that the jobs of some batches come to, the seed going up by one. -/
def batchEnds (o : Benchmark.Options) (seed : UInt64) (batches : ℕ) : List Ended :=
  (List.range batches).flatMap fun k => Benchmark.ends source o (seed + .ofNat k)

theorem batchEnds_add (o : Benchmark.Options) (seed : UInt64) (a b : ℕ) :
    batchEnds source o seed (a + b) =
      batchEnds source o seed a ++ batchEnds source o (seed + .ofNat a) b := by
  rw [batchEnds, List.range_add, List.flatMap_append, List.flatMap_map]
  simp only [UInt64.ofNat_add, ← UInt64.add_assoc]
  rfl

theorem batchEnds_succ (o : Benchmark.Options) (seed : UInt64) (n : ℕ) :
    batchEnds source o seed (n + 1) =
      Benchmark.ends source o seed ++ batchEnds source o (seed + 1) n := by
  have hfirst : batchEnds source o seed 1 = Benchmark.ends source o seed := by
    simp [batchEnds]
  rw [Nat.add_comm, batchEnds_add, hfirst]
  rfl

theorem length_batchEnds (h : 0 < o.tapeSize) (seed : UInt64) (n : ℕ) :
    (batchEnds source o seed n).length = n * o.programs := by
  simp [batchEnds, List.length_flatMap, Benchmark.length_ends source h]

/-- The totals of the batches are those of one report on all ends. -/
theorem runBatches_eq (h : 0 < o.tapeSize) (n : ℕ) (seed : UInt64) (unfinished : ℕ)
    (steps : UInt64) :
    runBatches source o n seed (unfinished, steps) =
      .ok (unfinished + (batchEnds source o seed n).countP (·.outcome = .outOfSteps),
        steps + .ofNat (stepCount (batchEnds source o seed n))) := by
  induction n generalizing seed unfinished steps with
  | zero => simp [runBatches, batchEnds]
  | succ n ih =>
    rw [runBatches, Benchmark.batch_eq_ofEnds source h]
    dsimp only
    rw [ih, batchEnds_succ, List.countP_append, Benchmark.stepCount_append, UInt64.ofNat_add,
      ← Nat.add_assoc, ← UInt64.add_assoc]
    rfl

end

variable {source : Random.Source σ}

/-! ### The figures -/

def Figures.ofEnds (batches : ℕ) (es : List Ended) : Figures where
  batches := batches
  programs := es.length
  unfinished := es.countP (·.outcome = .outOfSteps)
  totalSteps := stepCount es

theorem figures_eq (h : 0 < o.tapeSize) (hprograms : n * o.programs < UInt64.size)
    (hsteps : stepCount (batchEnds source o seed n) < UInt64.size) :
    figures source ⟨o, seed, n⟩ = .ok (.ofEnds n (batchEnds source o seed n)) := by
  have hproduct : (n.toUInt64 * o.programs.toUInt64).toNat = n * o.programs := by
    change (UInt64.ofNat n * UInt64.ofNat o.programs).toNat = _
    rw [← UInt64.ofNat_mul, UInt64.toNat_ofNat_of_lt' hprograms]
  have htotal : ((0 : UInt64) + .ofNat (stepCount (batchEnds source o seed n))).toNat =
      stepCount (batchEnds source o seed n) := by
    rw [UInt64.zero_add, UInt64.toNat_ofNat_of_lt' hsteps]
  rw [figures, runBatches_eq source h]
  simp only [Except.map, Figures.ofEnds, hproduct, htotal, length_batchEnds source h, Nat.zero_add]

theorem measure_of_figures {o : BenchOptions} {f : Figures} (h : figures source o = .ok f) :
    measure source o = .ok (.success [] f.text) := by
  rw [measure, h]

theorem execute_bench {o : BenchOptions} {f : Figures} (w : Surroundings)
    (h : figures .seeded o = .ok f) :
    (Command.bench o).execute w = some (.success [] f.text) := by
  rw [Command.execute, measure_of_figures h]
  rfl

/-- A benchmark of some batches and one that goes on from the seed after theirs print, in
sum, what the benchmark of all batches prints: as many programs, as many of them stopped at
the limit, and as many steps. The programs are those that were run, and no more of them
were stopped. This is so for any source of random draws; the command has the seeded one. -/
theorem figures_add (source : Random.Source σ) (o : Benchmark.Options) (seed : UInt64) (a b : ℕ)
    (h : 0 < o.tapeSize) (hprograms : (a + b) * o.programs < UInt64.size)
    (hsteps : stepCount (batchEnds source o seed (a + b)) < UInt64.size) :
    (∃ whole first second : Figures,
      (figures source ⟨o, seed, a + b⟩ = .ok whole ∧
        measure source ⟨o, seed, a + b⟩ = .ok (.success [] whole.text)) ∧
      (figures source ⟨o, seed, a⟩ = .ok first ∧
        measure source ⟨o, seed, a⟩ = .ok (.success [] first.text)) ∧
      (figures source ⟨o, seed + .ofNat a, b⟩ = .ok second ∧
        measure source ⟨o, seed + .ofNat a, b⟩ = .ok (.success [] second.text)) ∧
      whole.programs = first.programs + second.programs ∧
      whole.unfinished = first.unfinished + second.unfinished ∧
      whole.totalSteps = first.totalSteps + second.totalSteps ∧
      whole.programs = (batchEnds source o seed (a + b)).length ∧
      whole.unfinished ≤ whole.programs) ∧
    ∀ (w : Surroundings) (o : BenchOptions) (exit : Exit), measure .seeded o = .ok exit →
      (Command.bench o).execute w = some exit := by
  have hends := batchEnds_add source o seed a b
  have hcount : stepCount (batchEnds source o seed (a + b)) =
      stepCount (batchEnds source o seed a) +
        stepCount (batchEnds source o (seed + .ofNat a) b) := by
    rw [hends, Benchmark.stepCount_append]
  have hproduct : (a + b) * o.programs = a * o.programs + b * o.programs := Nat.add_mul _ _ _
  have hwhole := figures_eq h hprograms hsteps
  have hfirst : figures source ⟨o, seed, a⟩ = _ := figures_eq h (by omega) (by omega)
  have hsecond : figures source ⟨o, seed + .ofNat a, b⟩ = _ := figures_eq h (by omega) (by omega)
  constructor
  · refine ⟨_, _, _, ⟨hwhole, measure_of_figures hwhole⟩, ⟨hfirst, measure_of_figures hfirst⟩,
      ⟨hsecond, measure_of_figures hsecond⟩, ?_, ?_, hcount, rfl, List.countP_le_length⟩
    · simp only [Figures.ofEnds, hends, List.length_append]
    · simp only [Figures.ofEnds, hends, List.countP_append]
  · intro w o exit hexit
    rw [Command.execute, hexit]
    rfl

/-- Three batches of three programs from the last seed there is. The second of them begins
with the seed zero. -/
theorem figures_add_wrapping :
    0 < (⟨3, 6, 5, 1⟩ : Benchmark.Options).tapeSize ∧
      (1 + 2) * 3 < UInt64.size ∧
      stepCount (batchEnds .seeded ⟨3, 6, 5, 1⟩ 18446744073709551615 (1 + 2)) < UInt64.size ∧
      (Command.bench ⟨⟨3, 6, 5, 1⟩, 18446744073709551615, 3⟩).execute (.ofFiles [] [] false) =
        some (.success [] ("Benchmark results:\n  Batches:           3\n" ++
          "  Programs:          9\n  Hit step limit:    8\n  Total steps:       43\n")) ∧
      ∃ whole first second : Figures,
        figures .seeded ⟨⟨3, 6, 5, 1⟩, 18446744073709551615, 3⟩ = .ok whole ∧
        figures .seeded ⟨⟨3, 6, 5, 1⟩, 18446744073709551615, 1⟩ = .ok first ∧
        figures .seeded ⟨⟨3, 6, 5, 1⟩, 0, 2⟩ = .ok second ∧
        whole = ⟨3, 9, 8, 43⟩ ∧ first = ⟨1, 3, 3, 15⟩ ∧ second = ⟨2, 6, 5, 28⟩ ∧
        whole.programs = first.programs + second.programs ∧
        whole.unfinished = first.unfinished + second.unfinished ∧
        whole.totalSteps = first.totalSteps + second.totalSteps ∧
        whole.unfinished ≤ whole.programs := by
  have hpos : 0 < (⟨3, 6, 5, 1⟩ : Benchmark.Options).tapeSize := Nat.one_pos
  have hprograms : (1 + 2) * 3 < UInt64.size := by decide
  have hsteps : stepCount (batchEnds .seeded ⟨3, 6, 5, 1⟩ 18446744073709551615 (1 + 2)) <
      UInt64.size := by decide +kernel
  obtain ⟨⟨whole, first, second, ⟨hwhole, hprinted⟩, ⟨hfirst, -⟩, ⟨hsecond, -⟩, hadd, hadd', hadd'',
    -, hle⟩, hcommand⟩ := figures_add .seeded ⟨3, 6, 5, 1⟩ 18446744073709551615 1 2 hpos hprograms
      hsteps
  have hvalue : figures .seeded ⟨⟨3, 6, 5, 1⟩, 18446744073709551615, 3⟩ = .ok ⟨3, 9, 8, 43⟩ := by
    decide +kernel
  have hvalue' : figures .seeded ⟨⟨3, 6, 5, 1⟩, 18446744073709551615, 1⟩ = .ok ⟨1, 3, 3, 15⟩ := by
    decide +kernel
  have hvalue'' : figures .seeded ⟨⟨3, 6, 5, 1⟩, 0, 2⟩ = .ok ⟨2, 6, 5, 28⟩ := by decide +kernel
  obtain rfl : whole = ⟨3, 9, 8, 43⟩ := Except.ok.inj (hwhole.symm.trans hvalue)
  have htext : Figures.text ⟨3, 9, 8, 43⟩ = "Benchmark results:\n  Batches:           3\n" ++
      "  Programs:          9\n  Hit step limit:    8\n  Total steps:       43\n" := by
    decide +kernel
  rw [htext] at hprinted
  exact ⟨hpos, hprograms, hsteps, hcommand _ _ _ hprinted, _, first, second, hwhole, hfirst,
    hsecond, rfl, Except.ok.inj (hfirst.symm.trans hvalue'),
    Except.ok.inj (hsecond.symm.trans hvalue''), hadd, hadd', hadd'', hle⟩

/-! ### Tapes without cells -/

theorem runBatches_eq_error_iff {totals : ℕ × UInt64} {e : SetupError} :
    runBatches source o n seed totals = .error e ↔ o.tapeSize = 0 ∧ n ≠ 0 := by
  cases e
  by_cases hzero : o.tapeSize = 0
  · cases n with
    | zero => simp [runBatches]
    | succ n => simp [runBatches, (Benchmark.batch_eq_error_iff source o seed).mpr hzero, hzero]
  · obtain ⟨unfinished, steps⟩ := totals
    simp [runBatches_eq source (Nat.pos_of_ne_zero hzero), hzero]

theorem figures_eq_error_iff {o : BenchOptions} {e : SetupError} :
    figures source o = .error e ↔ o.batch.tapeSize = 0 ∧ o.batches ≠ 0 := by
  have hstops : runBatches source o.batch o.batches o.seed (0, 0) = .error e ↔ _ :=
    runBatches_eq_error_iff
  rw [figures, ← hstops]
  cases runBatches source o.batch o.batches o.seed (0, 0) <;> simp [Except.map]

/-- The command refuses a tape without cells, telling so, and no other tape. -/
def BenchOptions.RefusesEmptyTape (o : BenchOptions) (w : Surroundings) : Prop :=
  (o.batch.tapeSize = 0 → (Command.bench o).execute w =
    some ⟨1, [], "invalid configuration: tape size must be at least one cell\n"⟩) ∧
  (0 < o.batch.tapeSize → ∃ exit, (Command.bench o).execute w = some exit ∧ exit.code = 0)

theorem execute_bench_of_empty {o : BenchOptions} (w : Surroundings) (hzero : o.batch.tapeSize = 0)
    (hsome : o.batches ≠ 0) : (Command.bench o).execute w =
      some ⟨1, [], "invalid configuration: tape size must be at least one cell\n"⟩ := by
  rw [Command.execute, measure, (figures_eq_error_iff (e := .emptyTape)).mpr ⟨hzero, hsome⟩]
  rfl

theorem exists_figures {o : BenchOptions} (h : ¬ (o.batch.tapeSize = 0 ∧ o.batches ≠ 0)) :
    ∃ f, figures .seeded o = .ok f := by
  cases hfigures : figures .seeded o with
  | ok f => exact ⟨f, rfl⟩
  | error e => exact absurd (figures_eq_error_iff.mp hfigures) h

/-- The benchmark refuses a tape without cells if it has any batch to run, whatever it is
asked to run in a batch, and accepts every other tape. Without batches it accepts all tapes:
it then prints the figures of a benchmark in which nothing was run. -/
theorem refuses_empty_tape_iff (w : Surroundings) (o : BenchOptions) :
    (o.batch.tapeSize = 0 → o.batches ≠ 0 → (Command.bench o).execute w =
      some ⟨1, [], "invalid configuration: tape size must be at least one cell\n"⟩) ∧
    (¬ (o.batch.tapeSize = 0 ∧ o.batches ≠ 0) →
      ∃ f, figures .seeded o = .ok f ∧ (Command.bench o).execute w = some (.success [] f.text)) ∧
    (o.batches = 0 → figures .seeded o = .ok ⟨0, 0, 0, 0⟩) ∧
    (o.RefusesEmptyTape w ↔ (o.batch.tapeSize = 0 → o.batches ≠ 0)) := by
  have haccepts (h : ¬ (o.batch.tapeSize = 0 ∧ o.batches ≠ 0)) :
      ∃ f, figures .seeded o = .ok f ∧ (Command.bench o).execute w = some (.success [] f.text) := by
    obtain ⟨f, hf⟩ := exists_figures h
    exact ⟨f, hf, execute_bench w hf⟩
  refine ⟨execute_bench_of_empty w, haccepts, ?_, ?_, ?_⟩
  · intro hnone
    simp [figures, hnone, runBatches, Except.map]
  · rintro ⟨hempty, -⟩ hzero hnone
    obtain ⟨f, -, hexit⟩ := haccepts fun h => h.2 hnone
    simp [hempty hzero, Exit.success] at hexit
  · intro h
    refine ⟨fun hzero => execute_bench_of_empty w hzero (h hzero), fun hpos => ?_⟩
    obtain ⟨f, -, hexit⟩ := haccepts fun hboth => hpos.ne' hboth.1
    exact ⟨_, hexit, rfl⟩

/-- A benchmark of no batches on a tape without cells. -/
theorem not_refusesEmptyTape_no_batches :
    Command.ofWords? ["bench", "--tape-size=0", "--batches=0"] =
        some (.bench ⟨⟨4096, 64, 8192, 0⟩, 0, 0⟩) ∧
      execute (.ofFiles [] [] false) ["bench", "--tape-size=0", "--batches=0"] =
        some (.success [] (Figures.text ⟨0, 0, 0, 0⟩)) ∧
      ¬ BenchOptions.RefusesEmptyTape ⟨⟨4096, 64, 8192, 0⟩, 0, 0⟩ (.ofFiles [] [] false) := by
  refine ⟨by decide +kernel, by decide +kernel, ?_⟩
  rintro ⟨hempty, -⟩
  exact absurd (hempty rfl) (by decide +kernel)

end TapeMachine.CommandLine
