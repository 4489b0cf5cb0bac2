import TapeMachine.Proofs.Benchmark.Report

/-!
# Larger batches and larger limits

The jobs of a batch are drawn one after the other, before any of them runs. So those of a
small batch are the first ones of a large batch, and a larger limit is given to the same
jobs: it leaves alone what has completed and lets the others go on.
-/
namespace TapeMachine.Benchmark

variable {o : Options} {seed limit limit' : UInt64} {m : Machine}
  {e e' : Ended} {σ : Type} {source : Random.Source σ}

theorem toNat_totalSteps (h : 0 < o.tapeSize)
    (hfits : stepCount (ends source o seed) < UInt64.size) :
    (Report.ofMachines o.stepLimit (machines source o seed)).totalSteps.toNat =
      stepCount (ends source o seed) := by
  have hreport := (batch_of_pos source h seed).symm.trans (batch_eq_ofEnds source h seed)
  rw [Except.ok.inj hreport]
  exact UInt64.toNat_ofNat_of_lt' hfits

/-! ### More jobs -/

section

variable {programLength : ℕ}

theorem toList_prefix_drawJobs (drawn : Array Job) (count : ℕ) (x : σ) :
    drawn.toList <+: (drawJobs source programLength drawn count x).toList := by
  induction count generalizing drawn x with
  | zero => exact List.prefix_rfl
  | succ count ih =>
    rw [drawJobs_succ]
    refine List.IsPrefix.trans ?_ (ih _ _)
    rw [Array.toList_push]
    exact List.prefix_append _ _

theorem drawJobs_prefix_add (drawn : Array Job) (count more : ℕ) (x : σ) :
    (drawJobs source programLength drawn count x).toList <+:
      (drawJobs source programLength drawn (count + more) x).toList := by
  induction count generalizing drawn x with
  | zero =>
    rw [Nat.zero_add]
    exact toList_prefix_drawJobs drawn more x
  | succ count ih =>
    rw [Nat.succ_add, drawJobs_succ, drawJobs_succ]
    exact ih _ _

end

variable (source) {programs : ℕ}

theorem jobs_prefix_of_le (h : o.programs ≤ programs) (seed : UInt64) :
    jobs source o seed <+: jobs source { o with programs } seed := by
  obtain ⟨more, rfl⟩ := Nat.exists_eq_add_of_le h
  exact drawJobs_prefix_add _ _ _ _

theorem jobs_eq_take (h : o.programs ≤ programs) (seed : UInt64) :
    jobs source o seed = (jobs source { o with programs } seed).take o.programs := by
  have htake := List.prefix_iff_eq_take.mp (jobs_prefix_of_le source h seed)
  rwa [length_jobs] at htake

theorem machines_prefix_of_le (h : o.programs ≤ programs) (seed : UInt64) :
    machines source o seed <+: machines source { o with programs } seed :=
  (jobs_prefix_of_le source h seed).filterMap _

theorem run_le_of_programs (h : 0 < o.tapeSize) (hle : o.programs ≤ programs) (seed : UInt64) :
    let report := Report.ofMachines o.stepLimit (machines source o seed)
    let larger := Report.ofMachines o.stepLimit (machines source { o with programs } seed)
    report.completed ≤ larger.completed ∧ report.unfinished ≤ larger.unfinished ∧
      (stepCount (ends source { o with programs } seed) < UInt64.size →
        report.totalSteps ≤ larger.totalSteps) := by
  have hinitial := machines_prefix_of_le source hle seed
  refine ⟨hinitial.sublist.countP_le, hinitial.sublist.countP_le, ?_⟩
  intro hfits
  have hends : stepCount (ends source o seed) ≤
      stepCount (ends source { o with programs } seed) := by
    obtain ⟨rest, hrest⟩ : ends source o seed <+: ends source { o with programs } seed :=
      (jobs_prefix_of_le source hle seed).filterMap _
    rw [← hrest, stepCount_append]
    exact Nat.le_add_right _ _
  have hlarger := toNat_totalSteps (o := { o with programs }) h hfits
  rw [UInt64.le_iff_toNat_le, toNat_totalSteps h (hends.trans_lt hfits)]
  exact hends.trans_eq hlarger.symm

/-! ### A larger limit -/

/-- A machine that has come to its end within a limit does the same within a larger one. -/
theorem EndsWithin.completed_mono (h : EndsWithin limit m e) (h' : EndsWithin limit' m e')
    (hle : limit ≤ limit') (hcompleted : e.outcome = .completed) :
    e'.outcome = .completed ∧ e'.machine.store.steps = e.machine.store.steps := by
  have hlimits : (limit.toNat : ℕ∞) ≤ limit'.toNat := Nat.cast_le.mpr hle
  have hlasts : m.lifetime ≤ limit.toNat := by
    by_contra hlonger
    rw [h.outcome_eq, if_neg hlonger] at hcompleted
    cases hcompleted
  have hlasts' := hlasts.trans hlimits
  refine ⟨by rw [h'.outcome_eq, if_pos hlasts'], ?_⟩
  rw [← UInt64.toNat_inj, h.steps_eq, h'.steps_eq, Machine.lifetimeWithin, Machine.lifetimeWithin,
    min_eq_left hlasts, min_eq_left hlasts']

variable {source} in
theorem exists_run_of_mem_jobs {job : Job} (h : 0 < o.tapeSize) (hjob : job ∈ jobs source o seed) :
    ∃ m, ∀ limit, ∃ e, job.run o.setup limit = some e ∧ EndsWithin limit m e := by
  have hsetup : 0 < o.setup.tapeSize := h
  obtain ⟨m, hbegun⟩ := exists_begun_of_mem_jobs h hjob
  refine ⟨m, fun limit => ?_⟩
  rcases job.run_cases hsetup limit with ⟨hnone, -⟩ | ⟨m', e, hbegun', hrun, hends⟩
  · cases hbegun.symm.trans hnone
  · obtain rfl := Option.some.inj (hbegun'.symm.trans hbegun)
    exact ⟨e, hrun, hends⟩

/-- With a larger limit no job completes less, and none executes less. -/
theorem run_le_of_limit (h : 0 < o.tapeSize) (hle : o.stepLimit ≤ limit) (seed : UInt64) :
    let report := Report.ofMachines o.stepLimit (machines source o seed)
    let longer := Report.ofMachines limit (machines source o seed)
    report.completed ≤ longer.completed ∧ longer.unfinished ≤ report.unfinished ∧
      (stepCount (ends source { o with stepLimit := limit } seed) < UInt64.size →
        report.totalSteps ≤ longer.totalSteps) := by
  have hlimits : (o.stepLimit.toNat : ℕ∞) ≤ limit.toNat := Nat.cast_le.mpr hle
  refine ⟨?_, ?_, ?_⟩
  · apply List.countP_mono_left
    intro m _ hends
    simp only [decide_eq_true_eq] at hends ⊢
    exact hends.trans hlimits
  · apply List.countP_mono_left
    intro m _ hlasts
    simp only [decide_eq_true_eq] at hlasts ⊢
    exact fun hends => hlasts (hends.trans hlimits)
  · intro hfits
    have hends : stepCount (ends source o seed) ≤
        stepCount (ends source { o with stepLimit := limit } seed) := by
      rw [stepCount_ends source h, stepCount_ends source (o := { o with stepLimit := limit }) h]
      exact List.sum_le_sum fun m _ => m.lifetimeWithin_mono hle
    have hlonger := toNat_totalSteps (o := { o with stepLimit := limit }) h hfits
    rw [UInt64.le_iff_toNat_le, toNat_totalSteps h (hends.trans_lt hfits)]
    exact hends.trans_eq hlonger.symm

/-- The jobs of a batch depend on neither its limit nor its tapes, and they are the first
ones of every larger batch. So with a larger limit as many jobs complete or more, and as
many are left unfinished or fewer; a job that has completed does so again after as many
steps. With more programs there are as many of both or more. In both cases the total does
not go down, as long as it can be counted in a word. -/
theorem run_monotone (o : Options) (seed : UInt64) (h : 0 < o.tapeSize) :
    (∀ limit tapeSize,
      jobs source { o with stepLimit := limit, tapeSize } seed = jobs source o seed) ∧
    (∀ programs, o.programs ≤ programs →
      jobs source o seed = (jobs source { o with programs } seed).take o.programs) ∧
    ∃ report, batch source o seed = .ok report ∧
      (∀ limit, o.stepLimit ≤ limit →
        ∃ longer, batch source { o with stepLimit := limit } seed = .ok longer ∧
          report.completed ≤ longer.completed ∧ longer.unfinished ≤ report.unfinished ∧
          (stepCount (ends source { o with stepLimit := limit } seed) < UInt64.size →
            report.totalSteps ≤ longer.totalSteps) ∧
          ∀ job ∈ jobs source o seed, ∃ e e', job.run o.setup o.stepLimit = some e ∧
            job.run o.setup limit = some e' ∧
            (e.outcome = .completed →
              e'.outcome = .completed ∧ e'.machine.store.steps = e.machine.store.steps)) ∧
      ∀ programs, o.programs ≤ programs →
        ∃ larger, batch source { o with programs } seed = .ok larger ∧
          report.completed ≤ larger.completed ∧ report.unfinished ≤ larger.unfinished ∧
          (stepCount (ends source { o with programs } seed) < UInt64.size →
            report.totalSteps ≤ larger.totalSteps) := by
  refine ⟨fun _ _ => rfl, fun _ hle => jobs_eq_take source hle seed, _, batch_of_pos source h seed,
    ?_, ?_⟩
  · intro limit hle
    obtain ⟨hcompleted, hunfinished, htotal⟩ := run_le_of_limit source h hle seed
    refine ⟨_, batch_of_pos source (o := { o with stepLimit := limit }) h seed, hcompleted,
      hunfinished, htotal, ?_⟩
    intro job hjob
    obtain ⟨m, hends⟩ := exists_run_of_mem_jobs h hjob
    obtain ⟨e, hrun, hwithin⟩ := hends o.stepLimit
    obtain ⟨e', hrun', hwithin'⟩ := hends limit
    exact ⟨e, e', hrun, hrun', hwithin.completed_mono hwithin' hle⟩
  · intro programs hle
    exact ⟨_, batch_of_pos source (o := { o with programs }) h seed,
      run_le_of_programs source h hle seed⟩

/-- Three programs of six instructions, first with a limit of five. One more lets the second
of them end, and two more programs bring no other end. -/
theorem run_monotone_three :
    0 < (⟨3, 6, 5, 1⟩ : Options).tapeSize ∧
      ∃ report longer larger, run ⟨3, 6, 5, 1⟩ 12 = .ok report ∧
        run ⟨3, 6, 6, 1⟩ 12 = .ok longer ∧ run ⟨5, 6, 5, 1⟩ 12 = .ok larger ∧
        report = ⟨3, 1, 2, 11⟩ ∧ longer = ⟨3, 2, 1, 13⟩ ∧ larger = ⟨5, 1, 4, 21⟩ ∧
        (report.completed ≤ longer.completed ∧ longer.unfinished ≤ report.unfinished ∧
          report.totalSteps ≤ longer.totalSteps) ∧
        report.completed ≤ larger.completed ∧ report.unfinished ≤ larger.unfinished ∧
          report.totalSteps ≤ larger.totalSteps := by
  have hpos : 0 < (⟨3, 6, 5, 1⟩ : Options).tapeSize := Nat.one_pos
  obtain ⟨-, -, report, hrun, hlimit, hprograms⟩ := run_monotone .seeded ⟨3, 6, 5, 1⟩ 12 hpos
  obtain ⟨longer, hlonger, hcompleted, hunfinished, htotal, -⟩ := hlimit 6 (by decide)
  obtain ⟨larger, hlarger, hcompleted', hunfinished', htotal'⟩ := hprograms 5 (by decide)
  have hvalue : run ⟨3, 6, 5, 1⟩ 12 = .ok ⟨3, 1, 2, 11⟩ := by decide +kernel
  have hvalue' : run ⟨3, 6, 6, 1⟩ 12 = .ok ⟨3, 2, 1, 13⟩ := by decide +kernel
  have hvalue'' : run ⟨5, 6, 5, 1⟩ 12 = .ok ⟨5, 1, 4, 21⟩ := by decide +kernel
  exact ⟨hpos, report, longer, larger, hrun, hlonger, hlarger,
    Except.ok.inj (hrun.symm.trans hvalue), Except.ok.inj (hlonger.symm.trans hvalue'),
    Except.ok.inj (hlarger.symm.trans hvalue''),
    ⟨hcompleted, hunfinished, htotal (by decide +kernel)⟩, hcompleted', hunfinished',
    htotal' (by decide +kernel)⟩

end TapeMachine.Benchmark
