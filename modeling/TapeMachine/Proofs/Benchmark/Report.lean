import TapeMachine.Benchmark.Batch
import TapeMachine.Proofs.Random.Programs
import TapeMachine.Proofs.Runs.Lifetime

/-!
# What a batch reports

Every program of a batch loads, so every job runs, on a machine of its own that nobody
interrupts. What a batch reports is counted and added up from the lifetimes of these
machines, so it does not matter in which order they run.
-/
namespace TapeMachine.Benchmark

variable {o : Options} {setup : Setup} {limit : UInt64} {job : Job} {js : List Job}
  {m : Machine} {ms ms' : List Machine} {e : Ended} {seed : UInt64} {σ : Type}
  {source : Random.Source σ}

/-! ### One job -/

/-- The machine of a job at the beginning of its run, the program loaded as a text.
Nothing if the setup or the program is refused. -/
def Job.begun (job : Job) (setup : Setup) : Option Machine := do
  let m ← (Machine.ofSetup setup).toOption
  let m ← (m.load (Instruction.text job.code)).toOption
  return m.start job.input

theorem Job.begun_of_pos (h : 0 < setup.tapeSize) (job : Job) :
    job.begun setup = (Program.ofCode job.code).toOption.map fun p =>
      ((Machine.fresh setup h).install p).start job.input := by
  rw [begun, Machine.ofSetup_of_pos h]
  change ((Machine.fresh setup h).load _).toOption.bind _ = _
  rw [Machine.load, Program.instructions_text, Machine.loadCode]
  cases Program.ofCode job.code <;> rfl

theorem Job.run_of_pos (h : 0 < setup.tapeSize) (job : Job) (limit : UInt64) :
    job.run setup limit = (Program.ofCode job.code).toOption.map fun p =>
      ((Machine.fresh setup h).install p).runWithin job.input limit := by
  rw [run, Machine.ofSetup_of_pos h]
  change ((Machine.fresh setup h).loadCode _).toOption.bind _ = _
  rw [Machine.loadCode]
  cases Program.ofCode job.code <;> rfl

/-- The end of a run that a machine comes to within a limit. -/
structure EndsWithin (limit : UInt64) (m : Machine) (e : Ended) : Prop where
  outcome_eq : e.outcome = if m.lifetime ≤ limit.toNat then .completed else .outOfSteps
  steps_eq : e.machine.store.steps.toNat = m.lifetimeWithin limit.toNat

/-- Either a job is refused, or it runs as long as its machine lasts within the limit. -/
theorem Job.run_cases (h : 0 < setup.tapeSize) (job : Job) (limit : UInt64) :
    (job.begun setup = none ∧ job.run setup limit = none) ∨
      ∃ m e, job.begun setup = some m ∧ job.run setup limit = some e ∧ EndsWithin limit m e := by
  rw [begun_of_pos h, run_of_pos h]
  cases Program.ofCode job.code with
  | error e => exact .inl ⟨rfl, rfl⟩
  | ok p =>
    right
    have hcalm : (((Machine.fresh setup h).install p).start job.input).Undisturbed :=
      Machine.undisturbed_of_alarms rfl (by simp [Machine.start]) rfl
    obtain ⟨houtcome, hsteps⟩ := Machine.runWithin_of_undisturbed hcalm limit
    exact ⟨_, _, rfl, rfl, houtcome, hsteps⟩

/-! ### Counting -/

/-- The report on machines that each run within a limit. -/
noncomputable def Report.ofMachines (limit : UInt64) (ms : List Machine) : Report where
  programs := ms.length
  completed := ms.countP fun m : Machine => m.lifetime ≤ limit.toNat
  unfinished := ms.countP fun m : Machine => ¬ m.lifetime ≤ limit.toNat
  totalSteps := .ofNat (ms.map fun m => m.lifetimeWithin limit.toNat).sum

namespace Report

theorem ofMachines_nil (limit : UInt64) : ofMachines limit [] = .empty := rfl

theorem ofMachines_perm (h : ms.Perm ms') : ofMachines limit ms = ofMachines limit ms' := by
  simp only [ofMachines, h.length_eq, h.countP_eq, (h.map _).sum_eq]

theorem add_ofMachines (h : EndsWithin limit m e) :
    (ofMachines limit ms).add e = ofMachines limit (ms ++ [m]) := by
  have hsteps : e.machine.store.steps = .ofNat (m.lifetimeWithin limit.toNat) := by
    rw [← h.steps_eq, UInt64.ofNat_toNat]
  by_cases hends : m.lifetime ≤ limit.toNat
  · simp [add, ofMachines, h.outcome_eq, hends, hsteps]
  · simp [add, ofMachines, h.outcome_eq, hends, hsteps]

theorem foldl_count (h : 0 < setup.tapeSize) (ms : List Machine) :
    js.foldl (count setup limit) (ofMachines limit ms) =
      ofMachines limit (ms ++ js.filterMap (·.begun setup)) := by
  induction js generalizing ms with
  | nil => simp
  | cons job js ih =>
    rw [List.foldl_cons, count]
    rcases job.run_cases h limit with ⟨hnone, hrun⟩ | ⟨m, e, hbegun, hrun, hends⟩
    · simp [hrun, hnone, ih]
    · simp [hrun, hbegun, add_ofMachines hends, ih]

theorem completed_add_unfinished (limit : UInt64) (ms : List Machine) :
    (ofMachines limit ms).completed + (ofMachines limit ms).unfinished = ms.length := by
  have := ms.length_eq_countP_add_countP fun m : Machine => m.lifetime ≤ limit.toNat
  simpa [ofMachines] using this.symm

theorem totalSteps_ofMachines (hfits : ms.length * limit.toNat < UInt64.size) :
    ((ofMachines limit ms).totalSteps.toNat : ℕ∞) =
        (ms.map fun m : Machine => min m.lifetime limit.toNat).sum ∧
      (ofMachines limit ms).totalSteps.toNat ≤ ms.length * limit.toNat := by
  have hle : (ms.map fun m => m.lifetimeWithin limit.toNat).sum ≤ ms.length * limit.toNat := by
    have := List.sum_le_card_nsmul (ms.map fun m => m.lifetimeWithin limit.toNat) limit.toNat
    simpa [Machine.lifetimeWithin_le] using this
  have hsum : (ofMachines limit ms).totalSteps.toNat =
      (ms.map fun m => m.lifetimeWithin limit.toNat).sum :=
    UInt64.toNat_ofNat_of_lt' (hle.trans_lt hfits)
  rw [hsum]
  refine ⟨?_, hle⟩
  rw [Nat.cast_list_sum, List.map_map]
  congr 1
  exact List.map_congr_left fun m _ => m.coe_lifetimeWithin _

end Report

/-! ### The jobs of a batch -/

section Jobs

variable {programLength count : ℕ} {drawn : Array Job} {x : σ}

theorem drawJobs_succ (programLength : ℕ) (drawn : Array Job) (count : ℕ)
    (x : σ) :
    drawJobs source programLength drawn (count + 1) x =
      drawJobs source programLength (drawn.push (Job.draw source programLength x).1) count
        (Job.draw source programLength x).2 :=
  rfl

theorem size_drawJobs (programLength : ℕ) (drawn : Array Job) (count : ℕ)
    (x : σ) :
    (drawJobs source programLength drawn count x).size = drawn.size + count := by
  induction count generalizing drawn x with
  | zero => rfl
  | succ count ih =>
    rw [drawJobs_succ, ih, Array.size_push]
    omega

theorem mem_drawJobs (h : job ∈ drawJobs source programLength drawn count x) :
    job ∈ drawn ∨ ∃ x', job = (Job.draw source programLength x').1 := by
  induction count generalizing drawn x with
  | zero => exact .inl h
  | succ count ih =>
    rw [drawJobs_succ] at h
    rcases ih h with hdrawn | hlater
    · rcases Array.mem_push.mp hdrawn with hbefore | rfl
      · exact .inl hbefore
      · exact .inr ⟨x, rfl⟩
    · exact .inr hlater

end Jobs

theorem length_jobs (source : Random.Source σ) (o : Options) (seed : UInt64) :
    (jobs source o seed).length = o.programs := by
  simp [jobs, size_drawJobs]

theorem exists_ofCode_of_mem_jobs (h : job ∈ jobs source o seed) :
    ∃ p, Program.ofCode job.code = .ok p ∧ p.size = o.programLength := by
  rcases mem_drawJobs (Array.mem_toList_iff.mp h) with hnone | ⟨x, rfl⟩
  · simp at hnone
  · exact Random.exists_ofCode_compose _ _ _

theorem exists_begun_of_mem_jobs (h : 0 < o.tapeSize) (hjob : job ∈ jobs source o seed) :
    ∃ m, job.begun o.setup = some m := by
  obtain ⟨p, hp, -⟩ := exists_ofCode_of_mem_jobs hjob
  rw [Job.begun_of_pos h, hp]
  exact ⟨_, rfl⟩

def machines (source : Random.Source σ) (o : Options) (seed : UInt64) : List Machine :=
  (jobs source o seed).filterMap (·.begun o.setup)

theorem map_begun_jobs (source : Random.Source σ) (h : 0 < o.tapeSize) (seed : UInt64) :
    (jobs source o seed).map (·.begun o.setup) = (machines source o seed).map some := by
  have hbegun : ∀ job ∈ jobs source o seed, (job.begun o.setup).isSome :=
    fun _ hjob => Option.isSome_iff_exists.mpr (exists_begun_of_mem_jobs h hjob)
  rw [machines, List.map_filterMap_some_eq_filter_map_isSome, List.filter_eq_self.mpr]
  simpa using hbegun

theorem length_machines (source : Random.Source σ) (h : 0 < o.tapeSize) (seed : UInt64) :
    (machines source o seed).length = o.programs := by
  have := congrArg List.length (map_begun_jobs source h seed)
  rw [List.length_map, List.length_map, length_jobs] at this
  exact this.symm

/-- The report of jobs in whatever order they run. -/
theorem foldl_count_of_perm (h : 0 < o.tapeSize) (hperm : js.Perm (jobs source o seed)) :
    js.foldl (Report.count o.setup o.stepLimit) .empty =
      .ofMachines o.stepLimit (machines source o seed) := by
  rw [← Report.ofMachines_nil, Report.foldl_count h, List.nil_append]
  exact Report.ofMachines_perm (hperm.filterMap _)

theorem batch_of_pos (source : Random.Source σ) (h : 0 < o.tapeSize) (seed : UInt64) :
    batch source o seed = .ok (.ofMachines o.stepLimit (machines source o seed)) := by
  have hcheck : o.setup.check = .ok () := Setup.check_eq_ok_iff.mpr h
  rw [batch, hcheck, ← foldl_count_of_perm h (.refl _)]
  rfl

theorem batch_eq_error_iff (source : Random.Source σ) (o : Options) (seed : UInt64) :
    batch source o seed = .error .emptyTape ↔ o.tapeSize = 0 := by
  constructor
  · intro hrun
    by_contra hpos
    rw [batch_of_pos source (Nat.pos_of_ne_zero hpos)] at hrun
    cases hrun
  · intro hzero
    have hcheck : o.setup.check = .error .emptyTape := Setup.check_eq_error_iff.mpr hzero
    rw [batch, hcheck]
    rfl

/-! ### The ends of the jobs -/

/-- The ends that the jobs of a batch come to, in order. -/
def ends (source : Random.Source σ) (o : Options) (seed : UInt64) : List Ended :=
  (jobs source o seed).filterMap (·.run o.setup o.stepLimit)

def stepCount (es : List Ended) : ℕ :=
  (es.map fun e => e.machine.store.steps.toNat).sum

@[simp] theorem stepCount_nil : stepCount [] = 0 := rfl

@[simp] theorem stepCount_append (es es' : List Ended) :
    stepCount (es ++ es') = stepCount es + stepCount es' := by
  simp [stepCount]

def Report.ofEnds (es : List Ended) : Report where
  programs := es.length
  completed := es.countP (·.outcome ≠ .outOfSteps)
  unfinished := es.countP (·.outcome = .outOfSteps)
  totalSteps := .ofNat (stepCount es)

theorem Report.add_ofEnds (es : List Ended) (e : Ended) :
    (ofEnds es).add e = ofEnds (es ++ [e]) := by
  by_cases hstopped : e.outcome = .outOfSteps
  · simp [add, ofEnds, hstopped, stepCount]
  · simp [add, ofEnds, hstopped, stepCount]

theorem Report.foldl_count_ofEnds (es : List Ended) :
    js.foldl (count setup limit) (ofEnds es) = ofEnds (es ++ js.filterMap (·.run setup limit)) := by
  induction js generalizing es with
  | nil => simp
  | cons job js ih =>
    rw [List.foldl_cons, count]
    cases hrun : job.run setup limit with
    | none => simp [hrun, ih]
    | some e => simp [hrun, add_ofEnds, ih]

theorem batch_eq_ofEnds (source : Random.Source σ) (h : 0 < o.tapeSize) (seed : UInt64) :
    batch source o seed = .ok (.ofEnds (ends source o seed)) := by
  have hcheck : o.setup.check = .ok () := Setup.check_eq_ok_iff.mpr h
  rw [batch, hcheck]
  exact congrArg Except.ok (Report.foldl_count_ofEnds [])

theorem forall₂_ends (source : Random.Source σ) (h : 0 < o.tapeSize) (seed : UInt64) :
    List.Forall₂ (EndsWithin o.stepLimit) (machines source o seed) (ends source o seed) := by
  have hsetup : 0 < o.setup.tapeSize := h
  have hjobs : ∀ js : List Job, List.Forall₂ (EndsWithin o.stepLimit)
      (js.filterMap (·.begun o.setup)) (js.filterMap (·.run o.setup o.stepLimit)) := by
    intro js
    induction js with
    | nil => exact .nil
    | cons job js ih =>
      rcases job.run_cases hsetup o.stepLimit with ⟨hnone, hrun⟩ | ⟨m, e, hbegun, hrun, hends⟩
      · simpa only [List.filterMap_cons, hnone, hrun] using ih
      · simpa only [List.filterMap_cons, hbegun, hrun] using .cons hends ih
  exact hjobs (jobs source o seed)

theorem length_ends (source : Random.Source σ) (h : 0 < o.tapeSize) (seed : UInt64) :
    (ends source o seed).length = o.programs := by
  rw [← (forall₂_ends source h seed).length_eq, length_machines source h]

theorem stepCount_ends (source : Random.Source σ) (h : 0 < o.tapeSize) (seed : UInt64) :
    stepCount (ends source o seed) =
      ((machines source o seed).map fun m => m.lifetimeWithin o.stepLimit.toNat).sum := by
  have hsame : List.Forall₂ (· = ·)
      ((machines source o seed).map fun m => m.lifetimeWithin o.stepLimit.toNat)
      ((ends source o seed).map fun e => e.machine.store.steps.toNat) := by
    rw [List.forall₂_map_left_iff, List.forall₂_map_right_iff]
    exact (forall₂_ends source h seed).imp fun _ _ hends => hends.steps_eq.symm
  rw [List.forall₂_eq_eq_eq] at hsame
  rw [stepCount, hsame]

/-- A batch is refused only for a tape without cells. Otherwise every job of it begins,
and the report counts all of them: as completed those that end on their own within the
limit, an end with the last instruction of the limit included. As long as the limits of
all jobs fit into a word, the total is exact, each job counting the instructions that it
runs on its own or the limit. The jobs could run in any other order. -/
theorem run_eq_report (source : Random.Source σ) (o : Options) (seed : UInt64) :
    (batch source o seed = .error .emptyTape ↔ o.tapeSize = 0) ∧
    (0 < o.tapeSize → ∃ (report : Report) (ms : List Machine), batch source o seed = .ok report ∧
      (jobs source o seed).map (·.begun o.setup) = ms.map some ∧
      report.programs = o.programs ∧
      report.completed + report.unfinished = report.programs ∧
      report.completed = ms.countP (fun m : Machine => m.lifetime ≤ o.stepLimit.toNat) ∧
      (o.programs * o.stepLimit.toNat < UInt64.size →
        report.totalSteps.toNat =
            (ms.map fun m : Machine => min m.lifetime o.stepLimit.toNat).sum ∧
          report.totalSteps.toNat ≤ o.programs * o.stepLimit.toNat) ∧
      ∀ js : List Job, js.Perm (jobs source o seed) →
        js.foldl (Report.count o.setup o.stepLimit) .empty = report) := by
  refine ⟨batch_eq_error_iff source o seed, ?_⟩
  intro h
  have hlength := length_machines source h seed
  refine ⟨_, machines source o seed, batch_of_pos source h seed, map_begun_jobs source h seed,
    hlength, ?_, rfl, ?_, ?_⟩
  · exact Report.completed_add_unfinished _ _
  · rw [← hlength]
    exact Report.totalSteps_ofMachines
  · intro js hperm
    exact foldl_count_of_perm h hperm

/-- Three programs of six instructions with a limit of six. The second of them has no loop
and ends with the last instruction of the limit, the third is still in its loop. -/
theorem run_eq_report_three :
    ∃ ms : List Machine, run ⟨3, 6, 6, 1⟩ 12 = .ok ⟨3, 2, 1, 13⟩ ∧
      (jobs .seeded ⟨3, 6, 6, 1⟩ 12).map (·.begun ⟨1, true⟩) = ms.map some ∧
      ms.countP (fun m : Machine => m.lifetime ≤ 6) = 2 ∧
      (ms.map fun m : Machine => min m.lifetime 6).sum = 13 := by
  obtain ⟨-, hreport⟩ := run_eq_report .seeded ⟨3, 6, 6, 1⟩ 12
  obtain ⟨report, ms, hrun, hbegun, -, -, hcompleted, htotal, -⟩ := hreport Nat.one_pos
  have hvalue : run ⟨3, 6, 6, 1⟩ 12 = .ok ⟨3, 2, 1, 13⟩ := by decide +kernel
  obtain rfl := Except.ok.inj (hrun.symm.trans hvalue)
  exact ⟨ms, hvalue, hbegun, hcompleted.symm, (htotal (by decide)).1.symm⟩

end TapeMachine.Benchmark
