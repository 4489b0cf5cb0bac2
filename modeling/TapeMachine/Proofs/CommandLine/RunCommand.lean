import TapeMachine.CommandLine.Execute
import TapeMachine.Proofs.Machine.Course
import TapeMachine.Proofs.Runs.Agreement
import TapeMachine.Proofs.Runs.Alarms

/-!
# What the run command leaves

Both ways to run a program leave what can be read off the instructions that were executed:
a plain run their bytes and their number, a displayed one the tape lines as well. The ways
differ in how many instructions are executed and in what the end is called.
-/
namespace TapeMachine.CommandLine

variable {w : Surroundings} {o : RunOptions} {p : Program} {source : Source} {text : String}
  {setup : Setup} {l : Listener} {pace : Pace} {limit : UInt64} {ms n j k : ℕ}

/-! ### The run of a command -/

/-- The machine that the command runs a program on. -/
def RunOptions.loaded (o : RunOptions) (size_pos : 0 < o.tapeSize) (p : Program) : Machine :=
  (Machine.fresh o.setup size_pos).install p

def RunOptions.begun (o : RunOptions) (size_pos : 0 < o.tapeSize) (p : Program) (l : Listener)
    (pace : Pace) : Progress :=
  ((o.loaded size_pos p).attach l).launch (Text.queue o.input) pace

/-- The program executes `n` instructions and then comes to its end. -/
def RunOptions.EndsAfter (o : RunOptions) (size_pos : 0 < o.tapeSize) (p : Program) (n : ℕ) :
    Prop :=
  ((o.loaded size_pos p).start (Text.queue o.input)).HaltsAfter n

instance (o : RunOptions) (size_pos : 0 < o.tapeSize) (p : Program) (n : ℕ) :
    Decidable (o.EndsAfter size_pos p n) :=
  inferInstanceAs (Decidable (Machine.HaltsAfter _ n))

/-- The instructions that the program executes in up to `count` steps. -/
def RunOptions.executed (o : RunOptions) (size_pos : 0 < o.tapeSize) (p : Program) (count : ℕ) :
    List Snapshot :=
  Store.course o.io p count (.initial (.blank o.tapeSize size_pos) (Text.queue o.input))

/-- Lines for the visible instructions among those executed. -/
def tapeLines (executed : List Snapshot) : String :=
  String.ofList ((executed.filter (·.instruction.isVisible)).flatMap fun s => tapeLine s ++ ['\n'])

def plainExit (executed : List Snapshot) (outcome : Outcome) : Exit :=
  .success (executed.flatMap Snapshot.written) (report outcome (.ofNat executed.length))

def displayedExit (executed : List Snapshot) (outcome : Outcome) : Exit :=
  .success (executed.flatMap Snapshot.written)
    (tapeLines executed ++ report outcome (.ofNat executed.length))

theorem prepare_of_accepted (hsource : readSource w source = .ok text)
    (hprogram : Program.ofText text = .ok p) (h : 0 < setup.tapeSize) :
    prepare w source setup = .ok ((Machine.fresh setup h).install p) := by
  have hload : (Machine.fresh setup h).load text = .ok ((Machine.fresh setup h).install p) :=
    congrArg (Except.map (Machine.fresh setup h).install) hprogram
  rw [prepare, hsource, Machine.ofSetup_of_pos h]
  change ((Machine.fresh setup h).load text).mapError Failure.program = _
  rw [hload]
  rfl

theorem execute_run (hsource : readSource w o.source = .ok text)
    (hprogram : Program.ofText text = .ok p) (size_pos : 0 < o.tapeSize) :
    (Command.run o).execute w = (o.perform w (o.loaded size_pos p)).map settle := by
  have hprepare : prepare w o.source o.setup = .ok (o.loaded size_pos p) :=
    prepare_of_accepted hsource hprogram size_pos
  simp only [Command.execute, hprepare]

variable (size_pos : 0 < o.tapeSize)

theorem store_start_loaded : ((o.loaded size_pos p).start (Text.queue o.input)).store =
    .initial (.blank o.tapeSize size_pos) (Text.queue o.input) := by
  change Store.initial (Tape.blank o.tapeSize size_pos).clear.rewind _ = _
  rw [Tape.rewind_clear, Tape.clear_blank]

theorem undisturbed_start (hl : l.alarms = []) :
    (((o.loaded size_pos p).attach l).start (Text.queue o.input)).Undisturbed :=
  Machine.undisturbed_of_alarms hl (by simp [Machine.start]) rfl

theorem undisturbed_start_loaded :
    ((o.loaded size_pos p).start (Text.queue o.input)).Undisturbed :=
  undisturbed_start (l := .deaf) size_pos rfl

theorem take_executed (p : Program) (h : j ≤ k) :
    (o.executed size_pos p k).take j = o.executed size_pos p j :=
  Store.take_course _ _ _ h

theorem length_executed_le (p : Program) (k : ℕ) : (o.executed size_pos p k).length ≤ k :=
  Store.length_course_le _ _ _ k

theorem length_executed (hn : o.EndsAfter size_pos p n) (k : ℕ) :
    (o.executed size_pos p k).length = min n k := by
  have hlength := ((undisturbed_start_loaded size_pos).length_course rfl hn k).1
  rwa [store_start_loaded] at hlength

theorem length_executed_end (hn : o.EndsAfter size_pos p n) :
    (o.executed size_pos p n).length = n :=
  (length_executed size_pos hn n).trans (min_self n)

theorem executed_of_le (hn : o.EndsAfter size_pos p n) (hle : n ≤ k) :
    o.executed size_pos p k = o.executed size_pos p n := by
  have hsame := ((undisturbed_start_loaded size_pos).length_course rfl hn k).2 hle
  rwa [store_start_loaded] at hsame

theorem length_executed_of_le (h : ∀ n, o.EndsAfter size_pos p n → k ≤ n) :
    (o.executed size_pos p k).length = k := by
  have hcalm := undisturbed_start_loaded (p := p) size_pos
  rw [RunOptions.executed, ← store_start_loaded (p := p) size_pos]
  apply Store.length_course
  rw [← Bool.not_eq_true]
  intro hended
  obtain ⟨n, hlt, hn⟩ := Machine.exists_haltsAfter ((hcalm.walk_eq rfl k).2.mpr hended)
  exact absurd (h n hn) hlt.not_ge

/-- How far a run has come that nobody cancels, and what it has reported by then. -/
theorem advance_begun (p : Program) (l : Listener) (pace : Pace) (hl : l.alarms = [])
    (hpace : pace.cancelAt = none) (k : ℕ) :
    let out := (o.begun size_pos p l pace).advance k
    (out.1 = true ↔ ∃ n < k, o.EndsAfter size_pos p n) ∧
      out.2.machine.store.output.toList = (o.executed size_pos p k).flatMap Snapshot.written ∧
      out.2.machine.store.steps = .ofNat (o.executed size_pos p k).length ∧
      out.2.machine.cancelled = false ∧
      out.2.events.toList = (o.executed size_pos p k).flatMap
        fun s => l.heard s ++ s.instruction.pauses pace.delay := by
  have hstart : (o.begun size_pos p l pace).machine.store =
      .initial (.blank o.tapeSize size_pos) (Text.queue o.input) :=
    store_start_loaded (p := p) size_pos
  have hcalm : (o.begun size_pos p l pace).machine.Undisturbed :=
    undisturbed_start size_pos hl
  obtain ⟨hended, hstore, hcancelled, -⟩ := Progress.advance_undisturbed hcalm rfl hpace k
  have hevents : ((o.begun size_pos p l pace).advance k).2.events.toList = _ :=
    Progress.events_advance_eq hl rfl rfl hpace k
  rw [hstart] at hended hstore hevents
  refine ⟨?_, ?_, ?_, hcancelled, hevents⟩
  · have hwalk := ((undisturbed_start_loaded (p := p) size_pos).walk_eq rfl k).2
    rw [store_start_loaded] at hwalk
    rw [hended]
    exact hwalk.symm.trans
      ⟨Machine.exists_haltsAfter, fun ⟨n, hlt, hn⟩ => hn.halted_mem_iff.mpr hlt⟩
  · rw [hstore]
    exact Store.output_repeatUntil _ _ _ k
  · rw [hstore]
    exact (Store.steps_repeatUntil _ _ _ k).trans (UInt64.zero_add _)

/-! ### Plain runs -/

theorem settle_finishPlain {e : Ended} (hw : w.outputFull = false)
    (hstore : e.machine.store =
      ((o.begun size_pos p .deaf .immediate).advance k).2.machine.store) :
    settle (finishPlain w e) = plainExit (o.executed size_pos p k) e.outcome := by
  obtain ⟨-, houtput, hsteps, -, -⟩ := advance_begun size_pos p .deaf .immediate rfl rfl k
  simp [finishPlain, hw, settle, plainExit, hstore, houtput, hsteps]

/-- A run within a limit completes if the program comes to its end by then, and uses the
limit up if it does not. -/
theorem outcome_within :
    (∀ n ≤ limit.toNat, o.EndsAfter size_pos p n →
      ((o.loaded size_pos p).runWithin (Text.queue o.input) limit).outcome = .completed) ∧
    ((∀ n, o.EndsAfter size_pos p n → limit.toNat < n) →
      ((o.loaded size_pos p).runWithin (Text.queue o.input) limit).outcome = .outOfSteps) :=
  ⟨fun _ hle hn => (Machine.runWithin_of_le (undisturbed_start_loaded size_pos) hn hle).1,
    fun h => (Machine.runWithin_of_lt h).1⟩

section

variable (hw : w.outputFull = false) (hsource : readSource w o.source = .ok text)
  (hprogram : Program.ofText text = .ok p) (hdelay : o.delay = none)
include hw hsource hprogram hdelay

theorem execute_within (hlimit : o.maxSteps = some limit) :
    (Command.run o).execute w = some (plainExit (o.executed size_pos p limit.toNat)
      ((o.loaded size_pos p).runWithin (Text.queue o.input) limit).outcome) := by
  rw [execute_run hsource hprogram size_pos, RunOptions.perform, hdelay, hlimit]
  exact congrArg some (settle_finishPlain size_pos hw (Machine.store_runWithin _ _ _))

theorem execute_unlimited {exit : Exit} (hlimit : o.maxSteps = none)
    (hrun : (Command.run o).execute w = some exit) :
    ∃ n < UInt64.size, o.EndsAfter size_pos p n ∧
      exit = plainExit (o.executed size_pos p n) .completed := by
  obtain ⟨hended, -, -, hcancelled, -⟩ :=
    advance_begun size_pos p .deaf .immediate rfl rfl UInt64.size
  rw [execute_run hsource hprogram size_pos, RunOptions.perform, hdelay, hlimit] at hrun
  change (((o.loaded size_pos p).runPaced _ .immediate).map _).map _ = _ at hrun
  rw [Machine.runPaced_eq] at hrun
  split at hrun
  · next hend =>
    obtain ⟨n, hlt, hn⟩ := hended.mp hend
    refine ⟨n, hlt, hn, ?_⟩
    rw [← executed_of_le size_pos hn hlt.le]
    have hcompleted : ((o.begun size_pos p .deaf .immediate).advance UInt64.size).2.finish.outcome =
        .completed := by simp [Progress.finish, hcancelled]
    obtain rfl := Option.some.inj hrun
    rw [← hcompleted]
    exact settle_finishPlain size_pos hw rfl
  · simp at hrun

end

/-! ### Displayed runs -/

/-- What a displayed run shows of an instruction: a warning if its byte is lost, then its line
if it is visible. -/
def shownOf (w : Surroundings) (s : Snapshot) : List Char :=
  (s.written.flatMap fun _ => w.loss.toList) ++
    if s.instruction.isVisible then tapeLine s ++ ['\n'] else []

def shownText (w : Surroundings) (executed : List Snapshot) : String :=
  String.ofList (executed.flatMap (shownOf w))

theorem flatMap_pauses {β : Type} {f : Event → List β} (hf : ∀ delay, f (.paused delay) = [])
    (i : Instruction) (delay : ℕ) : (i.pauses delay).flatMap f = [] := by
  unfold Instruction.pauses
  split
  · simp [hf]
  · rfl

theorem put_out_heard (houtput : l.output = true) (hsteps : l.steps = true) (s : Snapshot)
    (delay : ℕ) :
    (l.heard s ++ s.instruction.pauses delay).flatMap written = s.written ∧
      (l.heard s ++ s.instruction.pauses delay).flatMap (shown w) = shownOf w s := by
  have hexecuted : l.hears (.executed s) = true := hsteps
  rw [List.flatMap_append, List.flatMap_append, flatMap_pauses fun _ => rfl,
    flatMap_pauses fun _ => rfl, List.append_nil, List.append_nil, l.heard_eq, Snapshot.events, List.filter_append, List.flatMap_append,
    List.flatMap_append, shownOf, Snapshot.written]
  cases s.effect with
  | wrote byte =>
    have hwrote : l.hears (.wrote byte) = true := houtput
    simp [Effect.event?, hexecuted, hwrote, written, shown]
  | moved | changed =>
    simp only [Effect.event?, Option.toList_some, List.filter_cons, List.filter_nil, hexecuted]
    split <;> simp [written, shown]
  | read | jumped | passed | ignored | halted => simp [Effect.event?, hexecuted, written, shown]

theorem shownText_append (w : Surroundings) (before after : List Snapshot) :
    shownText w (before ++ after) = shownText w before ++ shownText w after := by
  simp [shownText]

theorem flatMap_visible (executed : List Snapshot) :
    (executed.flatMap fun s => if s.instruction.isVisible then tapeLine s ++ ['\n'] else []) =
      (executed.filter (·.instruction.isVisible)).flatMap fun s => tapeLine s ++ ['\n'] := by
  induction executed with
  | nil => rfl
  | cons s executed ih =>
    rw [List.flatMap_cons, ih, List.filter_cons]
    split <;> rfl

theorem shownText_of_kept {executed : List Snapshot}
    (h : w.outputFull = true → executed.flatMap Snapshot.written = []) :
    shownText w executed = tapeLines executed := by
  have hloss : ∀ s ∈ executed, (s.written.flatMap fun _ => w.loss.toList) = [] := by
    intro s hs
    cases hw : w.outputFull with
    | false => simp [Surroundings.loss, hw]
    | true => simp [List.flatMap_eq_nil_iff.mp (h hw) s hs]
  have hlines : executed.flatMap (shownOf w) = _ :=
    List.flatMap_congr fun s hs => by rw [shownOf, hloss s hs, List.nil_append]
  rw [shownText, hlines, flatMap_visible, tapeLines]

/-- What a displayed run leaves where the output may be full. -/
def deliveredExit (w : Surroundings) (executed : List Snapshot) (outcome : Outcome) : Exit :=
  .success (if w.outputFull then [] else executed.flatMap Snapshot.written)
    (shownText w executed ++ report outcome (.ofNat executed.length))

theorem deliveredExit_of_writable (hw : w.outputFull = false) (executed : List Snapshot)
    (outcome : Outcome) : deliveredExit w executed outcome = displayedExit executed outcome := by
  have hkept : shownText w executed = tapeLines executed := shownText_of_kept (by simp [hw])
  simp [deliveredExit, displayedExit, hw, hkept]

/-- The number of the instruction with which a limit cancels a displayed run. -/
def lastShown (limit : UInt64) : ℕ := max 1 limit.toNat

theorem lastShown_pos (limit : UInt64) : 0 < lastShown limit :=
  Nat.lt_of_lt_of_le Nat.one_pos (le_max_left _ _)

theorem lastShown_lt (limit : UInt64) : lastShown limit < UInt64.size :=
  max_lt (by decide) limit.toNat_lt

theorem lastShown_of_ne_zero (h : limit ≠ 0) : lastShown limit = limit.toNat := by
  apply max_eq_right
  rw [Nat.one_le_iff_ne_zero]
  exact fun hzero => h (UInt64.toNat_inj.mp hzero)

/-- A displayed run is to be cancelled once these instructions are executed: they have used
the limit up, or written a byte to a full output. -/
def RunOptions.Due (o : RunOptions) (w : Surroundings) (executed : List Snapshot) : Prop :=
  (∃ limit, o.maxSteps = some limit ∧ lastShown limit ≤ executed.length) ∨
    w.outputFull = true ∧ executed.flatMap Snapshot.written ≠ []

theorem due_iff_of_writable (hw : w.outputFull = false) {executed : List Snapshot} :
    o.Due w executed ↔ ∃ limit, o.maxSteps = some limit ∧ lastShown limit ≤ executed.length := by
  simp [RunOptions.Due, hw]

theorem cancels_display_iff (executed : List Snapshot) :
    (display w o.maxSteps).cancels (executed.flatMap (display w o.maxSteps).heard) = true ↔
      o.Due w executed := by
  have hsteps (n : ℕ) := Alarm.counted_steps_flatMap (l := display w o.maxSteps) rfl executed n
  have houtput (n : ℕ) := Alarm.counted_output_flatMap (l := display w o.maxSteps) rfl executed n
  have halarms : (display w o.maxSteps).alarms =
      (o.maxSteps.map fun limit => ⟨.steps, lastShown limit⟩).toList ++
        if w.outputFull then [⟨.output, 1⟩] else [] := rfl
  rw [Listener.cancels, halarms, List.any_append, Bool.or_eq_true, RunOptions.Due]
  generalize executed.flatMap (display w o.maxSteps).heard = heard at hsteps houtput ⊢
  apply or_congr
  · cases o.maxSteps with
    | none => simp
    | some limit => simp [Alarm.due, hsteps, lastShown_pos]
  · cases w.outputFull with
    | false => simp
    | true =>
      simp only [if_true, List.any_cons, List.any_nil, Bool.or_false, Alarm.due, houtput,
        decide_eq_true_eq, Nat.one_pos, true_and]
      exact List.length_pos_iff

theorem heard_begun (p : Program) (l : Listener) (pace : Pace) (k : ℕ) :
    (o.begun size_pos p l pace).heard k = (o.executed size_pos p k).flatMap l.heard := by
  have hstart : (o.begun size_pos p l pace).machine.store =
      .initial (.blank o.tapeSize size_pos) (Text.queue o.input) :=
    store_start_loaded (p := p) size_pos
  rw [Progress.heard, hstart]
  rfl

/-- As long as it is not to be cancelled, a displayed run goes on as it would without a
display. -/
theorem advance_of_not_due (ms : ℕ)
    (h : ∀ k < UInt64.size, ¬ o.Due w (o.executed size_pos p k)) :
    let out := (o.begun size_pos p (display w o.maxSteps) ⟨1000 * ms, none⟩).advance UInt64.size
    (out.1 = true ↔ ∃ n < UInt64.size, o.EndsAfter size_pos p n) ∧
      out.2.machine.store.steps = .ofNat (o.executed size_pos p UInt64.size).length ∧
      out.2.machine.cancelled = false ∧
      out.2.events.toList = (o.executed size_pos p UInt64.size).flatMap fun s =>
        (display w o.maxSteps).heard s ++ s.instruction.pauses (1000 * ms) := by
  have hcalm : ∀ j < UInt64.size, ((o.begun size_pos p (display w o.maxSteps)
      ⟨1000 * ms, none⟩).advance j).2.machine.cancelRequested = false := by
    apply Progress.calm_of_not_due rfl rfl rfl
    intro k hk
    rw [heard_begun, ← Bool.not_eq_true]
    exact (cancels_display_iff _).not.mpr (h k hk)
  obtain ⟨hended, -, hsteps, hcancelled, hevents⟩ := advance_begun size_pos p
    (display w o.maxSteps).withoutAlarms ⟨1000 * ms, none⟩ rfl rfl UInt64.size
  have hsame : (o.begun size_pos p (display w o.maxSteps).withoutAlarms
      ⟨1000 * ms, none⟩).advance UInt64.size = _ :=
    Progress.advance_uncancelled hcalm
  rw [hsame] at hended hsteps hcancelled hevents
  exact ⟨hended, hsteps, hcancelled, hevents⟩

section

variable (hw : w.outputFull = false) (hsource : readSource w o.source = .ok text)
  (hprogram : Program.ofText text = .ok p) (hdelay : o.delay = some ms)
include hsource hprogram hdelay

theorem execute_displayed :
    (Command.run o).execute w =
      (((o.loaded size_pos p).attach (display w o.maxSteps)).runPaced (Text.queue o.input)
        ⟨1000 * ms, none⟩).map fun e => finishDisplayed w e (Screen.blank.addAll w e.events) := by
  rw [execute_run hsource hprogram size_pos, RunOptions.perform, hdelay]
  simp only [showRun_eq, Option.map_map]
  rfl

theorem execute_of_end {r : Progress} {executed : List Snapshot}
    (hend : (o.begun size_pos p (display w o.maxSteps) ⟨1000 * ms, none⟩).advance UInt64.size =
      (true, r))
    (hevents : r.events.toList = executed.flatMap fun s =>
      (display w o.maxSteps).heard s ++ s.instruction.pauses (1000 * ms))
    (hsteps : r.machine.store.steps = .ofNat executed.length) :
    (Command.run o).execute w = some (deliveredExit w executed r.finish.outcome) := by
  have hput (s : Snapshot) := put_out_heard (w := w) (l := display w o.maxSteps) rfl rfl s
    (1000 * ms)
  have hscreen : (Screen.blank.addAll w r.events).written.toList =
        executed.flatMap Snapshot.written ∧
      (Screen.blank.addAll w r.events).shown = shownText w executed := by
    simp [Screen.toList_written_addAll, Screen.shown_addAll, hevents, List.flatMap_assoc, hput,
      shownText, Screen.blank]
  rw [execute_displayed size_pos hsource hprogram hdelay, Machine.runPaced_of_end hend,
    Option.map_some]
  simp [finishDisplayed, deliveredExit, Progress.finish, hscreen, hsteps]

theorem execute_of_not_due (h : ∀ k < UInt64.size, ¬ o.Due w (o.executed size_pos p k)) :
    (∀ n < UInt64.size, o.EndsAfter size_pos p n →
      (Command.run o).execute w =
        some (deliveredExit w (o.executed size_pos p n) .completed)) ∧
    ((∀ n < UInt64.size, ¬ o.EndsAfter size_pos p n) → (Command.run o).execute w = none) := by
  obtain ⟨hended, hsteps, hcancelled, hevents⟩ := advance_of_not_due size_pos ms h
  constructor
  · intro n hlt hn
    rw [executed_of_le size_pos hn hlt.le] at hsteps hevents
    have houtcome : ((o.begun size_pos p (display w o.maxSteps) ⟨1000 * ms, none⟩).advance
        UInt64.size).2.finish.outcome = .completed := if_neg (Bool.eq_false_iff.mp hcancelled)
    rw [← houtcome]
    exact execute_of_end size_pos hsource hprogram hdelay
      (Prod.ext (hended.mpr ⟨n, hlt, hn⟩) rfl) hevents hsteps
  · intro hgoes
    have hgoing : ¬ ((o.begun size_pos p (display w o.maxSteps) ⟨1000 * ms, none⟩).advance
        UInt64.size).1 = true := by
      intro hend
      obtain ⟨n, hlt, hn⟩ := hended.mp hend
      exact hgoes n hlt hn
    rw [execute_displayed size_pos hsource hprogram hdelay, Machine.runPaced_eq]
    exact congrArg (Option.map _) (if_neg hgoing)

/-- The instruction by which a displayed run is to be cancelled is its last one. The run puts
out what it has executed up to there. -/
theorem execute_of_due (hbefore : ∀ j < k, ¬ o.Due w (o.executed size_pos p j))
    (hdue : o.Due w (o.executed size_pos p k)) (hlt : k < UInt64.size) :
    (o.executed size_pos p k).length = k ∧
      (Command.run o).execute w =
        some (deliveredExit w (o.executed size_pos p k) .cancelled) ∧
      ∃ e, ((o.loaded size_pos p).attach (display w o.maxSteps)).runPaced (Text.queue o.input)
          ⟨1000 * ms, none⟩ = some e ∧
        ((o.loaded size_pos p).attach (display w o.maxSteps)).CancelledAfter (Text.queue o.input)
          ⟨1000 * ms, none⟩ k e := by
  have hfirst : (o.begun size_pos p (display w o.maxSteps) ⟨1000 * ms, none⟩).FirstRequest k := by
    apply Progress.firstRequest_of_due rfl rfl rfl
    · intro j hj
      rw [heard_begun, ← Bool.not_eq_true]
      exact (cancels_display_iff _).not.mpr (hbefore j hj)
    · rw [heard_begun]
      exact (cancels_display_iff _).mpr hdue
  obtain ⟨hended, -, -, -, hevents⟩ := advance_begun size_pos p
    (display w o.maxSteps).withoutAlarms ⟨1000 * ms, none⟩ rfl rfl k
  obtain ⟨r, hend, hcancelled⟩ := Machine.advance_of_firstRequest hfirst
  have hgoes : ∀ n, o.EndsAfter size_pos p n → k ≤ n := by
    intro n hn
    by_contra hlt
    exact Bool.false_ne_true (hcancelled.ran.symm.trans (hended.mpr ⟨n, Nat.lt_of_not_ge hlt, hn⟩))
  have hlength := length_executed_of_le size_pos hgoes
  have hreported := (congrArg Array.toList hcancelled.events_eq).trans hevents
  refine ⟨hlength, ?_, r.finish, Machine.runPaced_of_end (hend _ hlt), hcancelled⟩
  rw [← hcancelled.outcome_eq]
  exact execute_of_end size_pos hsource hprogram hdelay (hend _ hlt) hreported
    (hcancelled.steps_eq.trans (congrArg UInt64.ofNat hlength.symm))

include hw

/-- A displayed run with a limit goes to the end of the program if this comes before the
instruction that stands for the limit, and is cancelled with that instruction if not. -/
theorem execute_counting (hlimit : o.maxSteps = some limit) :
    (∀ n < lastShown limit, o.EndsAfter size_pos p n →
      (Command.run o).execute w = some (displayedExit (o.executed size_pos p n) .completed)) ∧
    ((∀ n, o.EndsAfter size_pos p n → lastShown limit ≤ n) →
      (o.executed size_pos p (lastShown limit)).length = lastShown limit ∧
      (Command.run o).execute w =
        some (displayedExit (o.executed size_pos p (lastShown limit)) .cancelled)) := by
  have hdue (executed : List Snapshot) :
      o.Due w executed ↔ lastShown limit ≤ executed.length := by
    simp [due_iff_of_writable hw, hlimit]
  simp only [← deliveredExit_of_writable hw]
  constructor
  · intro n hn hends
    refine (execute_of_not_due size_pos hsource hprogram hdelay ?_).1 n
      (hn.trans (lastShown_lt limit)) hends
    intro k _
    rw [hdue, length_executed size_pos hends]
    exact (lt_of_le_of_lt (min_le_left n k) hn).not_ge
  · intro hgoes
    obtain ⟨hlength, hexit, -⟩ := execute_of_due size_pos hsource hprogram hdelay
      (fun j hj => (hdue _).not.mpr ((length_executed_le size_pos p j).trans_lt hj).not_ge)
      ((hdue _).mpr (length_executed_of_le size_pos hgoes).ge) (lastShown_lt limit)
    exact ⟨hlength, hexit⟩

theorem execute_uncounted (hlimit : o.maxSteps = none) (hn : o.EndsAfter size_pos p n)
    (hlt : n < UInt64.size) :
    (Command.run o).execute w = some (displayedExit (o.executed size_pos p n) .completed) := by
  rw [← deliveredExit_of_writable hw]
  refine (execute_of_not_due size_pos hsource hprogram hdelay ?_).1 n hlt hn
  simp [due_iff_of_writable hw, hlimit]

end

end TapeMachine.CommandLine
