import TapeMachine.Proofs.Machine.Course
import TapeMachine.Proofs.Runs.Agreement
import TapeMachine.Proofs.Runs.Cancellation

/-!
# The log of a run

Whoever listens to everything can read a run off its events: each instruction that was
executed has left one block of them, in order, and nothing else has left any. This is so
whatever ends the run, since a request for cancellation only cuts its course short.
-/
namespace TapeMachine

/-! ### Blocks of events -/

/-- The event that comes before the report of an instruction, by the kind of the instruction. -/
def Snapshot.announcement (io : Bool) (s : Snapshot) : List Event :=
  match s.instruction with
  | .moveRight | .moveLeft => [.moved s.tape.pointer]
  | .increment | .decrement => [.changed s.tape.pointer s.tape.current]
  | .write => if io then [.wrote s.tape.current] else []
  | .read | .loopStart | .loopEnd => []

/-- All that an executed instruction leaves in the log of a run with the given delay. -/
def Snapshot.block (io : Bool) (delay : ℕ) (s : Snapshot) : List Event :=
  s.announcement io ++ .executed s :: s.instruction.pauses delay

def Event.snapshot? : Event → Option Snapshot
  | .executed s => some s
  | _ => none

def Event.byte? : Event → Option UInt8
  | .wrote byte => some byte
  | _ => none

theorem Snapshot.filterMap_snapshot?_events (s : Snapshot) :
    s.events.filterMap Event.snapshot? = [s] := by
  rw [events]
  cases s.effect <;> rfl

theorem Snapshot.filterMap_byte?_events (s : Snapshot) :
    s.events.filterMap Event.byte? = s.written := by
  rw [events, written]
  cases s.effect <;> rfl

theorem Instruction.filterMap_pauses {α : Type} (i : Instruction) {delay : ℕ}
    {f : Event → Option α} (h : f (.paused delay) = none) :
    (i.pauses delay).filterMap f = [] := by
  unfold pauses
  split
  · rw [List.filterMap_cons_none h, List.filterMap_nil]
  · rfl

theorem filterMap_snapshot?_flatMap (executed : List Snapshot) (delay : ℕ) :
    (executed.flatMap fun s => s.events ++ s.instruction.pauses delay).filterMap
      Event.snapshot? = executed := by
  have hpauses (i : Instruction) : (i.pauses delay).filterMap Event.snapshot? = [] :=
    i.filterMap_pauses rfl
  simp [List.filterMap_flatMap, Snapshot.filterMap_snapshot?_events, hpauses]

theorem filterMap_byte?_flatMap (executed : List Snapshot) (delay : ℕ) :
    (executed.flatMap fun s => s.events ++ s.instruction.pauses delay).filterMap
      Event.byte? = executed.flatMap Snapshot.written := by
  have hpauses (i : Instruction) : (i.pauses delay).filterMap Event.byte? = [] :=
    i.filterMap_pauses rfl
  simp [List.filterMap_flatMap, Snapshot.filterMap_byte?_events, hpauses]

namespace Store

variable {io : Bool} {p : Program} {s : Store} {x : Instruction} {k : ℕ} {t : Snapshot}

theorem block_report (s : Store) (io : Bool) (p : Program) (x : Instruction) (delay : ℕ) :
    (s.report io p x).block io delay = (s.report io p x).events ++ x.pauses delay := by
  have hannounced :
      (s.report io p x).announcement io = (s.report io p x).effect.event?.toList := by
    cases x with
    | moveRight | moveLeft | increment | decrement => rfl
    | write | read => cases io <;> rfl
    | loopStart | loopEnd =>
      simp only [Snapshot.announcement, report, snapshot, execute, perform, jump]
      split <;> rfl
  rw [Snapshot.block, hannounced, Snapshot.events, List.append_assoc]
  rfl

theorem exists_report_of_mem_course (h : t ∈ s.course io p k) :
    ∃ s' : Store, ∃ x, p.get? s'.pc = some x ∧ t = s'.report io p x := by
  induction k generalizing s with
  | zero => cases h
  | succ k ih =>
    cases hget : p.get? s.pc with
    | none =>
      rw [course_of_end hget] at h
      cases h
    | some x =>
      rw [course_of_get? hget, List.mem_cons] at h
      rcases h with rfl | h
      · exact ⟨s, x, hget, rfl⟩
      · exact ih h

theorem get?_of_mem_course (h : t ∈ s.course io p k) : p.get? t.index = some t.instruction := by
  obtain ⟨s', x, hget, rfl⟩ := exists_report_of_mem_course h
  exact hget

theorem flatMap_block_course (s : Store) (io : Bool) (p : Program) (k delay : ℕ) :
    (s.course io p k).flatMap (Snapshot.block io delay) =
      (s.course io p k).flatMap fun t => t.events ++ t.instruction.pauses delay := by
  apply List.flatMap_congr
  intro t ht
  obtain ⟨s', x, -, rfl⟩ := exists_report_of_mem_course ht
  exact s'.block_report io p x delay

theorem index_of_mem_head?_course (h : t ∈ (s.course io p k).head?) : t.index = s.pc := by
  cases k with
  | zero => cases h
  | succ k =>
    cases hget : p.get? s.pc with
    | none =>
      rw [course_of_end hget] at h
      cases h
    | some x =>
      rw [course_of_get? hget] at h
      cases h
      rfl

/-- Each instruction is executed where the one before it has led. -/
theorem isChain_course (s : Store) (io : Bool) (p : Program) (k : ℕ) :
    (s.course io p k).IsChain fun t u => u.index = t.effect.next t.index := by
  induction k generalizing s with
  | zero => exact .nil
  | succ k ih =>
    cases hget : p.get? s.pc with
    | none =>
      rw [course_of_end hget]
      exact .nil
    | some x =>
      rw [course_of_get? hget, List.isChain_cons]
      refine ⟨?_, ih _⟩
      intro u hu
      exact (index_of_mem_head?_course hu).trans (s.pc_execute io p x)

theorem getLast?_course (s : Store) (io : Bool) (p : Program) (k : ℕ) :
    ((s.course io p k).getLast?.map fun t => (t.tape, t.output)).getD (s.tape, s.output) =
      ((repeatUntil (Store.step io p) k s).2.tape,
        (repeatUntil (Store.step io p) k s).2.output) := by
  induction k generalizing s with
  | zero => rfl
  | succ k ih =>
    cases hget : p.get? s.pc with
    | none =>
      rw [course_of_end hget, repeatUntil_succ_of_end k (step_of_end hget)]
      rfl
    | some x =>
      rw [course_of_get? hget, repeatUntil_succ_of_not_end k (step_of_get? hget), ← ih,
        List.getLast?_cons]
      cases (course io p k (s.execute io p x).2).getLast? <;> rfl

end Store

namespace Progress

variable {r : Progress} {i : Instruction}

theorem exists_machine_next (hrun : r.machine.phase = .running)
    (hran : r.machine.step.ran = some i) :
    ∃ requested, ((r.take r.machine.step).pause i).machine =
      { r.machine with
        store := (r.machine.store.execute r.machine.setup.io r.machine.program i).2
        cancelRequested := requested
        listener := r.machine.listener.after (r.machine.listener.heard
          (r.machine.store.report r.machine.setup.io r.machine.program i)) } := by
  have hstep := Machine.step_eq_of_ran hran
  rw [Machine.wake_of_running _ hrun] at hstep
  rcases (r.take r.machine.step).machine_pause_cases i with hpause | hpause
  · exact ⟨_, by rw [hpause, take, hstep]; rfl⟩
  · exact ⟨true, by rw [hpause, take, hstep]; rfl⟩

/-- However a run is listened to and cancelled, it has executed the beginning of its course:
it has reported what is heard of these instructions and the pauses after them, and it leaves
the store where they have led, except that a cancelled run has gone to the end. -/
theorem advance_eq_course (hrun : r.machine.phase = .running) (k : ℕ) :
    (repeatUntil (Store.step r.machine.setup.io r.machine.program) (stepsUntil step k r)
        r.machine.store).1 = false ∧
      (r.advance k).2.machine.store =
        { (repeatUntil (Store.step r.machine.setup.io r.machine.program) (stepsUntil step k r)
            r.machine.store).2 with pc := (r.advance k).2.machine.store.pc } ∧
      (r.advance k).2.events.toList = r.events.toList ++
        (r.machine.store.course r.machine.setup.io r.machine.program
          (stepsUntil step k r)).flatMap fun s =>
            r.machine.listener.heard s ++ s.instruction.pauses r.pace.delay := by
  induction k generalizing r with
  | zero => simp [advance_zero, stepsUntil, Store.course]
  | succ k ih =>
    cases hran : r.machine.step.ran with
    | none =>
      rw [advance_succ_of_halted k hran, stepsUntil, step_of_halted hran, take,
        (Machine.step_eq_of_halted hran).1]
      refine ⟨rfl, ?_, by simp [Store.course]⟩
      rcases r.machine.heed_cases with hheed | hheed <;> rw [hheed] <;> rfl
    | some i =>
      have hget := Machine.get?_of_ran hran
      have hstep := Machine.step_eq_of_ran hran
      rw [Machine.wake_of_running _ hrun] at hstep
      obtain ⟨requested, hnext⟩ := exists_machine_next hrun hran
      obtain ⟨hevents, hdelay⟩ := events_pause (r.take r.machine.step) i
      obtain ⟨hgoes, hstore, hlog⟩ :=
        ih (r := (r.take r.machine.step).pause i) (by rw [hnext]; exact hrun)
      rw [hnext] at hgoes hstore hlog
      rw [advance_succ_of_ran k hran, stepsUntil, step_of_ran hran,
        repeatUntil_succ_of_not_end _ (Store.step_of_get? hget), Store.course_of_get? hget]
      refine ⟨hgoes, hstore, ?_⟩
      rw [hlog, hevents, hdelay, hstep]
      simp [take, Machine.execute, Store.report, Store.snapshot]

end Progress

theorem Listener.heard_of_listensTo {l : Listener} (hall : ∀ channel, l.listensTo channel = true)
    (s : Snapshot) : l.heard s = s.events := by
  rw [l.heard_eq, List.filter_eq_self]
  intro e _
  cases e <;> simp [hears, Event.channel?, hall]

namespace Machine

variable {m : Machine} {input : Array UInt8} {pace : Pace} {e : Ended} {count : ℕ}

/-- The events of a run that has ended are those of the instructions `executed`, in order. -/
structure Logged (m : Machine) (input : Array UInt8) (delay : ℕ) (e : Ended)
    (executed : List Snapshot) : Prop where
  executed_eq : executed = (m.start input).store.course m.setup.io m.program executed.length
  get?_index : ∀ s ∈ executed, m.program.get? s.index = some s.instruction
  events_eq : e.events.toList = executed.flatMap (Snapshot.block m.setup.io delay)
  reports_eq : e.events.toList.filterMap Event.snapshot? = executed
  written_eq : e.events.toList.filterMap Event.byte? = e.machine.store.output.toList
  steps_eq : e.machine.store.steps.toNat = executed.length
  first : ∀ s ∈ executed.head?, s.index = 0
  consecutive : executed.IsChain fun s t => t.index = s.effect.next s.index
  last : ∀ s ∈ executed.getLast?,
    s.tape = e.machine.store.tape ∧ s.output = e.machine.store.output

theorem logged_of_advance (hall : ∀ channel, m.listener.listensTo channel = true)
    (hlt : stepsUntil Progress.step count (m.launch input pace) < UInt64.size)
    (hstore : e.machine.store = ((m.launch input pace).advance count).2.machine.store)
    (hevents : e.events = ((m.launch input pace).advance count).2.events) :
    ∃ executed, m.Logged input pace.delay e executed := by
  obtain ⟨hgoes, hcourse, hlog⟩ := Progress.advance_eq_course (r := m.launch input pace) rfl count
  rw [← hstore] at hcourse
  rw [← hevents] at hlog
  generalize stepsUntil Progress.step count (m.launch input pace) = n at *
  change (repeatUntil (Store.step m.setup.io m.program) n (m.start input).store).1 = false at hgoes
  change e.machine.store =
    { (repeatUntil (Store.step m.setup.io m.program) n (m.start input).store).2 with
      pc := e.machine.store.pc } at hcourse
  have hlength := Store.length_course hgoes
  have hlast := (m.start input).store.getLast?_course m.setup.io m.program n
  have hsteps := (m.start input).store.steps_repeatUntil m.setup.io m.program n
  have houtput := (m.start input).store.output_repeatUntil m.setup.io m.program n
  have hoccurs : e.events.toList = ((m.start input).store.course m.setup.io m.program n).flatMap
      fun s => s.events ++ s.instruction.pauses pace.delay := by
    simpa [Listener.heard_of_listensTo hall, launch] using hlog
  exact ⟨(m.start input).store.course m.setup.io m.program n, {
    executed_eq := by rw [hlength]
    get?_index := fun s hs => Store.get?_of_mem_course hs
    events_eq := hoccurs.trans (Store.flatMap_block_course _ _ _ _ _).symm
    reports_eq := by rw [hoccurs, filterMap_snapshot?_flatMap]
    written_eq := by
      rw [hoccurs, filterMap_byte?_flatMap, hcourse, houtput]
      rfl
    steps_eq := by
      rw [hcourse, hsteps, hlength]
      exact (congrArg UInt64.toNat (UInt64.zero_add _)).trans (UInt64.toNat_ofNat_of_lt' hlt)
    first := fun s hs => Store.index_of_mem_head?_course hs
    consecutive := Store.isChain_course _ _ _ n
    last := by
      intro s hs
      rw [Option.mem_def.mp hs, Option.map_some, Option.getD_some, Prod.mk.injEq] at hlast
      rw [hcourse]
      exact hlast }⟩

theorem events_runWithin (m : Machine) (input : Array UInt8) (limit : UInt64) :
    (m.runWithin input limit).events =
      ((m.launch input .immediate).advance limit.toNat).2.events := by
  rw [runWithin_eq, (m.advance_launch_immediate input limit.toNat).2.1]
  dsimp only
  split <;> rfl

theorem logged_runPaced (hall : ∀ channel, m.listener.listensTo channel = true)
    (hrun : m.runPaced input pace = some e) : ∃ executed, m.Logged input pace.delay e executed := by
  obtain ⟨hended, rfl⟩ := runPaced_eq_some_iff.mp hrun
  rw [Progress.advance_eq] at hended
  exact logged_of_advance hall (stepsUntil_lt hended) rfl rfl

/-- If all channels are listened to, the events of a run are one block for each instruction
that it executed, in order: the event for its kind, if there is one, its report and, in a
paced run with a delay, a pause if it is visible. The run may end in any way. The reports
are as many as the steps that the machine counts, the bytes written are its output, the last
report shows its tape and its output, and each report is of the instruction that the one
before has led to. -/
theorem log_eq_blocks (m : Machine) (input : Array UInt8)
    (hall : ∀ channel, m.listener.listensTo channel = true) :
    (∀ e, m.run input = some e → ∃ executed, m.Logged input 0 e executed) ∧
    (∀ limit, ∃ executed, m.Logged input 0 (m.runWithin input limit) executed) ∧
    ∀ pace e, m.runPaced input pace = some e →
      ∃ executed, m.Logged input pace.delay e executed := by
  refine ⟨fun e hrun => logged_runPaced hall hrun, ?_, fun pace e hrun => logged_runPaced hall hrun⟩
  intro limit
  have hlt : stepsUntil Progress.step limit.toNat (m.launch input .immediate) < UInt64.size :=
    (stepsUntil_le _ _ _).trans_lt limit.toNat_lt_size
  have hlogged := logged_of_advance hall hlt (m.store_runWithin input limit)
    (m.events_runWithin input limit)
  exact hlogged

/-- A machine with `+[,.]` that is asked to cancel when it writes for the second time. -/
def relayMachine : Machine :=
  (loaded relay).attach (.ofChannels [.moves, .changes, .output, .steps] [⟨.output, 2⟩])

/-- A paced run that goes back to the beginning of its loop once and is then cancelled. -/
theorem log_eq_blocks_relay :
    (∀ channel, relayMachine.listener.listensTo channel = true) ∧
      ∃ e executed, relayMachine.runPaced #[7] ⟨5, none⟩ = some e ∧ e.outcome = .cancelled ∧
        e.events.toList.map Event.channel? =
          [some .changes, some .steps, none, some .steps, some .steps, some .output, some .steps,
            none, some .steps, some .steps, some .output, some .steps, none] ∧
        relayMachine.Logged #[7] 5 e executed ∧
        executed.map Snapshot.index = [0, 1, 2, 3, 4, 2, 3] := by
  have hall : ∀ channel, relayMachine.listener.listensTo channel = true := by
    intro channel
    cases channel <;> rfl
  have hrequest : (relayMachine.launch #[7] ⟨5, none⟩).FirstRequest 7 := by decide +kernel
  obtain ⟨r, hend, hcancelled⟩ := advance_of_firstRequest hrequest
  have hrun : relayMachine.runPaced #[7] ⟨5, none⟩ = some r.finish :=
    runPaced_of_end (hend UInt64.size (by decide))
  have hevents : r.finish.events = ((relayMachine.launch #[7] ⟨5, none⟩).advance 8).2.events := by
    rw [hend 8 (by decide)]
    rfl
  obtain ⟨executed, hlogged⟩ := (log_eq_blocks relayMachine #[7] hall).2.2 ⟨5, none⟩ _ hrun
  refine ⟨hall, r.finish, executed, hrun, hcancelled.outcome_eq, ?_, hlogged, ?_⟩
  · rw [hevents]
    decide +kernel
  · rw [← hlogged.reports_eq, hevents]
    decide +kernel

end Machine

end TapeMachine
