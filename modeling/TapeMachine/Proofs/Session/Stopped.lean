import TapeMachine.Proofs.Machine.Stepping
import TapeMachine.Proofs.Session.Soundness

/-!
# Machines that have stopped

A machine has stopped when it is halted, or running with a request for cancellation
still to obey. Only a new program or a new run lets it execute another instruction;
whatever else is done with it, its memory and its queues stay as they are. A request to
an idle machine, by contrast, stops nothing.
-/
namespace TapeMachine

namespace Machine

/-- The machine is halted, or will be before it runs another instruction. -/
def Stopped (m : Machine) : Prop :=
  m.phase = .halted ∨ m.phase = .running ∧ m.cancelRequested = true

/-- From `m` to `m'` nothing has run; only the program counter may have left its place. -/
structure Frozen (m m' : Machine) : Prop where
  program_eq : m'.program = m.program
  store_eq : m'.store = { m.store with pc := m'.store.pc }

variable {m m' m'' : Machine}

theorem Frozen.refl (m : Machine) : m.Frozen m :=
  ⟨rfl, rfl⟩

theorem Frozen.trans (h : m.Frozen m') (h' : m'.Frozen m'') : m.Frozen m'' :=
  ⟨h'.program_eq.trans h.program_eq, by rw [h'.store_eq, h.store_eq]⟩

theorem frozen_heed (m : Machine) : m.Frozen m.heed := by
  rcases m.heed_cases with hheed | hheed
  · rw [hheed]
    exact .refl m
  · rw [hheed]
    exact ⟨rfl, rfl⟩

theorem Stopped.atRest_heed (h : m.Stopped) (hrest : m.phase = .halted → m.AtRest) :
    m.heed.AtRest ∧ m.step = ⟨m.heed, none, .halted, []⟩ ∧ m.cancel = m.heed := by
  rcases h with hhalted | ⟨hrunning, hrequested⟩
  · rw [heed_of_halted hhalted]
    exact ⟨hrest hhalted, (hrest hhalted).step, by simp [cancel, hhalted]⟩
  · rw [heed_of_requested hrunning hrequested]
    exact ⟨⟨rfl, Array.getElem?_size⟩, step_of_requested hrunning hrequested,
      by simp [cancel, hrunning]⟩

theorem Stopped.walk_succ (h : m.Stopped) (hrest : m.phase = .halted → m.AtRest) (k : ℕ) :
    m.walk (k + 1) = ⟨m.heed, List.replicate (k + 1) .halted, []⟩ := by
  obtain ⟨hheed, hstep, -⟩ := h.atRest_heed hrest
  rw [walk, hstep]
  simp only [hheed.walk]
  rfl

theorem step_of_idle {x : Instruction} (h : m.phase = .idle)
    (hget : m.program.get? m.store.pc = some x) : m.step = m.wake.execute x := by
  have hheed := heed_of_idle h
  rw [step_of_get? (by rwa [hheed]), hheed]

end Machine

namespace Session

/-- Whether an operation can make instructions run again: it brings a new program or
begins a run. -/
def Operation.revives : Operation → Bool
  | .load source =>
    match Program.ofText source with
    | .ok _ => true
    | .error _ => false
  | .start _ | .run _ | .runWithin _ _ | .runPaced _ _ => true
  | .step _ | .cancel | .requestCancel | .attach _ | .judge _ | .showProgram | .describe => false

/-- Whether an operation makes a machine that has stopped halt. -/
def Operation.settles : Operation → Bool
  | .step count => 0 < count
  | .cancel => true
  | _ => false

/-- Nothing ran: there is no event, and every step found the machine at its end. -/
structure Response.Still (r : Response) : Prop where
  events_eq : r.events = []
  halted : ∀ effects, r.reply = .effects effects → ∀ e ∈ effects, e = .halted

def last (m : Machine) : List Response → Machine
  | [] => m
  | r :: rs => last r.machine rs

variable {setup : Setup} {past : History} {m : Machine} {op : Operation} {ops : List Operation}

theorem still_quiet (m : Machine) {reply : Reply} (h : ∀ effects, reply ≠ .effects effects) :
    (Response.quiet m reply).Still :=
  ⟨rfl, fun effects heq => absurd heq (h effects)⟩

theorem Sound.atRest (h : Sound setup past m) (hhalted : m.phase = .halted) : m.AtRest :=
  ⟨hhalted, Array.getElem?_eq_none_iff.mpr (h.pc_of_halted hhalted).ge⟩

/-- A machine that has stopped stays so under every operation that does not revive it. -/
theorem Sound.apply_of_stopped (h : Sound setup past m) (hstopped : m.Stopped)
    (hop : op.revives = false) :
    ∃ r, op.apply m = some r ∧ r.Still ∧ m.Frozen r.machine ∧ r.machine.Stopped ∧
      (m.phase = .halted ∨ op.settles = true → r.machine.phase = .halted) := by
  obtain ⟨hheed, -, hcancel⟩ := hstopped.atRest_heed h.atRest
  cases op with
  | load source =>
    cases hcode : Program.ofText source with
    | ok p => simp [Operation.revives, hcode] at hop
    | error e =>
      have hload := load_of_refused m hcode
      refine ⟨.quiet m (.refused e), by simp [Operation.apply, hload],
        still_quiet m (by simp), .refl m, hstopped, ?_⟩
      simp [Operation.settles, Response.quiet]
  | start | run | runWithin | runPaced => simp [Operation.revives] at hop
  | step count =>
    cases count with
    | zero =>
      exact ⟨_, rfl, ⟨rfl, by simp [Machine.walk]⟩, .refl m, hstopped,
        by simp [Operation.settles, Machine.walk]⟩
    | succ count =>
      refine ⟨_, rfl, ?_⟩
      rw [hstopped.walk_succ h.atRest]
      refine ⟨⟨rfl, ?_⟩, m.frozen_heed, .inl hheed.1, fun _ => hheed.1⟩
      intro effects heq e he
      obtain rfl := Reply.effects.inj heq
      exact List.eq_of_mem_replicate he
  | cancel =>
    refine ⟨.quiet m.cancel .done, rfl, still_quiet _ (by simp), ?_⟩
    change m.Frozen m.cancel ∧ m.cancel.Stopped ∧ _
    rw [hcancel]
    exact ⟨m.frozen_heed, .inl hheed.1, fun _ => hheed.1⟩
  | requestCancel =>
    refine ⟨.quiet m.requestCancel .done, rfl, still_quiet _ (by simp), ⟨rfl, rfl⟩, ?_,
      by simp [Operation.settles, Response.quiet, Machine.requestCancel]⟩
    exact hstopped.imp_right fun hrunning => ⟨hrunning.1, rfl⟩
  | attach listener =>
    exact ⟨.quiet (m.attach listener) (.text listener.describe), rfl, still_quiet _ (by simp),
      ⟨rfl, rfl⟩, hstopped, by simp [Operation.settles, Response.quiet, Machine.attach]⟩
  | judge | showProgram | describe =>
    exact ⟨_, rfl, still_quiet m (by simp), .refl m, hstopped,
      by simp [Operation.settles, Response.quiet]⟩

theorem Sound.applyAll_of_stopped (h : Sound setup past m) (hstopped : m.Stopped)
    (hops : ∀ op ∈ ops, op.revives = false) :
    ∃ rs, applyAll m ops = some rs ∧
      (∀ r ∈ rs, r.Still ∧ m.Frozen r.machine ∧ r.machine.Stopped) ∧
      (m.phase = .halted ∨ (∃ op ∈ ops, op.settles = true) →
        (last m rs).phase = .halted ∧ (last m rs).store.pc = m.program.size) := by
  induction ops generalizing m past with
  | nil =>
    refine ⟨[], rfl, by simp, ?_⟩
    rintro (hhalted | ⟨op, hop, -⟩)
    · exact ⟨hhalted, h.pc_of_halted hhalted⟩
    · simp at hop
  | cons op ops ih =>
    obtain ⟨hop, hrest⟩ := List.forall_mem_cons.mp hops
    obtain ⟨r, happly, hstill, hfrozen, hstopped', hsettled⟩ := h.apply_of_stopped hstopped hop
    obtain ⟨rs, hall, hresponses, hlast⟩ := ih (h.apply happly) hstopped' hrest
    refine ⟨r :: rs, by simp [applyAll, happly, hall], ?_, ?_⟩
    · rw [List.forall_mem_cons]
      refine ⟨⟨hstill, hfrozen, hstopped'⟩, ?_⟩
      intro r' hr'
      obtain ⟨hstill', hfrozen', hstopped''⟩ := hresponses r' hr'
      exact ⟨hstill', hfrozen.trans hfrozen', hstopped''⟩
    · intro hend
      rw [← hfrozen.program_eq]
      apply hlast
      rcases hend with hhalted | ⟨op', hmem, hop'⟩
      · exact .inl (hsettled (.inl hhalted))
      · rcases List.mem_cons.mp hmem with rfl | hmem
        · exact .inl (hsettled (.inr hop'))
        · exact .inr ⟨op', hmem, hop'⟩

/-- Requests for cancellation leave an idle machine as it is, up to the request. -/
theorem applyAll_of_idle (hidle : m.phase = .idle)
    (hops : ∀ op ∈ ops, op = .cancel ∨ op = .requestCancel) :
    ∃ rs, applyAll m ops = some rs ∧ (last m rs = m ∨ last m rs = m.requestCancel) := by
  induction ops generalizing m with
  | nil => exact ⟨[], rfl, .inl rfl⟩
  | cons op ops ih =>
    obtain ⟨hop, hrest⟩ := List.forall_mem_cons.mp hops
    rcases hop with rfl | rfl
    · have hcancel : m.cancel = m := by simp [Machine.cancel, hidle]
      obtain ⟨rs, hall, hlast⟩ := ih hidle hrest
      refine ⟨.quiet m .done :: rs, ?_, hlast⟩
      simp [applyAll, Operation.apply, hcancel, Response.quiet, hall]
    · obtain ⟨rs, hall, hlast⟩ := ih (m := m.requestCancel) hidle hrest
      refine ⟨.quiet m.requestCancel .done :: rs, ?_, .inr ?_⟩
      · simp [applyAll, Operation.apply, Response.quiet, hall]
      · rcases hlast with hlast | hlast
        · exact hlast
        · exact hlast

/-- Whatever is done with a reached machine that has stopped, short of a program that
loads and of a new run: every step finds the end, nothing is reported, and the program,
the tape, the queues and the count of steps stay as they are. Once it has halted or is
stepped or cancelled, it is halted at the end of its program from then on. An idle
machine with a program to run executes the first instruction at its next step, however
often cancellation was asked for, as if it had not been: it has the effect of that
instruction and reports it, and is running. -/
theorem stopped_until_revived (h : Reached setup m past) :
    (m.Stopped → ∀ ops : List Operation, (∀ op ∈ ops, op.revives = false) →
      ∃ rs, applyAll m ops = some rs ∧
        (∀ r ∈ rs, r.Still ∧ m.Frozen r.machine ∧ r.machine.Stopped) ∧
        (m.phase = .halted ∨ (∃ op ∈ ops, op.settles = true) →
          (last m rs).phase = .halted ∧ (last m rs).store.pc = m.program.size)) ∧
    (m.phase = .idle → 0 < m.program.size →
      ∀ ops : List Operation, (∀ op ∈ ops, op = .cancel ∨ op = .requestCancel) →
        ∃ rs, applyAll m ops = some rs ∧ (last m rs).store.pc = 0 ∧
          ∃ x, m.program.get? 0 = some x ∧
            let effect := (m.store.execute m.setup.io m.program x).1
            let store := (m.store.execute m.setup.io m.program x).2
            (last m rs).step.ran = some x ∧ (last m rs).step.effect = effect ∧
              (last m rs).step.machine.store = store ∧
              (last m rs).step.machine.phase = .running ∧
              (last m rs).step.events = m.listener.heard (store.snapshot 0 x effect)) := by
  refine ⟨fun hstopped ops hops => h.sound.applyAll_of_stopped hstopped hops, ?_⟩
  intro hidle hsize ops hops
  obtain ⟨rs, hall, hlast⟩ := applyAll_of_idle hidle hops
  have hpc : m.store.pc = 0 := (h.sound.blank_of_idle hidle).1
  have hget : m.program.get? 0 = some m.program.code[0] := Array.getElem?_eq_getElem hsize
  have hfirst : m.program.get? m.store.pc = some m.program.code[0] := by rwa [hpc]
  have hstep : (last m rs).step = m.wake.execute m.program.code[0] := by
    rcases hlast with hlast | hlast
    · rw [hlast, Machine.step_of_idle hidle hfirst]
    · have hwake : m.requestCancel.wake = m.wake := by
        simp [Machine.wake, Machine.requestCancel, hidle]
      rw [hlast, Machine.step_of_idle (m := m.requestCancel) hidle hfirst, hwake]
  have hrunning : m.wake = { m with phase := .running, cancelRequested := false } := if_pos hidle
  refine ⟨rs, hall, ?_, _, hget, ?_⟩
  · rcases hlast with hlast | hlast
    · rwa [hlast]
    · rwa [hlast]
  · rw [hstep, hrunning]
    simp [Machine.execute, hpc]

/-- The program `+[]`, which does not end. -/
def forever : Program where
  code := #[.increment, .loopStart, .loopEnd]
  partners := #[none, some 2, some 1]
  table_eq := rfl

theorem stopped_until_revived_forever :
    ∃ m past, Reached ⟨2, true⟩ m past ∧ m.Stopped ∧ m.phase = .running ∧
      (∃ rs,
        applyAll m [.attach .attentive, .requestCancel, .load "]", .step 3, .cancel] = some rs ∧
        (∀ r ∈ rs, r.Still ∧ m.Frozen r.machine ∧ r.machine.Stopped) ∧
        (last m rs).phase = .halted ∧ (last m rs).store.pc = 3) ∧
      ∃ m' past', Reached ⟨2, true⟩ m' past' ∧ m'.phase = .idle ∧ 0 < m'.program.size ∧
        ∃ rs, applyAll m' [.cancel, .requestCancel, .cancel, .requestCancel] = some rs ∧
          (last m' rs).step.ran = some .increment ∧
          (last m' rs).step.effect = .changed 0 1 ∧
          (last m' rs).step.machine.store.tape.cells = #[1, 0] ∧
          (last m' rs).step.machine.store.pc = 1 ∧
          (last m' rs).step.events = [.changed 0 1] := by
  have hnew : Reached ⟨2, true⟩ (.fresh ⟨2, true⟩ (by decide)) .none := .new rfl
  have hload := hnew.apply (.load "+[]")
    (r := .quiet ((Machine.fresh ⟨2, true⟩ (by decide)).install forever) .loaded) (by decide)
  have hsteps := (hload.apply (.start #[]) rfl).apply (.step 2) rfl
  have hrequest := hsteps.apply .requestCancel rfl
  have hheard := hload.apply (.attach (.ofChannels [.changes] [])) rfl
  obtain ⟨hstopped, -⟩ := stopped_until_revived hrequest
  obtain ⟨-, hidle⟩ := stopped_until_revived hheard
  obtain ⟨rs, hall, hresponses, hlast⟩ := hstopped (.inr ⟨by decide, by decide⟩)
    [.attach .attentive, .requestCancel, .load "]", .step 3, .cancel]
    (by simp [Operation.revives]; decide)
  obtain ⟨rs', hall', -, x, hget, hran, heffect, hstore, -, hevents⟩ := hidle rfl (by decide)
    [.cancel, .requestCancel, .cancel, .requestCancel] (by simp)
  obtain rfl := Option.some.inj hget
  obtain ⟨hhalted, hpc⟩ := hlast (.inr ⟨.step 3, by simp, by decide⟩)
  exact ⟨_, _, hrequest, .inr ⟨by decide, by decide⟩, by decide,
    ⟨rs, hall, hresponses, hhalted, hpc⟩, _, _, hheard, rfl, by decide, rs', hall', hran, heffect,
    by rw [hstore]; decide, by rw [hstore]; decide, by rw [hevents]; decide⟩

end Session

end TapeMachine
