import TapeMachine.Proofs.Session.Listening
import TapeMachine.Proofs.Session.Stopped

/-!
# Operations in vain

A load that fails, a cancellation of a machine that is not running and a step of one that
has halted leave the machine as it is and report nothing. Erased from a session, wherever
they stand in it, they are not missed: all other operations answer as before.
-/
namespace TapeMachine.Session

variable {setup : Setup} {past : History} {m : Machine} {op : Operation} {ops : List Operation}
  {marks : List Bool} {rs : List Response} {source : String} {e : LoadError}

/-- Whether an operation can do nothing to `m`: it is a load that fails, a cancellation
while no run is in progress, or stepping after the end. -/
def Operation.isVain (m : Machine) : Operation → Bool
  | .load source =>
    match m.load source with
    | .ok _ => false
    | .error _ => true
  | .step _ => m.phase = .halted
  | .cancel => m.phase ≠ .running
  | .start _ | .run _ | .runWithin _ _ | .runPaced _ _ | .requestCancel | .attach _ | .judge _
  | .showProgram | .describe => false

/-- Whether all marked operations are in vain when their turn comes. -/
def marksVain : (marks : List Bool) → Machine → List Operation → Bool
  | mark :: marks, m, op :: ops =>
    (!mark || op.isVain m) && (op.apply m).all fun r => marksVain marks r.machine ops
  | _, _, _ => true

def unmarked {α : Type} : (marks : List Bool) → List α → List α
  | [], xs => xs
  | _ :: _, [] => []
  | true :: marks, _ :: xs => unmarked marks xs
  | false :: marks, x :: xs => x :: unmarked marks xs

/-- Why nothing happens is different for each: a refused text is not installed, only a
running machine can be cancelled, and a machine that has halted is past its program. -/
theorem Sound.apply_of_isVain (h : Sound setup past m) (hvain : op.isVain m = true) :
    ∃ reply, op.apply m = some (.quiet m reply) := by
  cases op with
  | load source =>
    cases hload : m.load source with
    | ok p => simp [Operation.isVain, hload] at hvain
    | error e => exact ⟨.refused e, by rw [Operation.apply, hload]⟩
  | step count =>
    have hrest := h.atRest (of_decide_eq_true hvain)
    exact ⟨.effects (List.replicate count .halted), by rw [Operation.apply, hrest.walk]; rfl⟩
  | cancel =>
    have hcancel : m.cancel = m := if_neg (of_decide_eq_true hvain)
    exact ⟨.done, by rw [Operation.apply, hcancel]⟩
  | start | run | runWithin | runPaced | requestCancel | attach | judge | showProgram | describe =>
    simp [Operation.isVain] at hvain

theorem Sound.applyAll_unmarked (h : Sound setup past m)
    (hvain : marksVain marks m ops = true) :
    applyAll m (unmarked marks ops) = (applyAll m ops).map (unmarked marks) := by
  induction marks generalizing m past ops with
  | nil => simp [unmarked]
  | cons mark marks ih =>
    cases ops with
    | nil => rfl
    | cons op ops =>
      rw [marksVain, Bool.and_eq_true] at hvain
      obtain ⟨hmark, hrest⟩ := hvain
      cases mark with
      | true =>
        obtain ⟨reply, hquiet⟩ := h.apply_of_isVain hmark
        rw [hquiet] at hrest
        rw [unmarked, applyAll_cons hquiet, ih h hrest, Option.map_map]
        rfl
      | false =>
        cases hanswer : op.apply m with
        | none => simp [unmarked, applyAll, hanswer]
        | some r =>
          rw [hanswer] at hrest
          rw [unmarked, applyAll_cons hanswer, applyAll_cons hanswer, ih (h.apply hanswer) hrest,
            Option.map_map, Option.map_map]
          rfl

/-- Where the responses lead to, and what they report, does not depend on the erased. -/
theorem Sound.last_unmarked (h : Sound setup past m) (hvain : marksVain marks m ops = true)
    (hall : applyAll m ops = some rs) :
    last m (unmarked marks rs) = last m rs ∧
      (unmarked marks rs).flatMap Response.events = rs.flatMap Response.events := by
  induction marks generalizing m past ops rs with
  | nil => exact ⟨rfl, rfl⟩
  | cons mark marks ih =>
    cases ops with
    | nil =>
      obtain rfl := Option.some.inj hall
      exact ⟨rfl, rfl⟩
    | cons op ops =>
      rw [marksVain, Bool.and_eq_true] at hvain
      obtain ⟨hmark, hrest⟩ := hvain
      cases hanswer : op.apply m with
      | none => simp [applyAll, hanswer] at hall
      | some r =>
        rw [hanswer] at hrest
        rw [applyAll_cons hanswer, Option.map_eq_some_iff] at hall
        obtain ⟨rs, hall, rfl⟩ := hall
        obtain ⟨hlast, hevents⟩ := ih (h.apply hanswer) hrest hall
        cases mark with
        | true =>
          obtain ⟨reply, hquiet⟩ := h.apply_of_isVain hmark
          obtain rfl := Option.some.inj (hanswer.symm.trans hquiet)
          exact ⟨hlast, hevents⟩
        | false => exact ⟨hlast, congrArg (r.events ++ ·) hevents⟩

theorem Sound.walk_add_of_halted (h : Sound setup past m) {a : ℕ}
    (hhalted : (m.walk a).machine.phase = .halted) (b : ℕ) :
    m.walk (a + b) = ⟨(m.walk a).machine, (m.walk a).effects ++ List.replicate b .halted,
      (m.walk a).events⟩ := by
  have hrest := ((h.walk a).atRest hhalted).walk b
  calc m.walk (a + b)
    _ = ⟨(m.walk (a + b)).machine, (m.walk (a + b)).effects, (m.walk (a + b)).events⟩ := rfl
    _ = _ := by
      rw [m.machine_walk_add, m.effects_walk_add, m.events_walk_add, hrest, List.append_nil]

theorem applyAll_step_load_step (m : Machine) (hsource : Program.ofText source = .error e)
    (a b : ℕ) :
    applyAll m [.step a, .load source, .step b] =
        some [⟨(m.walk a).machine, .effects (m.walk a).effects, (m.walk a).events⟩,
          .quiet (m.walk a).machine (.refused e),
          ⟨(m.walk (a + b)).machine, .effects ((m.walk (a + b)).effects.drop a),
            ((m.walk (a + b)).events.drop (m.walk a).events.length)⟩] := by
  have hload := load_of_refused (m.walk a).machine hsource
  have heffects : (m.walk (a + b)).effects.drop a = ((m.walk a).machine.walk b).effects := by
    rw [Machine.effects_walk_add, List.drop_left' (Machine.length_effects_walk a m)]
  rw [heffects, Machine.events_walk_add, List.drop_left, Machine.machine_walk_add]
  simp [applyAll, Operation.apply, hload, Response.quiet]

/-- Erasing operations in vain from a session leaves the responses to all others, the
machine at its end and the events as they are. Of an operation of several steps, those
after the end can be erased alone. In particular a load that fails leaves any machine as it
is, so steps before and after it go on as they would without it. -/
theorem vain_operations_erasable (h : Reached setup m past) :
    (∀ marks ops, marksVain marks m ops = true →
      applyAll m (unmarked marks ops) = (applyAll m ops).map (unmarked marks) ∧
      ∀ rs, applyAll m ops = some rs →
        last m (unmarked marks rs) = last m rs ∧
        (unmarked marks rs).flatMap Response.events = rs.flatMap Response.events) ∧
    (∀ a, (m.walk a).machine.phase = .halted → ∀ b,
      m.walk (a + b) = ⟨(m.walk a).machine, (m.walk a).effects ++ List.replicate b .halted,
        (m.walk a).events⟩) ∧
    ∀ source e, Program.ofText source = .error e →
      (∀ m' : Machine, (Operation.load source).apply m' = some (.quiet m' (.refused e))) ∧
      ∀ a b, applyAll m [.step a, .load source, .step b] =
        some [⟨(m.walk a).machine, .effects (m.walk a).effects, (m.walk a).events⟩,
          .quiet (m.walk a).machine (.refused e),
          ⟨(m.walk (a + b)).machine, .effects ((m.walk (a + b)).effects.drop a),
            ((m.walk (a + b)).events.drop (m.walk a).events.length)⟩] := by
  refine ⟨?_, fun a => h.sound.walk_add_of_halted, ?_⟩
  · intro marks ops hvain
    exact ⟨h.sound.applyAll_unmarked hvain, fun rs hall => h.sound.last_unmarked hvain hall⟩
  · intro source e hsource
    refine ⟨?_, applyAll_step_load_step m hsource⟩
    intro m'
    rw [Operation.apply, load_of_refused m' hsource]

/-- A load that fails between a request for cancellation and the step that obeys it. -/
theorem vain_operations_erasable_clearing :
    let m := Machine.fresh ⟨2, true⟩ Nat.two_pos
    let marks := [true, false, true, false, false, false, true, false, true, true]
    let ops := [Operation.cancel, .load "+[-]", .cancel, .start #[], .step 2, .requestCancel,
      .load "]", .step 1, .step 1, .cancel, .describe]
    unmarked marks ops =
        [.load "+[-]", .start #[], .step 2, .requestCancel, .step 1, .describe] ∧
      marksVain marks m ops = true ∧
      applyAll m (unmarked marks ops) = (applyAll m ops).map (unmarked marks) := by
  intro m marks ops
  have hnew : Reached ⟨2, true⟩ m .none := .new rfl
  have hvain : marksVain marks m ops = true := by decide +kernel
  exact ⟨rfl, hvain, ((vain_operations_erasable hnew).1 marks ops hvain).1⟩

end TapeMachine.Session
