import TapeMachine.Session.Operation
import TapeMachine.Proofs.Machine.Listening

/-!
# Sessions with a listener

As long as no other listener is attached, a session goes on in the same way whoever
listens without alarms: with no listener at all, with one to all channels or with one to
some of them. Only the events that the listener hears tell the difference.
-/
namespace TapeMachine

theorem Listener.hears_ofChannels (channels : List Channel) (alarms : List Alarm) (e : Event) :
    (ofChannels channels alarms).hears e = e.channel?.all channels.contains := by
  cases e <;> rfl

namespace Session

variable {l : Listener} {m : Machine} {op : Operation} {ops : List Operation}

/-- Whether an operation puts another listener into the place of the old one. -/
def Operation.attaches : Operation → Bool
  | .attach _ => true
  | _ => false

namespace Response

/-- What a response says apart from the listener and from what it heard. -/
def unheard (r : Response) : Machine × Reply :=
  (r.machine.attach .deaf, r.reply)

def heardBy (r : Response) (l : Listener) : Response :=
  { r with machine := r.machine.attach l, events := r.events.filter l.hears }

@[simp] theorem unheard_heardBy (r : Response) (l : Listener) : (r.heardBy l).unheard = r.unheard :=
  rfl

theorem ofEnded_heardBy (e : Ended) (l : Listener) :
    ofEnded (e.heardBy l) = (ofEnded e).heardBy l := by
  simp [ofEnded, Ended.heardBy, heardBy]

end Response

theorem map_ofEnded_heardBy (e : Option Ended) (l : Listener) :
    (e.map (·.heardBy l)).map Response.ofEnded = (e.map Response.ofEnded).map (·.heardBy l) := by
  simp only [Option.map_map]
  exact congrArg (Option.map · e) (funext fun e => Response.ofEnded_heardBy e l)

theorem apply_attach (hl : l.alarms = []) (m : Machine) (hop : op.attaches = false) :
    op.apply (m.attach l) = (op.apply (m.attach .attentive)).map (·.heardBy l) := by
  cases op with
  | load source =>
    have hload : ∀ l', (m.attach l').load source =
        (Program.ofText source).map (m.attach l').install := fun _ => rfl
    simp only [Operation.apply, hload]
    cases Program.ofText source <;> rfl
  | step count =>
    simp only [Operation.apply, Machine.walk_attach hl]
    rfl
  | run input | runPaced input pace =>
    have hrun := Machine.runPaced_attach hl m input
    simp only [Operation.apply, Machine.run, hrun, map_ofEnded_heardBy]
  | runWithin input limit =>
    simp only [Operation.apply, Machine.runWithin_attach hl, Response.ofEnded_heardBy]
    rfl
  | cancel =>
    have hcancel : ∀ l', (m.attach l').cancel = m.cancel.attach l' := by
      intro l'
      unfold Machine.cancel
      change (if m.phase = .running then _ else _) = _
      split <;> rfl
    simp only [Operation.apply, hcancel]
    rfl
  | start | requestCancel | judge | showProgram | describe => rfl
  | attach => simp [Operation.attaches] at hop

theorem applyAll_cons {r : Response} (h : op.apply m = some r) (ops : List Operation) :
    applyAll m (op :: ops) = (applyAll r.machine ops).map (r :: ·) := by
  simp [applyAll, h, Option.map_eq_bind]

theorem applyAll_attach (hl : l.alarms = []) (m : Machine)
    (hops : ∀ op ∈ ops, op.attaches = false) :
    applyAll (m.attach l) ops =
      (applyAll (m.attach .attentive) ops).map (List.map (·.heardBy l)) := by
  induction ops generalizing m with
  | nil => rfl
  | cons op ops ih =>
    obtain ⟨hop, hrest⟩ := List.forall_mem_cons.mp hops
    have hanswer := apply_attach hl m hop
    have hattentive := apply_attach (l := .attentive) rfl m hop
    cases hfull : op.apply (m.attach .attentive) with
    | none =>
      rw [hfull] at hanswer
      rw [applyAll, applyAll, hfull, hanswer]
      rfl
    | some r =>
      rw [hfull] at hanswer hattentive
      have hmachine : r.machine.attach .attentive = r.machine :=
        congrArg Response.machine (Option.some.inj hattentive).symm
      have hresponses := ih r.machine hrest
      rw [hmachine] at hresponses
      have hheard : (r.heardBy l).machine = r.machine.attach l := rfl
      rw [applyAll_cons hanswer, applyAll_cons hfull, hheard, hresponses]
      simp [Option.map_map, Function.comp_def]

/-- Listening without alarms changes nothing: as long as no other listener is attached,
the replies to all operations and the machines that they leave are those of a machine to
which nobody listens, and the events are those of a machine to which somebody listens on
all channels, less the events of the channels that are not listened to. The same is true
at every moment of a run, whether it ends or not. -/
theorem listener_only_filters (m : Machine) (channels : List Channel)
    (hops : ∀ op ∈ ops, op.attaches = false) :
    let chosen := Listener.ofChannels channels []
    let responses (l : Listener) := applyAll (m.attach l) ops
    let course (l : Listener) (input : Array UInt8) (pace : Pace) (k : ℕ) :=
      ((m.attach l).launch input pace).advance k
    (responses chosen).map (List.map Response.unheard) =
        (responses .deaf).map (List.map Response.unheard) ∧
      (responses chosen).map (List.map Response.events) =
        (responses .attentive).map
          (List.map fun r => r.events.filter fun e => e.channel?.all channels.contains) ∧
      ∀ input pace k,
        (course chosen input pace k).1 = (course .deaf input pace k).1 ∧
        (course chosen input pace k).2.machine.attach .deaf =
          (course .deaf input pace k).2.machine ∧
        (course chosen input pace k).2.events.toList =
          (course .attentive input pace k).2.events.toList.filter
            fun e => e.channel?.all channels.contains := by
  intro chosen responses course
  have hhears : chosen.hears = fun e => e.channel?.all channels.contains :=
    funext (Listener.hears_ofChannels channels [])
  have hchosen : responses chosen = (responses .attentive).map (List.map (·.heardBy chosen)) :=
    applyAll_attach rfl m hops
  have hdeaf : responses .deaf = (responses .attentive).map (List.map (·.heardBy .deaf)) :=
    applyAll_attach rfl m hops
  refine ⟨?_, ?_, ?_⟩
  · rw [hchosen, hdeaf]
    simp [Option.map_map, Function.comp_def]
  · rw [hchosen]
    simp [Option.map_map, Function.comp_def, Response.heardBy, hhears]
  · intro input pace k
    have hcourse : course chosen input pace k =
        ((course .attentive input pace k).1, (course .attentive input pace k).2.heardBy chosen) :=
      Machine.advance_launch_attach rfl m input pace k
    have hquiet : course .deaf input pace k =
        ((course .attentive input pace k).1, (course .attentive input pace k).2.heardBy .deaf) :=
      Machine.advance_launch_attach rfl m input pace k
    rw [hcourse, hquiet, ← hhears]
    exact ⟨rfl, rfl, rfl⟩

/-- The output of a paced run and of a session that goes on after it. -/
theorem listener_only_filters_output :
    let m := Machine.fresh ⟨2, true⟩ Nat.two_pos
    let ops := [Operation.load ",[.-]", .runPaced #[2] ⟨5, none⟩, .start #[3], .step 3]
    (∀ op ∈ ops, op.attaches = false) ∧
      (applyAll (m.attach (.ofChannels [.output] [])) ops).map (List.map Response.events) =
        some [[], [.wrote 2, .paused 5, .paused 5, .wrote 1, .paused 5, .paused 5], [],
          [.wrote 3]] ∧
      (applyAll (m.attach (.ofChannels [.output] [])) ops).map (List.map Response.unheard) =
        (applyAll (m.attach .deaf) ops).map (List.map Response.unheard) := by
  intro m ops
  have hops : ∀ op ∈ ops, op.attaches = false := by decide
  obtain ⟨hunheard, hevents, -⟩ := listener_only_filters m [.output] hops
  refine ⟨hops, hevents.trans ?_, hunheard⟩
  decide +kernel

end Session

end TapeMachine
