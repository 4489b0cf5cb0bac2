import TapeMachine.Proofs.Machine.Course
import TapeMachine.Proofs.Runs.Budget
import TapeMachine.Proofs.Session.Renewal
import TapeMachine.Proofs.Symmetry.Basic

/-!
# Symmetric runs

A machine and its image under a symmetry stay original and image whatever number of steps
they take. What is reported of a step differs, but not on which channels, so that the
alarms of a listener count alike and ask for cancellation at the same step.
-/
namespace TapeMachine

/-! ### Listeners that ask alike -/

variable {l l' : Listener} {s s' : Snapshot} {events events' : List Event}

theorem Alarm.counted_congr (a : Alarm)
    (h : events.map Event.channel? = events'.map Event.channel?) :
    a.counted events = a.counted events' := by
  have hcount := congrArg (List.countP fun c => c = some a.channel) h
  rwa [List.countP_map, List.countP_map] at hcount

namespace Listener

/-- The listeners ask for cancellation at the same time: they are the same, or neither
ever asks. -/
def Alike (l l' : Listener) : Prop :=
  l = l' ∨ l.alarms = [] ∧ l'.alarms = []

theorem map_channel?_heard (l : Listener)
    (h : s.effect.event?.map Event.channel? = s'.effect.event?.map Event.channel?) :
    (l.heard s).map Event.channel? = (l.heard s').map Event.channel? := by
  have hhears : l.hears = (fun c : Option Channel => c.all l.listensTo) ∘ Event.channel? := by
    funext e
    cases e <;> rfl
  have hevents : s.events.map Event.channel? = s'.events.map Event.channel? := by
    simp only [Snapshot.events, List.map_append, ← Option.toList_map, h]
    rfl
  rw [heard_eq, heard_eq, hhears, ← List.filter_map, ← List.filter_map, hevents]

theorem Alike.heard (h : l.Alike l')
    (hs : s.effect.event?.map Event.channel? = s'.effect.event?.map Event.channel?) :
    l.cancels (l.heard s) = l'.cancels (l'.heard s') ∧
      (l.after (l.heard s)).Alike (l'.after (l'.heard s')) := by
  rcases h with rfl | ⟨hl, hl'⟩
  · have hcounted : ∀ a : Alarm, a.counted (l.heard s) = a.counted (l.heard s') :=
      fun a => a.counted_congr (l.map_channel?_heard hs)
    exact ⟨by simp only [cancels, Alarm.due, hcounted],
      .inl (by simp only [after, Alarm.after, hcounted])⟩
  · rw [cancels_eq_false hl, cancels_eq_false hl', after_eq_self hl, after_eq_self hl']
    exact ⟨rfl, .inr ⟨hl, hl'⟩⟩

end Listener

namespace Symmetry

/-- `m'` is what the symmetry makes of `m`. -/
structure Image (σ : Symmetry) (m m' : Machine) : Prop where
  setup_eq : m'.setup = m.setup
  code_eq : m'.program.code.toList = m.program.code.toList.map σ.exchange
  store_eq : m'.store = σ.store m.store
  phase_eq : m'.phase = m.phase
  cancelled_eq : m'.cancelled = m.cancelled
  cancelRequested_eq : m'.cancelRequested = m.cancelRequested
  alike : m.listener.Alike m'.listener

namespace Image

variable {σ : Symmetry} {m m' : Machine}

/-! ### One step -/

theorem get?_eq (h : σ.Image m m') :
    m'.program.get? m'.store.pc = (m.program.get? m.store.pc).map σ.exchange := by
  rw [σ.get?_eq h.code_eq, h.store_eq]
  rfl

theorem size_eq (h : σ.Image m m') : m'.program.size = m.program.size :=
  σ.size_eq h.code_eq

theorem halt (h : σ.Image m m') : σ.Image m.halt m'.halt :=
  ⟨h.setup_eq, h.code_eq, h.store_eq, rfl, h.cancelled_eq, h.cancelRequested_eq, h.alike⟩

theorem abort (h : σ.Image m m') : σ.Image m.abort m'.abort where
  setup_eq := h.setup_eq
  code_eq := h.code_eq
  store_eq := by simp only [Machine.abort, h.store_eq, h.size_eq, store]
  phase_eq := rfl
  cancelled_eq := rfl
  cancelRequested_eq := h.cancelRequested_eq
  alike := h.alike

theorem heed (h : σ.Image m m') : σ.Image m.heed m'.heed := by
  unfold Machine.heed Machine.cancel
  rw [h.cancelRequested_eq, h.phase_eq]
  split
  · split
    · exact h.abort
    · exact h
  · exact h

theorem wake (h : σ.Image m m') : σ.Image m.wake m'.wake := by
  unfold Machine.wake
  rw [h.phase_eq]
  split
  · exact ⟨h.setup_eq, h.code_eq, h.store_eq, rfl, h.cancelled_eq, rfl, h.alike⟩
  · exact h

theorem execute (h : σ.Image m m') (x : Instruction) :
    σ.Image (m.execute x).machine (m'.execute (σ.exchange x)).machine := by
  obtain ⟨hstore, hchannel⟩ := σ.execute_eq h.code_eq m.store m.setup.io x
  rw [← h.store_eq] at hstore hchannel
  have hreport : (m.store.report m.setup.io m.program x).effect.event?.map Event.channel? =
      (m'.store.report m'.setup.io m'.program (σ.exchange x)).effect.event?.map
        Event.channel? := by
    rw [h.setup_eq]
    exact hchannel.symm
  obtain ⟨hcancels, halike⟩ := h.alike.heard hreport
  exact {
    setup_eq := h.setup_eq
    code_eq := h.code_eq
    store_eq := by
      change (m'.store.execute m'.setup.io m'.program (σ.exchange x)).2 = _
      rw [h.setup_eq]
      exact hstore
    phase_eq := h.phase_eq
    cancelled_eq := h.cancelled_eq
    cancelRequested_eq := congrArg₂ or h.cancelRequested_eq hcancels.symm
    alike := halike }

theorem step (h : σ.Image m m') : σ.Image m.step.machine m'.step.machine := by
  have hget := h.heed.get?_eq
  rw [Machine.step, Machine.step, Machine.fetch, Machine.fetch, hget]
  cases m.heed.program.get? m.heed.store.pc with
  | none => exact h.heed.halt
  | some x => exact h.heed.wake.execute x

/-! ### Whole runs -/

theorem walk (h : σ.Image m m') (k : ℕ) : σ.Image (m.walk k).machine (m'.walk k).machine := by
  induction k with
  | zero => exact h
  | succ k ih =>
    rw [Machine.machine_walk_succ, Machine.machine_walk_succ]
    exact ih.step

theorem runWithin {input input' : Array UInt8} (h : σ.Image (m.start input) (m'.start input'))
    (limit : UInt64) :
    (m'.runWithin input' limit).outcome = (m.runWithin input limit).outcome ∧
      σ.Image (m.runWithin input limit).machine (m'.runWithin input' limit).machine := by
  have hwalk := h.walk limit.toNat
  have hpc : ((m'.start input').walk limit.toNat).machine.store.pc =
      ((m.start input).walk limit.toNat).machine.store.pc := by
    rw [hwalk.store_eq]
    rfl
  rw [Machine.runWithin_eq, Machine.runWithin_eq]
  dsimp only
  rw [hpc, hwalk.cancelled_eq, show m'.program.size = m.program.size from h.size_eq]
  split
  · exact ⟨rfl, hwalk.halt⟩
  · exact ⟨rfl, hwalk⟩

end Image

/-! ### Loaded machines -/

open Session

variable {setup : Setup} {past past' : History} {m m' : Machine} {p q : Program}

/-- Whatever was done with two machines of one setup, one is the image of the other once
they have loaded the program and the replaced program and have been started. -/
theorem image_start_install (σ : Symmetry) (h : Reached setup m past) (h' : Reached setup m' past')
    (halike : m.listener.Alike m'.listener) (hcode : q.code.toList = p.code.toList.map σ.exchange)
    (input : Array UInt8) :
    σ.Image ((m.install p).start input) ((m'.install q).start (input.map σ.byte)) := by
  have htape : σ.tape (Tape.blank setup.tapeSize h.sound.tapeSize_pos).rewind =
      (Tape.blank setup.tapeSize h.sound.tapeSize_pos).rewind :=
    σ.tape_blank _ h.sound.tapeSize_pos
  rw [h.sound.install_eq, h'.sound.install_eq]
  exact {
    setup_eq := rfl
    code_eq := hcode
    store_eq := by
      simp only [Machine.start, Machine.attach, Machine.install, Machine.fresh, Store.initial,
        Tape.clear_blank, store, Array.map_empty, htape]
    phase_eq := rfl
    cancelled_eq := rfl
    cancelRequested_eq := rfl
    alike := halike }

theorem runWithin_install (σ : Symmetry) (h : Reached setup m past) (h' : Reached setup m' past')
    (halike : m.listener.Alike m'.listener) (hcode : q.code.toList = p.code.toList.map σ.exchange)
    (input : Array UInt8) (limit : UInt64) :
    ((m'.install q).runWithin (input.map σ.byte) limit).outcome =
        ((m.install p).runWithin input limit).outcome ∧
      ((m'.install q).runWithin (input.map σ.byte) limit).machine.store =
        σ.store ((m.install p).runWithin input limit).machine.store ∧
      ((m.install p).runWithin input limit).machine.store.tape.size = setup.tapeSize := by
  obtain ⟨houtcome, himage⟩ := (σ.image_start_install h h' halike hcode input).runWithin limit
  exact ⟨houtcome, himage.store_eq, ((h.sound.install p).runWithin input limit).size_tape⟩

end Symmetry

end TapeMachine
