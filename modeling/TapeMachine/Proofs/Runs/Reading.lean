import TapeMachine.Proofs.Runs.Agreement
import TapeMachine.Proofs.Runs.Underway

/-!
# Reading typed text

A run that is started with the queue of a text reads the bytes of the text in order, however
far apart its `,` are executed and whatever else happens in between; when they are used up,
it reads zeros. The count of `,` executed so far tells which bytes are still to be read.
-/
namespace TapeMachine

namespace Store

variable {s : Store} {p : Program} {bytes : List UInt8} {k : ℕ}

theorem input_execute (s : Store) (p : Program) (x : Instruction) :
    (s.execute true p x).2.input = if x = .read then s.input.pop else s.input := by
  cases x with
  | moveRight | moveLeft | increment | decrement | write | read => rfl
  | loopStart | loopEnd =>
    simp only [execute, perform, proceed, jump]
    split <;> rfl

theorem execute_read (s : Store) (p : Program) :
    (s.execute true p .read).1 = .read (s.input.back?.getD 0) ∧
      (s.execute true p .read).2.tape.current = s.input.back?.getD 0 :=
  ⟨rfl, s.tape.current_store _⟩

theorem getD_back?_of_unread (h : s.input.toList = (bytes.drop k).reverse) :
    s.input.back?.getD 0 = bytes.getD k 0 := by
  rw [← Array.getLast?_toList, h, List.getLast?_reverse, List.head?_drop,
    List.getD_eq_getElem?_getD]

theorem toList_pop_of_unread (h : s.input.toList = (bytes.drop k).reverse) :
    s.input.pop.toList = (bytes.drop (k + 1)).reverse := by
  rw [Array.toList_pop, h, List.dropLast_reverse, List.tail_drop]

end Store

/-! ### The queue along a run -/

namespace Machine

variable {m m' : Machine} {input : Array UInt8} {text : String} {k : ℕ}

theorem input_step (hio : m.setup.io = true) :
    m.step.machine.store.input =
      if m.step.ran = some .read then m.store.input.pop else m.store.input := by
  cases hran : m.step.ran with
  | none => rcases machine_step_of_halted hran with hstep | hstep <;> simp [hstep, halt, abort]
  | some x =>
    rw [(store_step_of_ran hran).2, hio, Store.input_execute]
    simp

/-- What is still in the queue are the bytes that no `,` has read, the next one last. -/
theorem Underway.unread (h : m.Underway (Text.queue text) m' k) (hio : m.setup.io = true) :
    m'.store.input.toList = ((Text.bytes text).drop k).reverse := by
  induction h with
  | start => exact Text.toList_queue text
  | @step m' k h ih =>
    rw [input_step (h.setup_eq ▸ hio)]
    split
    · exact Store.toList_pop_of_unread ih
    · exact ih
  | halt h hend ih | requestCancel h ih | attach h listener ih => exact ih
  | cancel h ih => rcases cancel_cases _ with hcancel | hcancel <;> rwa [hcancel]

/-- The `,` that comes after `k` others stores and reports the byte with the number `k`. -/
theorem Underway.read (h : m.Underway (Text.queue text) m' k) (hio : m.setup.io = true)
    (hran : m'.step.ran = some .read) :
    m'.step.effect = .read ((Text.bytes text).getD k 0) ∧
      m'.step.machine.store.tape.current = (Text.bytes text).getD k 0 := by
  obtain ⟨heffect, hcurrent⟩ := m'.store.execute_read m'.program
  rw [Store.getD_back?_of_unread (h.unread hio)] at heffect hcurrent
  obtain ⟨hreported, hstored⟩ := store_step_of_ran hran
  rw [h.setup_eq, hio] at hreported hstored
  rw [hreported, hstored]
  exact ⟨heffect, hcurrent⟩

/-- Typed text is read in order: wherever a run on the queue of a text has come, the queue
holds the bytes that are unread, turned round, and if a `,` comes next, it stores and reports
the byte whose number is the count of the `,` before it, or zero past the end of the text.
The machines of a run, a run at any pace and a run within a limit are such machines, after
every step and at the end. -/
theorem reads_in_order (m : Machine) (hio : m.setup.io = true) (text : String) :
    (∀ m' k, m.Underway (Text.queue text) m' k →
      m'.store.input.toList = ((Text.bytes text).drop k).reverse ∧
      (m'.step.ran = some .read →
        m'.step.effect = .read ((Text.bytes text).getD k 0) ∧
        m'.step.machine.store.tape.current = (Text.bytes text).getD k 0)) ∧
    (∀ pace, let r := m.launch (Text.queue text) pace
      (∀ n, m.Underway (Text.queue text) (r.advance n).2.machine (r.reads n)) ∧
      ∀ e, m.runPaced (Text.queue text) pace = some e →
        m.Underway (Text.queue text) e.machine (r.reads UInt64.size)) ∧
    ∀ limit : UInt64,
      m.Underway (Text.queue text) (m.runWithin (Text.queue text) limit).machine
        ((m.launch (Text.queue text) .immediate).reads limit.toNat) := by
  refine ⟨?_, fun pace => ⟨m.underway_advance _ pace, fun e => underway_runPaced⟩,
    m.underway_runWithin _⟩
  intro m' k h
  exact ⟨h.unread hio, h.read hio⟩

/-- Two bytes of one character, and a zero after them. -/
theorem reads_in_order_relay :
    (loaded relay).setup.io = true ∧ Text.bytes "é" = [195, 169] ∧
      (∃ m', (loaded relay).Underway (Text.queue "é") m' 1 ∧ m'.store.input = #[169] ∧
        m'.step.effect = .read 169) ∧
      ∃ m', (loaded relay).Underway (Text.queue "é") m' 2 ∧ m'.store.input = #[] ∧
        m'.step.effect = .read 0 := by
  have hbytes : Text.bytes "é" = [195, 169] := by decide +kernel
  obtain ⟨hreads, hruns, -⟩ := reads_in_order (loaded relay) rfl "é"
  obtain ⟨hruns, -⟩ := hruns .immediate
  have hone : ((loaded relay).launch (Text.queue "é") .immediate).reads 5 = 1 := by decide +kernel
  have htwo : ((loaded relay).launch (Text.queue "é") .immediate).reads 8 = 2 := by decide +kernel
  have hfirst := hruns 5
  have hsecond := hruns 8
  rw [hone] at hfirst
  rw [htwo] at hsecond
  obtain ⟨hinput, hread⟩ := hreads _ _ hfirst
  obtain ⟨hinput', hread'⟩ := hreads _ _ hsecond
  rw [hbytes] at hinput hread hinput' hread'
  exact ⟨rfl, hbytes, ⟨_, hfirst, Array.toList_inj.mp hinput, (hread (by decide +kernel)).1⟩,
    _, hsecond, Array.toList_inj.mp hinput', (hread' (by decide +kernel)).1⟩

end Machine

end TapeMachine
