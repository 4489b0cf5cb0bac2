import TapeMachine.Machine.Store
import TapeMachine.Proofs.Text.Characters

/-!
# Symmetries of the language

A symmetry replaces instructions that work on the tape by others that do the same to
changed tapes and bytes. It keeps the brackets and the zero byte, and so every decision of
a loop: the replaced program does to a changed store what the program itself does to the
store, one instruction at a time.
-/
namespace TapeMachine

/-- The channel of what an instruction does to the tape by itself. -/
def Instruction.tapeChannel? : Instruction → Option Channel
  | moveRight | moveLeft => some .moves
  | increment | decrement => some .changes
  | _ => none

/-- The tape after an instruction that works on it; any other leaves it alone. -/
def Tape.after (t : Tape) : Instruction → Tape
  | .moveRight => t.moveRight
  | .moveLeft => t.moveLeft
  | .increment => t.increment
  | .decrement => t.decrement
  | _ => t

/-- Instructions replaced by others, with the change of tapes and bytes that goes with it. -/
structure Symmetry where
  exchange : Instruction → Instruction
  tape : Tape → Tape
  byte : UInt8 → UInt8
  exchange_of_none : ∀ {x}, x.tapeChannel? = none → exchange x = x
  tapeChannel?_exchange : ∀ x, (exchange x).tapeChannel? = x.tapeChannel?
  byte_eq_zero_iff : ∀ b, byte b = 0 ↔ b = 0
  current_tape : ∀ t, (tape t).current = byte t.current
  tape_store : ∀ t b, tape (t.store b) = (tape t).store (byte b)
  tape_after : ∀ t x, tape (t.after x) = (tape t).after (exchange x)
  tape_blank : ∀ size size_pos, tape (.blank size size_pos) = .blank size size_pos

/-! ### Texts -/

/-- A text in which two instructions have changed places. -/
def exchanged (a b : Instruction) (source : String) : String :=
  source.map (Equiv.swap a.toChar b.toChar)

theorem Instruction.ofChar?_swap (a b : Instruction) (c : Char) :
    ofChar? (Equiv.swap a.toChar b.toChar c) = (ofChar? c).map (Equiv.swap a b) := by
  have hinjective : Function.Injective toChar := fun _ _ => toChar_injective
  cases hc : ofChar? c with
  | some x =>
    obtain rfl := toChar_of_ofChar? hc
    rw [← hinjective.map_swap, ofChar?_toChar, Option.map_some]
  | none =>
    have hne : ∀ x : Instruction, c ≠ x.toChar := by
      rintro x rfl
      simp at hc
    rw [Equiv.swap_apply_of_ne_of_ne (hne a) (hne b), hc, Option.map_none]

theorem Instruction.swap_of_tapeChannel?_eq_none {a b x : Instruction} {c : Channel}
    (ha : a.tapeChannel? = some c) (hb : b.tapeChannel? = some c) (hx : x.tapeChannel? = none) :
    Equiv.swap a b x = x := by
  apply Equiv.swap_apply_of_ne_of_ne
  · rintro rfl
    simp [ha] at hx
  · rintro rfl
    simp [hb] at hx

theorem Instruction.tapeChannel?_swap {a b : Instruction} (h : a.tapeChannel? = b.tapeChannel?)
    (x : Instruction) : (Equiv.swap a b x).tapeChannel? = x.tapeChannel? := by
  rw [Equiv.swap_apply_def]
  split
  · next hx => rw [hx, h]
  · split
    · next hx => rw [hx, h]
    · rfl

theorem Program.instructions_exchanged (a b : Instruction) (source : String) :
    instructions (exchanged a b source) = (instructions source).map (Equiv.swap a b) := by
  rw [instructions_eq, instructions_eq, exchanged, String.toList_map, List.filterMap_map,
    List.map_filterMap]
  apply List.filterMap_congr
  intro c _
  exact Instruction.ofChar?_swap a b c

/-! ### Brackets -/

theorem Brackets.scan_of_not_isBracket {x : Instruction} (h : x.isBracket = false)
    (code : List Instruction) (opened : List ℕ) (t : Table) :
    scan (x :: code) opened t = scan code opened (t.push none) := by
  cases x with
  | loopStart | loopEnd => simp [Instruction.isBracket] at h
  | _ => rfl

theorem Instruction.isBracket_of_tapeChannel? {x : Instruction} {c : Channel}
    (h : x.tapeChannel? = some c) : x.isBracket = false := by
  cases x <;> simp_all [tapeChannel?, isBracket]

theorem Store.execute_of_tapeChannel? {x : Instruction} {c : Channel} (h : x.tapeChannel? = some c)
    (s : Store) (io : Bool) (p : Program) :
    (s.execute io p x).2 = { s with tape := s.tape.after x }.proceed ∧
      (s.execute io p x).1.event?.map Event.channel? = some (some c) := by
  cases x with
  | moveRight | moveLeft | increment | decrement =>
    cases h
    exact ⟨rfl, rfl⟩
  | _ => simp [Instruction.tapeChannel?] at h

namespace Symmetry

variable (σ : Symmetry) {p q : Program}

/-- The scan sees the brackets only, which stay where they are. -/
theorem scan_map (code : List Instruction) (opened : List ℕ) (t : Brackets.Table) :
    Brackets.scan (code.map σ.exchange) opened t = Brackets.scan code opened t := by
  induction code generalizing opened t with
  | nil => rfl
  | cons x code ih =>
    rw [List.map_cons]
    cases hx : x.tapeChannel? with
    | some c =>
      have hx' := (σ.tapeChannel?_exchange x).trans hx
      rw [Brackets.scan_of_not_isBracket (Instruction.isBracket_of_tapeChannel? hx),
        Brackets.scan_of_not_isBracket (Instruction.isBracket_of_tapeChannel? hx'), ih]
    | none =>
      rw [σ.exchange_of_none hx]
      cases x with
      | loopEnd =>
        cases opened with
        | nil => rfl
        | cons start opened => exact ih _ _
      | _ => exact ih _ _

theorem exists_ofCode_map (p : Program) :
    ∃ q, Program.ofCode (p.code.toList.map σ.exchange) = .ok q ∧
      q.code.toList = p.code.toList.map σ.exchange := by
  have htable : Brackets.table (p.code.toList.map σ.exchange) = .ok p.partners :=
    (σ.scan_map _ _ _).trans p.table_eq
  let q : Program := ⟨(p.code.toList.map σ.exchange).toArray, p.partners, htable⟩
  exact ⟨q, q.ofCode_toList, rfl⟩

theorem exists_ofText_exchanged {a b : Instruction} {source : String} {p : Program}
    (hexchange : σ.exchange = Equiv.swap a b) (h : Program.ofText source = .ok p) :
    ∃ q, Program.ofText (exchanged a b source) = .ok q ∧
      q.code.toList = p.code.toList.map σ.exchange := by
  rw [Program.ofText, Program.instructions_exchanged, ← Program.toList_code_of_ofCode h,
    ← hexchange]
  exact σ.exists_ofCode_map p

theorem partner?_eq (h : q.code.toList = p.code.toList.map σ.exchange) :
    q.partner? = p.partner? := by
  have htable := q.table_eq
  rw [h, Brackets.table, σ.scan_map] at htable
  have hpartners : q.partners = p.partners := Except.ok.inj (htable.symm.trans p.table_eq)
  funext i
  rw [Program.partner?, Program.partner?, hpartners]

theorem get?_eq (h : q.code.toList = p.code.toList.map σ.exchange) (i : ℕ) :
    q.get? i = (p.get? i).map σ.exchange := by
  rw [Program.get?, Program.get?, ← Array.getElem?_toList, ← Array.getElem?_toList, h,
    List.getElem?_map]

theorem size_eq (h : q.code.toList = p.code.toList.map σ.exchange) : q.size = p.size := by
  have hlength := congrArg List.length h
  rwa [List.length_map] at hlength

/-! ### Stores -/

def store (s : Store) : Store where
  tape := σ.tape s.tape
  pc := s.pc
  input := s.input.map σ.byte
  output := s.output.map σ.byte
  steps := s.steps

theorem byte_zero : σ.byte 0 = 0 :=
  (σ.byte_eq_zero_iff 0).mpr rfl

theorem current_eq_zero_iff (t : Tape) : (σ.tape t).current = 0 ↔ t.current = 0 := by
  rw [σ.current_tape, σ.byte_eq_zero_iff]

theorem getD_map (b : Option UInt8) : (b.map σ.byte).getD 0 = σ.byte (b.getD 0) := by
  cases b with
  | none => exact σ.byte_zero.symm
  | some b => rfl

/-- What the replaced instruction does to the changed store is what the instruction does
to the store, changed. It is reported on the same channel. -/
theorem execute_eq (h : q.code.toList = p.code.toList.map σ.exchange) (s : Store) (io : Bool)
    (x : Instruction) :
    ((σ.store s).execute io q (σ.exchange x)).2 = σ.store (s.execute io p x).2 ∧
      ((σ.store s).execute io q (σ.exchange x)).1.event?.map Event.channel? =
        (s.execute io p x).1.event?.map Event.channel? := by
  cases hx : x.tapeChannel? with
  | some c =>
    obtain ⟨hstore, heffect⟩ := s.execute_of_tapeChannel? hx io p
    obtain ⟨hstore', heffect'⟩ :=
      (σ.store s).execute_of_tapeChannel? ((σ.tapeChannel?_exchange x).trans hx) io q
    refine ⟨?_, heffect'.trans heffect.symm⟩
    rw [hstore, hstore']
    simp only [store, Store.proceed, σ.tape_after]
  | none =>
    rw [σ.exchange_of_none hx]
    have hpartner := σ.partner?_eq h
    cases x with
    | moveRight | moveLeft | increment | decrement => simp [Instruction.tapeChannel?] at hx
    | write => cases io <;> simp [Store.execute, Store.perform, Store.proceed, store, Effect.event?,
        σ.current_tape, Event.channel?]
    | read => cases io <;> simp [Store.execute, Store.perform, Store.proceed, store, Effect.event?,
        σ.tape_store, Array.map_pop, σ.getD_map]
    | loopStart | loopEnd =>
      by_cases hzero : s.tape.current = 0 <;>
        simp [Store.execute, Store.perform, Store.proceed, Store.jump, store, Effect.event?,
          hpartner, σ.current_eq_zero_iff, hzero]

end Symmetry

end TapeMachine
