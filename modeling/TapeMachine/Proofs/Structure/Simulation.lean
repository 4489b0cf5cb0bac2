import TapeMachine.Machine.Repetition
import TapeMachine.Proofs.Machine.Execution
import TapeMachine.Proofs.Structure.Semantics

/-!
# Trees run by jumps

The store steps through flat code with a table of partners. Where the code of a
tree stands, it does what the tree means, in as many steps as the tree counts,
and it gets past the tree only if the tree comes to an end. Both halves rest on
one fact about loops: a step at a loop's `]` leads where a step at its `[` would.
-/
namespace TapeMachine

open Brackets

variable {io : Bool} {p : Program} {s s' : Store} {i j m n : ℕ}

namespace Store

theorem step_simple (io : Bool) {x : Simple} (h : p.get? s.pc = some x.instruction) :
    ∃ s', s.step io p = (false, s') ∧ s'.memory = x.run io s.memory ∧ s'.pc = s.pc + 1 := by
  obtain ⟨hmemory, hpc, -⟩ := s.perform_simple io ((p.partner? s.pc).getD s.pc) x
  refine ⟨_, step_of_get? h, ?_, ?_⟩
  · rw [← hmemory]
    rfl
  · rw [← hpc]
    rfl

/-- At either bracket of a loop the next place is the beginning of the body, or past
the loop when the current cell is zero. -/
theorem step_bracket (io : Bool) (hpair : Pair p.code.toList i j) (hpc : s.pc = i ∨ s.pc = j) :
    ∃ s', s.step io p = (false, s') ∧ s'.memory = s.memory ∧
      s'.pc = if s.memory.current = 0 then j + 1 else i + 1 := by
  obtain ⟨hstart, hstop⟩ := p.partner?_of_pair hpair
  rw [current_memory]
  rcases hpc with rfl | rfl
  · have hget : p.get? s.pc = some .loopStart := (p.getElem?_toList_code _).symm.trans hpair.start
    refine ⟨_, step_of_get? hget, ?_, ?_⟩
    · simp only [execute, perform, proceed, jump]
      split <;> rfl
    · simp only [execute, perform, proceed, jump, hstart]
      split <;> rfl
  · have hget : p.get? s.pc = some .loopEnd := (p.getElem?_toList_code _).symm.trans hpair.stop
    refine ⟨_, step_of_get? hget, ?_, ?_⟩
    · simp only [execute, perform, proceed, jump]
      split <;> rfl
    · simp only [execute, perform, proceed, jump, hstop]
      by_cases hzero : s.tape.current = 0 <;> simp [hzero]

end Store

/-- `n` steps lead from one store to the other and find an instruction each time. -/
def Store.Leads (io : Bool) (p : Program) (n : ℕ) (s s' : Store) : Prop :=
  repeatUntil (Store.step io p) n s = (false, s')

theorem Store.leads_succ_iff : s.Leads io p (n + 1) s' ↔
    ∃ x, p.get? s.pc = some x ∧ (s.execute io p x).2.Leads io p n s' := by
  unfold Leads
  cases hget : p.get? s.pc with
  | none => simp [repeatUntil_succ_of_end n (step_of_end hget)]
  | some x => simp [repeatUntil_succ_of_not_end n (step_of_get? hget)]

namespace Store.Leads

theorem refl (s : Store) : Leads io p 0 s s := rfl

theorem single (h : s.step io p = (false, s')) : Leads io p 1 s s' := by
  rw [Leads, repeatUntil_one, h]

theorem trans {s'' : Store} (h : Leads io p m s s') (h' : Leads io p n s' s'') :
    Leads io p (m + n) s s'' :=
  (repeatUntil_add_of_not_end n h).trans h'

theorem steps_eq (h : Leads io p n s s') : s'.steps = s.steps + UInt64.ofNat n := by
  induction n generalizing s with
  | zero =>
    obtain rfl : s = s' := congrArg Prod.snd h
    simp
  | succ n ih =>
    obtain ⟨x, -, hrest⟩ := leads_succ_iff.mp h
    rw [ih hrest, steps_execute, Nat.add_comm n 1, UInt64.ofNat_add, UInt64.add_assoc]
    rfl

theorem remaining (h : Leads io p m s s') (hend : (repeatUntil (Store.step io p) n s).1 = true) :
    m < n ∧ (repeatUntil (Store.step io p) (n - m) s').1 = true := by
  have hlt : m < n := by
    by_contra hle
    obtain ⟨l, rfl⟩ := Nat.exists_eq_add_of_le (Nat.le_of_not_lt hle)
    have := repeatUntil_add_of_end l (Prod.ext hend rfl)
    rw [h] at this
    simp at this
  refine ⟨hlt, ?_⟩
  have hsplit := repeatUntil_add_of_not_end (n - m) h
  rw [Nat.add_sub_cancel' hlt.le] at hsplit
  rwa [← hsplit]

end Store.Leads

namespace Tree

/-- The code of the tree stands in the program from place `i` on. -/
def At (T : Tree) (p : Program) (i : ℕ) : Prop :=
  ∃ front back, p.code.toList = front ++ (T.flatten ++ back) ∧ front.length = i

variable {T body rest : Tree} {t : Memory}

theorem At.get? {x : Simple} (h : (single x rest).At p i) : p.get? i = some x.instruction := by
  obtain ⟨front, back, hcode, rfl⟩ := h
  rw [← p.getElem?_toList_code, hcode]
  simp [flatten]

theorem At.rest_of_single {x : Simple} (h : (single x rest).At p i) : rest.At p (i + 1) := by
  obtain ⟨front, back, hcode, rfl⟩ := h
  exact ⟨front ++ [x.instruction], back, by simp [hcode, flatten], by simp⟩

theorem At.pair (h : (loop body rest).At p i) :
    Pair p.code.toList i (i + 1 + body.flatten.length) := by
  obtain ⟨front, back, hcode, rfl⟩ := h
  have hshape : p.code.toList =
      front ++ .loopStart :: (body.flatten ++ .loopEnd :: (rest.flatten ++ back)) := by
    simp [hcode, flatten]
  rw [hshape]
  exact pair_of_balanced body.balanced_flatten

theorem At.body_of_loop (h : (loop body rest).At p i) : body.At p (i + 1) := by
  obtain ⟨front, back, hcode, rfl⟩ := h
  exact ⟨front ++ [.loopStart], .loopEnd :: (rest.flatten ++ back), by simp [hcode, flatten],
    by simp⟩

theorem At.rest_of_loop (h : (loop body rest).At p i) :
    rest.At p (i + 1 + body.flatten.length + 1) := by
  obtain ⟨front, back, hcode, rfl⟩ := h
  refine ⟨front ++ .loopStart :: (body.flatten ++ [.loopEnd]), back, by simp [hcode, flatten], ?_⟩
  simp
  omega

/-- What a tree means is what the store does where the tree stands. -/
def Simulated (io : Bool) (p : Program) (T : Tree) : Prop :=
  ∀ i n s t, T.At p i → s.pc = i → T.Evaluates io s.memory n t →
    ∃ s', Store.Leads io p n s s' ∧ s'.memory = t ∧ s'.pc = i + T.flatten.length

/-- A loop's passes, begun at either of its brackets, lead past the loop. -/
theorem leads_of_passes (hloop : (loop body rest).At p i) (hbody : body.Simulated io p)
    {a : Memory} (h : Passes (body.Evaluates io) a n t) :
    ∀ s : Store, s.memory = a → (s.pc = i ∨ s.pc = i + 1 + body.flatten.length) →
      ∃ s', Store.Leads io p (1 + n) s s' ∧ s'.memory = t ∧
        s'.pc = i + 1 + body.flatten.length + 1 := by
  induction h with
  | stop hzero =>
    rintro s rfl hpc
    obtain ⟨s', hstep, hmemory, hpc'⟩ := Store.step_bracket io hloop.pair hpc
    rw [if_pos hzero] at hpc'
    exact ⟨s', .single hstep, hmemory, hpc'⟩
  | @again a b u m n hnonzero first others ih =>
    rintro s rfl hpc
    obtain ⟨s₁, hstep, hmemory₁, hpc₁⟩ := Store.step_bracket io hloop.pair hpc
    rw [if_neg hnonzero] at hpc₁
    rw [← hmemory₁] at first
    obtain ⟨s₂, hlead₂, hmemory₂, hpc₂⟩ := hbody _ _ s₁ _ hloop.body_of_loop hpc₁ first
    obtain ⟨s₃, hlead₃, hmemory₃, hpc₃⟩ := ih s₂ hmemory₂ (.inr hpc₂)
    have hall := (Store.Leads.single hstep).trans (hlead₂.trans hlead₃)
    rw [show 1 + (m + (1 + n)) = 1 + (m + 1 + n) by omega] at hall
    exact ⟨s₃, hall, hmemory₃, hpc₃⟩

theorem simulated (io : Bool) (p : Program) (T : Tree) : T.Simulated io p := by
  induction T with
  | done =>
    rintro i n s t - hpc ⟨rfl, rfl⟩
    exact ⟨s, .refl s, rfl, hpc⟩
  | single x rest ih =>
    rintro i n s t hat rfl ⟨k, hrest, rfl⟩
    obtain ⟨s₁, hstep, hmemory, hpc⟩ := Store.step_simple io hat.get?
    rw [← hmemory] at hrest
    obtain ⟨s₂, hlead, hmemory₂, hpc₂⟩ := ih _ _ s₁ _ hat.rest_of_single hpc hrest
    refine ⟨s₂, (Store.Leads.single hstep).trans hlead, hmemory₂, ?_⟩
    rw [hpc₂, flatten, List.length_cons]
    omega
  | loop body rest ihbody ihrest =>
    rintro i n s t hat hpc ⟨k, u, l, hpasses, hrest, rfl⟩
    obtain ⟨s₁, hlead₁, hmemory₁, hpc₁⟩ := leads_of_passes hat ihbody hpasses s rfl (.inl hpc)
    rw [← hmemory₁] at hrest
    obtain ⟨s₂, hlead₂, hmemory₂, hpc₂⟩ := ihrest _ _ s₁ _ hat.rest_of_loop hpc₁ hrest
    refine ⟨s₂, hlead₁.trans hlead₂, hmemory₂, ?_⟩
    rw [hpc₂, flatten, List.length_cons, List.length_append, List.length_cons]
    omega

/-- Where stepping comes to an end, a tree that it goes through has come to an end. -/
def Reflected (io : Bool) (p : Program) (T : Tree) : Prop :=
  ∀ i n s, T.At p i → s.pc = i → (repeatUntil (Store.step io p) n s).1 = true →
    ∃ k t, T.Evaluates io s.memory k t

/-- Stepping that comes to an end from one of a loop's brackets finishes the passes. -/
theorem passes_of_end (hloop : (loop body rest).At p i) (hbody : body.Reflected io p) :
    ∀ n s, (s.pc = i ∨ s.pc = i + 1 + body.flatten.length) →
      (repeatUntil (Store.step io p) n s).1 = true →
        ∃ k t, Passes (body.Evaluates io) s.memory k t := by
  intro n
  induction n using Nat.strong_induction_on with
  | _ n ih =>
    intro s hpc hend
    by_cases hzero : s.memory.current = 0
    · exact ⟨0, _, .stop hzero⟩
    · obtain ⟨s₁, hstep, hmemory, hpc₁⟩ := Store.step_bracket io hloop.pair hpc
      rw [if_neg hzero] at hpc₁
      obtain ⟨hlt, hend₁⟩ := (Store.Leads.single hstep).remaining hend
      obtain ⟨k, t, hfirst⟩ := hbody _ _ s₁ hloop.body_of_loop hpc₁ hend₁
      obtain ⟨s₂, hlead, rfl, hpc₂⟩ := simulated io p body _ _ s₁ _ hloop.body_of_loop hpc₁ hfirst
      obtain ⟨hlt₂, hend₂⟩ := hlead.remaining hend₁
      obtain ⟨l, u, hothers⟩ := ih _ (by omega) s₂ (.inr hpc₂) hend₂
      rw [hmemory] at hfirst
      exact ⟨k + 1 + l, u, .again hzero hfirst hothers⟩

theorem reflected (io : Bool) (p : Program) (T : Tree) : T.Reflected io p := by
  induction T with
  | done =>
    intro i n s _ _ _
    exact ⟨0, _, rfl, rfl⟩
  | single x rest ih =>
    rintro i n s hat rfl hend
    obtain ⟨s₁, hstep, hmemory, hpc⟩ := Store.step_simple io hat.get?
    obtain ⟨-, hend₁⟩ := (Store.Leads.single hstep).remaining hend
    obtain ⟨k, t, hrest⟩ := ih _ _ s₁ hat.rest_of_single hpc hend₁
    rw [hmemory] at hrest
    exact ⟨1 + k, t, k, hrest, rfl⟩
  | loop body rest ihbody ihrest =>
    intro i n s hat hpc hend
    obtain ⟨k, u, hpasses⟩ := passes_of_end hat ihbody n s (.inl hpc) hend
    obtain ⟨s₁, hlead, rfl, hpc₁⟩ :=
      leads_of_passes hat (simulated io p body) hpasses s rfl (.inl hpc)
    obtain ⟨-, hend₁⟩ := hlead.remaining hend
    obtain ⟨l, t, hrest⟩ := ihrest _ _ s₁ hat.rest_of_loop hpc₁ hend₁
    exact ⟨1 + k + l, t, k, _, l, hpasses, hrest, rfl⟩

/-! ### Whole programs -/

theorem at_zero (h : T.flatten = p.code.toList) : T.At p 0 :=
  ⟨[], [], by simp [h], rfl⟩

/-- A program whose tree comes to its end does so in as many steps as the tree counts,
and one more step finds that out. -/
theorem end_of_evaluates (h : T.flatten = p.code.toList) (hpc : s.pc = 0)
    (heval : T.Evaluates io s.memory n t) (hlt : n < m) :
    ∃ s', repeatUntil (Store.step io p) m s = (true, s') ∧ s'.memory = t ∧
      s'.pc = p.size ∧ s'.steps = s.steps + UInt64.ofNat n := by
  obtain ⟨s', hlead, hmemory, hpc'⟩ := simulated io p T 0 n s t (at_zero h) hpc heval
  have hsize : s'.pc = p.size := by
    rw [hpc', h, Array.length_toList]
    exact Nat.zero_add _
  have hend : s'.step io p = (true, s') :=
    Store.step_of_end (Array.getElem?_eq_none_iff.mpr hsize.ge)
  obtain ⟨l, rfl⟩ := Nat.exists_eq_add_of_le hlt
  refine ⟨s', ?_, hmemory, hsize, hlead.steps_eq⟩
  rw [Nat.succ_add, ← Nat.add_succ, repeatUntil_add_of_not_end _ hlead,
    repeatUntil_succ_of_end _ hend]

theorem end_iff_evaluates (h : T.flatten = p.code.toList) (hpc : s.pc = 0) :
    (repeatUntil (Store.step io p) m s).1 = true ↔
      ∃ n t, n < m ∧ T.Evaluates io s.memory n t := by
  constructor
  · intro hend
    obtain ⟨n, t, heval⟩ := reflected io p T 0 m s (at_zero h) hpc hend
    obtain ⟨s', hlead, -⟩ := simulated io p T 0 n s t (at_zero h) hpc heval
    exact ⟨n, t, (hlead.remaining hend).1, heval⟩
  · rintro ⟨n, t, hlt, heval⟩
    obtain ⟨s', hend, -⟩ := end_of_evaluates h hpc heval hlt
    rw [hend]

end Tree

end TapeMachine
