import TapeMachine.Proofs.Machine.Course
import TapeMachine.Proofs.Runs.Agreement
import TapeMachine.Proofs.Silence.Code
import TapeMachine.Proofs.Structure.Simulation

/-!
# Runs without input and output

Without input and output a program runs as it does when its transfers are left out. The
shorter program follows the longer one: it waits while a transfer is executed, and takes
the same step at every other instruction. The longer program cannot stay at transfers,
since each of them brings it nearer to its end.
-/
namespace TapeMachine

open Brackets

namespace Store

/-- `n` steps find an instruction each and lead to `s'`, where there is none. -/
def EndsAfter (io : Bool) (p : Program) (n : ℕ) (s s' : Store) : Prop :=
  s.Leads io p n s' ∧ p.get? s'.pc = none

/-- `t` is where the silenced program stands while the whole program `p` stands at `s`. -/
structure Follows (p : Program) (t s : Store) : Prop where
  tape_eq : t.tape = s.tape
  input_eq : t.input = s.input
  output_eq : t.output = s.output
  pc_eq : t.pc = silencedPlace p.code.toList s.pc

variable {io : Bool} {p q : Program} {s s' t t' : Store} {x : Instruction} {k n : ℕ}

theorem Leads.queues_eq (h : s.Leads false p n s') :
    s'.output = s.output ∧ s'.input = s.input := by
  induction n generalizing s with
  | zero =>
    obtain rfl : s = s' := congrArg Prod.snd h
    exact ⟨rfl, rfl⟩
  | succ n ih =>
    obtain ⟨x, -, hrest⟩ := leads_succ_iff.mp h
    obtain ⟨houtput, hinput⟩ := ih hrest
    rcases s.queues_execute false p x with ⟨hout, hin⟩ | ⟨hfalse, -⟩
    · exact ⟨houtput.trans hout, hinput.trans hin⟩
    · simp at hfalse

/-! ### One instruction -/

/-- A transfer does nothing, and the silenced program waits. -/
theorem Follows.transfer (h : Follows p t s) (hget : p.get? s.pc = some x)
    (hx : x.isTransfer = true) :
    Follows p t (s.execute false p x).2 ∧ (s.execute false p x).2.pc = s.pc + 1 := by
  have hplace := silencedPlace_succ ((p.getElem?_toList_code s.pc).trans hget)
  rw [if_pos hx] at hplace
  cases x with
  | write | read => exact ⟨⟨h.tape_eq, h.input_eq, h.output_eq, h.pc_eq.trans hplace.symm⟩, rfl⟩
  | _ => simp [Instruction.isTransfer] at hx

theorem Follows.get? (hq : q.code.toList = silenced p.code.toList) (h : Follows p t s)
    (hget : p.get? s.pc = some x) (hx : x.isTransfer = false) : q.get? t.pc = some x := by
  rw [← q.getElem?_toList_code, hq, h.pc_eq]
  exact getElem?_silencedPlace ((p.getElem?_toList_code s.pc).trans hget) hx

theorem partner?_silencedPlace (hq : q.code.toList = silenced p.code.toList) {i j : ℕ}
    (h : p.partner? i = some j) :
    q.partner? (silencedPlace p.code.toList i) = some (silencedPlace p.code.toList j) := by
  rw [q.partner?_eq_some_iff, hq]
  exact (p.partner?_eq_some_iff.mp h).imp pair_silenced pair_silenced

theorem Follows.execute (hq : q.code.toList = silenced p.code.toList) (h : Follows p t s)
    (hget : p.get? s.pc = some x) (hx : x.isTransfer = false) :
    Follows p (t.execute false q x).2 (s.execute false p x).2 := by
  have hplace := silencedPlace_succ ((p.getElem?_toList_code s.pc).trans hget)
  rw [hx, if_neg Bool.false_ne_true] at hplace
  obtain ⟨tape, pc, input, output, steps⟩ := t
  obtain ⟨rfl, rfl, rfl, rfl⟩ := h
  cases x with
  | moveRight | moveLeft | increment | decrement => exact ⟨rfl, rfl, rfl, hplace.symm⟩
  | write | read => simp [Instruction.isTransfer] at hx
  | loopStart | loopEnd =>
    obtain ⟨j, hj⟩ := p.exists_partner?_of_isBracket hget rfl
    obtain ⟨y, hy, hbracket⟩ := p.isBracket_of_partner? (p.partner?_symm hj)
    have hjump := silencedPlace_succ ((p.getElem?_toList_code j).trans hy)
    rw [Instruction.isTransfer_eq_false hbracket, if_neg Bool.false_ne_true] at hjump
    have hpartner := partner?_silencedPlace hq hj
    simp only [Store.execute, perform, proceed, Store.jump, hj, hpartner]
    split
    · exact ⟨rfl, rfl, rfl, hjump.symm⟩
    · exact ⟨rfl, rfl, rfl, hplace.symm⟩

theorem Follows.get?_of_end (hq : q.code.toList = silenced p.code.toList) (h : Follows p t s)
    (hend : p.get? s.pc = none) : q.get? t.pc = none := by
  rw [← p.getElem?_toList_code, List.getElem?_eq_none_iff] at hend
  rw [← q.getElem?_toList_code, hq, h.pc_eq, silencedPlace_of_length_le hend]
  exact List.getElem?_eq_none_iff.mpr le_rfl

/-! ### Whole runs -/

def executed (s : Store) (io : Bool) (p : Program) (k : ℕ) : List Instruction :=
  (s.course io p k).map Snapshot.instruction

theorem executed_of_get? (h : p.get? s.pc = some x) (k : ℕ) :
    s.executed io p (k + 1) = x :: (s.execute io p x).2.executed io p k := by
  rw [executed, course_of_get? h]
  rfl

theorem length_executed (h : s.Leads io p n s') : (s.executed io p n).length = n := by
  rw [executed, List.length_map, length_course (congrArg Prod.fst h)]

/-- Where the whole program gets, the silenced one gets by the same instructions, less the
transfers. -/
theorem Follows.leads (hq : q.code.toList = silenced p.code.toList) (h : Follows p t s)
    (hlead : s.Leads false p n s') :
    ∃ k t', t.Leads false q k t' ∧ Follows p t' s' ∧
      t.executed false q k = silenced (s.executed false p n) := by
  induction n generalizing s t with
  | zero =>
    obtain rfl : s = s' := congrArg Prod.snd hlead
    exact ⟨0, t, .refl t, h, rfl⟩
  | succ n ih =>
    obtain ⟨x, hget, hrest⟩ := leads_succ_iff.mp hlead
    rw [executed_of_get? hget]
    cases hx : x.isTransfer with
    | true =>
      obtain ⟨k, t', hlead', hfollows, hexecuted⟩ := ih (h.transfer hget hx).1 hrest
      refine ⟨k, t', hlead', hfollows, ?_⟩
      rw [hexecuted]
      exact (List.filter_cons_of_neg (by simp [hx])).symm
    | false =>
      obtain ⟨k, t', hlead', hfollows, hexecuted⟩ := ih (h.execute hq hget hx) hrest
      have hget' := h.get? hq hget hx
      refine ⟨k + 1, t', leads_succ_iff.mpr ⟨x, hget', hlead'⟩, hfollows, ?_⟩
      rw [executed_of_get? hget', hexecuted, silenced_cons hx]

theorem Follows.endsAfter (hq : q.code.toList = silenced p.code.toList) (h : Follows p t s)
    (hend : s.EndsAfter false p n s') :
    ∃ k t', t.EndsAfter false q k t' ∧ Follows p t' s' ∧
      n = k + (s.executed false p n).countP Instruction.isTransfer := by
  obtain ⟨k, t', hlead, hfollows, hexecuted⟩ := h.leads hq hend.1
  refine ⟨k, t', ⟨hlead, hfollows.get?_of_end hq hend.2⟩, hfollows, ?_⟩
  have hwhole := length_executed hend.1
  have hkept := length_executed hlead
  rw [← hkept, hexecuted, length_silenced, hwhole]

/-- Past the transfers where it stands, the whole program finds what the silenced one
finds. -/
theorem Follows.exists_leads (hq : q.code.toList = silenced p.code.toList)
    (h : Follows p t s) :
    ∃ n s', s.Leads false p n s' ∧ Follows p t s' ∧ p.get? s'.pc = q.get? t.pc ∧
      ∀ x, p.get? s'.pc = some x → x.isTransfer = false := by
  -- A transfer does not jump, so the code that is left gets shorter with each of them.
  induction hleft : p.size - s.pc generalizing s with
  | zero =>
    have hend : p.get? s.pc = none :=
      Array.getElem?_eq_none_iff.mpr (Nat.sub_eq_zero_iff_le.mp hleft)
    exact ⟨0, s, .refl s, h, by rw [hend, h.get?_of_end hq hend], by simp [hend]⟩
  | succ left ih =>
    cases hget : p.get? s.pc with
    | none => exact ⟨0, s, .refl s, h, by rw [hget, h.get?_of_end hq hget], by simp [hget]⟩
    | some x =>
      cases hx : x.isTransfer with
      | false => exact ⟨0, s, .refl s, h, by rw [hget, h.get? hq hget hx], by simp [hget, hx]⟩
      | true =>
        obtain ⟨hfollows, hpc⟩ := h.transfer hget hx
        obtain ⟨n, s', hlead, hrest⟩ := ih hfollows (by omega)
        exact ⟨n + 1, s', leads_succ_iff.mpr ⟨x, hget, hlead⟩, hrest⟩

theorem Follows.exists_endsAfter (hq : q.code.toList = silenced p.code.toList)
    (h : Follows p t s) (hend : t.EndsAfter false q k t') :
    ∃ n s', s.EndsAfter false p n s' := by
  induction k generalizing s t with
  | zero =>
    obtain ⟨n, s', hlead, -, hget, -⟩ := h.exists_leads hq
    obtain rfl : t = t' := congrArg Prod.snd hend.1
    exact ⟨n, s', hlead, hget.trans hend.2⟩
  | succ k ih =>
    obtain ⟨n, s₁, hlead, hfollows, hget, hnext⟩ := h.exists_leads hq
    obtain ⟨x, hx, hrest⟩ := leads_succ_iff.mp hend.1
    rw [hx] at hget
    obtain ⟨l, s', hlead', hget'⟩ := ih (hfollows.execute hq hget (hnext x hget)) ⟨hrest, hend.2⟩
    exact ⟨n + (l + 1), s', hlead.trans (leads_succ_iff.mpr ⟨x, hget, hlead'⟩), hget'⟩

end Store

namespace Machine

variable {m : Machine} {input : Array UInt8} {io : Bool} {s : Store} {n : ℕ}

theorem Undisturbed.haltsAfter_iff (h : m.Undisturbed) (hrun : m.phase = .running)
    (hio : m.setup.io = io) : m.HaltsAfter n ↔ ∃ s, m.store.EndsAfter io m.program n s := by
  subst hio
  obtain ⟨hstore, heffects⟩ := h.walk_eq hrun n
  constructor
  · rintro ⟨hgoes, hhalts⟩
    rw [heffects, Bool.not_eq_true] at hgoes
    obtain ⟨-, hget⟩ := step_eq_of_halted ((ran_step_eq_none_iff _).mpr hhalts)
    rw [heed_of_not_requested _ (h n), program_walk, hstore] at hget
    exact ⟨_, Prod.ext hgoes rfl, hget⟩
  · rintro ⟨s, hlead, hget⟩
    have hplace : (m.walk n).machine.store = s := by rw [hstore, hlead]
    rw [hlead] at heffects
    rw [← program_walk m n, ← hplace] at hget
    exact ⟨by simp [heffects], by rw [step_at_end (h n) hget]⟩

theorem run_of_endsAfter (h : (m.start input).Undisturbed) (hio : m.setup.io = io)
    (hend : (m.start input).store.EndsAfter io m.program n s) (hlt : n < UInt64.size) :
    ∃ e, m.run input = some e ∧ e.outcome = .completed ∧ e.machine.store = s ∧
      s.steps.toNat = n := by
  subst hio
  have hn : (m.start input).HaltsAfter n := (h.haltsAfter_iff rfl rfl).mpr ⟨s, hend⟩
  have hstore : ((m.start input).walk (n + 1)).machine.store = s := by
    rw [(h.walk_eq rfl (n + 1)).1, setup_start, program_start, repeatUntil_add_of_not_end 1 hend.1,
      repeatUntil_one, Store.step_of_end hend.2]
  have hpeaceful : (m.launch input .immediate).Peaceful := .inl rfl
  obtain ⟨e, he, houtcome, hmachine⟩ := runPaced_of_haltsAfter hpeaceful h hn hlt
  obtain ⟨-, hsteps⟩ := walk_of_haltsAfter hn hlt
  rw [hstore] at hsteps
  exact ⟨e, he, houtcome, by rw [hmachine, hstore], hsteps⟩

end Machine

/-- Without input and output `.` and `,` can be left out of a program text: what remains is
a program too. Run on the same cells and the same input, it comes to an end if and only if
the whole program does, and the end is the same: the same cells and pointer, nothing
written and nothing read. The whole program takes one step more for each `.` and `,` that
it executes. -/
theorem silenced_runs_agree {source : String} {p : Program}
    (h : Program.ofText source = .ok p) :
    ∃ q, Program.ofText (silencedText source) = .ok q ∧
      ∀ (m m' : Machine) (input : Array UInt8), m.program = p → m'.program = q →
        m.setup.io = false → m'.setup = m.setup → m'.store.tape.cells = m.store.tape.cells →
        (m.start input).Undisturbed → (m'.start input).Undisturbed →
        ((∃ n, (m.start input).HaltsAfter n) ↔ ∃ k, (m'.start input).HaltsAfter k) ∧
        ∀ n, (m.start input).HaltsAfter n →
          let executed := (m.start input).store.executed false p n
          let transfers := executed.countP Instruction.isTransfer
          executed.length = n ∧ (∃ k, (m'.start input).HaltsAfter k ∧ n = k + transfers) ∧
          (n < UInt64.size → ∃ e e', m.run input = some e ∧ m'.run input = some e' ∧
            e.outcome = .completed ∧ e'.outcome = .completed ∧
            e.machine.store.tape = e'.machine.store.tape ∧
            e.machine.store.output = #[] ∧ e'.machine.store.output = #[] ∧
            e.machine.store.input = input ∧ e'.machine.store.input = input ∧
            e.machine.store.steps.toNat = e'.machine.store.steps.toNat + transfers) := by
  have hcode := Program.toList_code_of_ofCode h
  obtain ⟨q, hq⟩ : ∃ q, Program.ofText (silencedText source) = .ok q := by
    rw [Program.ofText, instructions_silencedText, Program.exists_ofCode_eq_ok_iff, ← hcode]
    exact balanced_silenced p.balanced_code
  have hsilenced : q.code.toList = silenced p.code.toList := by
    rw [Program.toList_code_of_ofCode hq, instructions_silencedText, hcode]
  refine ⟨q, hq, ?_⟩
  rintro m m' input rfl rfl hio hsetup hcells hcalm hcalm'
  have hfollows : Store.Follows m.program (m'.start input).store (m.start input).store :=
    ⟨Tape.ext hcells rfl, rfl, rfl, rfl⟩
  have hio' : m'.setup.io = false := by rw [hsetup, hio]
  have hends : ∀ n, (m.start input).HaltsAfter n ↔
      ∃ s, (m.start input).store.EndsAfter false m.program n s :=
    fun n => hcalm.haltsAfter_iff rfl hio
  have hends' : ∀ k, (m'.start input).HaltsAfter k ↔
      ∃ t, (m'.start input).store.EndsAfter false m'.program k t :=
    fun k => hcalm'.haltsAfter_iff rfl hio'
  refine ⟨⟨?_, ?_⟩, ?_⟩
  · rintro ⟨n, hn⟩
    obtain ⟨s, hend⟩ := (hends n).mp hn
    obtain ⟨k, t, hend', -⟩ := hfollows.endsAfter hsilenced hend
    exact ⟨k, (hends' k).mpr ⟨t, hend'⟩⟩
  · rintro ⟨k, hk⟩
    obtain ⟨t, hend'⟩ := (hends' k).mp hk
    obtain ⟨n, s, hend⟩ := hfollows.exists_endsAfter hsilenced hend'
    exact ⟨n, (hends n).mpr ⟨s, hend⟩⟩
  · intro n hn executed transfers
    obtain ⟨s, hend⟩ := (hends n).mp hn
    obtain ⟨k, t, hend', hlast, hcount⟩ := hfollows.endsAfter hsilenced hend
    refine ⟨Store.length_executed hend.1, ⟨k, (hends' k).mpr ⟨t, hend'⟩, hcount⟩, ?_⟩
    intro hlt
    obtain ⟨e, he, houtcome, rfl, hsteps⟩ := Machine.run_of_endsAfter hcalm hio hend hlt
    obtain ⟨e', he', houtcome', rfl, hsteps'⟩ :=
      Machine.run_of_endsAfter hcalm' hio' hend' (by omega)
    obtain ⟨houtput, hinput⟩ := hend.1.queues_eq
    refine ⟨e, e', he, he', houtcome, houtcome', hlast.tape_eq.symm, houtput,
      hlast.output_eq.trans houtput, hinput, hlast.input_eq.trans hinput, ?_⟩
    rw [hsteps, hsteps']
    exact hcount

/-- The program `[>.,+<-]`, which adds a cell to the next one, and writes and reads on the
way if it can. -/
def addingAloud : Program where
  code := #[.loopStart, .moveRight, .write, .read, .increment, .moveLeft, .decrement, .loopEnd]
  partners := #[some 7, none, none, none, none, none, none, some 0]
  table_eq := rfl

def adding : Program where
  code := #[.loopStart, .moveRight, .increment, .moveLeft, .decrement, .loopEnd]
  partners := #[some 5, none, none, none, none, some 0]
  table_eq := rfl

/-- A machine without input and output whose first cell holds two. -/
def muted (p : Program) : Machine :=
  { Machine.fresh ⟨2, false⟩ Nat.two_pos with
    program := p
    store := .initial ((Tape.blank 2 Nat.two_pos).store 2) #[] }

theorem silenced_runs_agree_adding :
    Program.ofText "[>.,+<-] adds" = .ok addingAloud ∧
      ((muted addingAloud).start #[7]).HaltsAfter 15 ∧
      ∃ e e', (muted addingAloud).run #[7] = some e ∧ (muted adding).run #[7] = some e' ∧
        e.outcome = .completed ∧ e.machine.store.tape = e'.machine.store.tape ∧
        e.machine.store.output = #[] ∧ e.machine.store.input = #[7] ∧
        e.machine.store.steps.toNat = e'.machine.store.steps.toNat + 4 := by
  have hsource : Program.ofText "[>.,+<-] adds" = .ok addingAloud := by decide
  have hsilenced : Program.ofText (silencedText "[>.,+<-] adds") = .ok adding := by decide
  have hn : ((muted addingAloud).start #[7]).HaltsAfter 15 := by decide +kernel
  have hcalm : ∀ p, ((muted p).start #[7]).Undisturbed := fun p =>
    Machine.undisturbed_of_alarms rfl (by simp [Machine.start]) rfl
  obtain ⟨q, hq, hruns⟩ := silenced_runs_agree hsource
  obtain rfl : q = adding := Except.ok.inj (hq.symm.trans hsilenced)
  obtain ⟨-, hends⟩ := hruns (muted addingAloud) (muted adding) #[7] rfl rfl rfl rfl rfl
    (hcalm addingAloud) (hcalm adding)
  obtain ⟨-, -, hrun⟩ := hends 15 hn
  obtain ⟨e, e', he, he', houtcome, -, htape, houtput, -, hinput, -, hsteps⟩ := hrun (by decide)
  have hcount : (((muted addingAloud).start #[7]).store.executed false addingAloud 15).countP
      Instruction.isTransfer = 4 := by
    decide +kernel
  rw [hcount] at hsteps
  exact ⟨hsource, hn, e, e', he, he', houtcome, htape, houtput, hinput, hsteps⟩

end TapeMachine
