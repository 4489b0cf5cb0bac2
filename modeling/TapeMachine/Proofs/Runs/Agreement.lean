import TapeMachine.Proofs.Machine.Undisturbed
import TapeMachine.Proofs.Runs.Budget

/-!
# All runs agree with stepping by hand

While nobody asks for cancellation, a run, a paced run and a run within a sufficient
limit leave the machine that stepping by hand leaves. A limit that is too small leaves
the machine where as many steps have led it.
-/
namespace TapeMachine

variable {m : Machine} {input : Array UInt8} {pace : Pace} {limit : UInt64} {n k : ℕ}

namespace Machine

theorem Undisturbed.cancelled_walk (h : m.Undisturbed) (k : ℕ) :
    (m.walk k).machine.cancelled = m.cancelled := by
  induction k with
  | zero => rfl
  | succ k ih => rw [machine_walk_succ, cancelled_step (h k), ih]

theorem Undisturbed.machine_walk_of_haltsAfter (h : m.Undisturbed) (hn : m.HaltsAfter n) :
    (m.walk (n + 1)).machine = (m.walk n).machine.halt ∧
      m.program.size ≤ (m.walk n).machine.store.pc := by
  have hran := (ran_step_eq_none_iff _).mpr hn.2
  obtain ⟨hstep, hget⟩ := step_eq_of_halted hran
  rw [heed_of_not_requested _ (h n)] at hstep hget
  rw [machine_walk_succ, hstep]
  refine ⟨rfl, ?_⟩
  rw [← program_walk m n]
  exact Array.getElem?_eq_none_iff.mp hget

/-- A limit that is not reached leaves what stepping to the end leaves; if it is reached
with the last instruction, the end is noticed without another step. -/
theorem runWithin_of_le (hcalm : (m.start input).Undisturbed)
    (hn : (m.start input).HaltsAfter n) (hle : n ≤ limit.toNat) :
    (m.runWithin input limit).outcome = .completed ∧
      (m.runWithin input limit).machine = ((m.start input).walk (n + 1)).machine := by
  obtain ⟨hlast, hpc⟩ := hcalm.machine_walk_of_haltsAfter hn
  rw [program_start] at hpc
  have hcancelled : ((m.start input).walk limit.toNat).machine.cancelled = false :=
    hcalm.cancelled_walk _
  have hend : m.program.size ≤ ((m.start input).walk limit.toNat).machine.store.pc ∧
      ((m.start input).walk limit.toNat).machine.halt =
        ((m.start input).walk (n + 1)).machine := by
    rcases hle.eq_or_lt with heq | hlt
    · rw [← heq, hlast]
      exact ⟨hpc, rfl⟩
    · rw [hn.machine_walk hlt, hlast]
      exact ⟨hpc, rfl⟩
  rw [runWithin_eq]
  simp [hend, hcancelled]

theorem runWithin_of_lt (h : ∀ n, (m.start input).HaltsAfter n → limit.toNat < n) :
    (m.runWithin input limit).outcome = .outOfSteps ∧
      (m.runWithin input limit).machine = ((m.start input).walk limit.toNat).machine ∧
      ((m.start input).walk limit.toNat).machine.phase = .running ∧
      ((m.start input).walk limit.toNat).machine.store.steps = limit ∧
      ((m.start input).walk limit.toNat).machine.store.pc < m.program.size := by
  have hgoes : .halted ∉ ((m.start input).walk (limit.toNat + 1)).effects := by
    intro hhalted
    obtain ⟨n, hlt, hn⟩ := exists_haltsAfter hhalted
    have := h n hn
    omega
  obtain ⟨hbefore, x, hran⟩ := halted_notMem_walk_succ_iff.mp hgoes
  obtain ⟨hphase, hsteps⟩ := running_walk rfl hbefore
  have hpc : ((m.start input).walk limit.toNat).machine.store.pc < m.program.size := by
    have hget := get?_of_ran hran
    rw [program_walk] at hget
    exact (Array.getElem?_eq_some_iff.mp hget).1
  have hcount : ((m.start input).walk limit.toNat).machine.store.steps = limit := by
    rw [hsteps, UInt64.ofNat_toNat]
    exact UInt64.zero_add limit
  rw [runWithin_eq]
  simp [hpc.not_ge, hphase, hcount, hpc]

theorem finish_of_haltsAfter (hpeaceful : (m.launch input pace).Peaceful)
    (hcalm : (m.start input).Undisturbed) (hn : (m.start input).HaltsAfter n) (hlt : n < k) :
    ((m.launch input pace).advance k).1 = true ∧
      ((m.launch input pace).advance k).2.finish.outcome = .completed ∧
      ((m.launch input pace).advance k).2.finish.machine =
        ((m.start input).walk (n + 1)).machine := by
  obtain ⟨hmachine, hended⟩ := hpeaceful.advance k
  change _ = ((m.start input).walk k).machine at hmachine
  have hcancelled : ((m.start input).walk k).machine.cancelled = false := hcalm.cancelled_walk k
  refine ⟨hended.mpr (hn.halted_mem_iff.mpr hlt), ?_, hmachine.trans (hn.machine_walk hlt)⟩
  simp [Progress.finish, hmachine, hcancelled]

theorem runPaced_of_haltsAfter (hpeaceful : (m.launch input pace).Peaceful)
    (hcalm : (m.start input).Undisturbed) (hn : (m.start input).HaltsAfter n)
    (hlt : n < UInt64.size) :
    ∃ e, m.runPaced input pace = some e ∧ e.outcome = .completed ∧
      e.machine = ((m.start input).walk (n + 1)).machine := by
  obtain ⟨hended, hfinish⟩ := finish_of_haltsAfter hpeaceful hcalm hn hlt
  exact ⟨_, runPaced_eq_some_iff.mpr ⟨hended, rfl⟩, hfinish⟩

theorem walk_of_haltsAfter (hn : (m.start input).HaltsAfter n) (hlt : n < UInt64.size) :
    ((m.start input).walk (n + 1)).machine.AtRest ∧
      ((m.start input).walk (n + 1)).machine.store.steps.toNat = n := by
  refine ⟨atRest_walk (hn.halted_mem_iff.mpr (Nat.lt_succ_self n)), ?_⟩
  have hsteps := (running_walk rfl hn.1).2
  rw [machine_walk_succ, steps_step_of_halted ((ran_step_eq_none_iff _).mpr hn.2), hsteps]
  change ((0 : UInt64) + UInt64.ofNat n).toNat = n
  rw [UInt64.zero_add, UInt64.toNat_ofNat_of_lt' hlt]

/-- If nobody asks for cancellation and stepping by hand runs `n` instructions, then a
run, a run at any pace and a run within any limit from `n` on complete and leave the
machine that this stepping leaves; only a limit above `n` takes the step that finds the
end. A run within a limit below the number of instructions there are, if they end at all,
uses the limit up and leaves the machine running where stepping has led it. The loop that
tests the counter before each step always comes to this end, within the limit and with
every instruction counted. -/
theorem runs_agree (m : Machine) (input : Array UInt8) :
    ((m.start input).Undisturbed → ∀ n, (m.start input).HaltsAfter n → n < UInt64.size →
      let last := ((m.start input).walk (n + 1)).machine
      (last.phase = .halted ∧ last.store.steps.toNat = n) ∧
      (∃ e, m.run input = some e ∧ e.outcome = .completed ∧ e.machine = last) ∧
      (∀ pace, (m.launch input pace).Undisturbed →
        ∃ e, m.runPaced input pace = some e ∧ e.outcome = .completed ∧ e.machine = last) ∧
      ∀ limit : UInt64, n ≤ limit.toNat →
        (m.runWithin input limit).outcome = .completed ∧
        (m.runWithin input limit).machine = last ∧
        ((m.launch input .immediate).advance limit.toNat).1 = decide (n < limit.toNat)) ∧
    (∀ limit : UInt64, (∀ n, (m.start input).HaltsAfter n → limit.toNat < n) →
      let spent := ((m.start input).walk limit.toNat).machine
      (m.runWithin input limit).outcome = .outOfSteps ∧
      (m.runWithin input limit).machine = spent ∧
      spent.phase = .running ∧ spent.store.steps = limit ∧ spent.store.pc < m.program.size) ∧
    ∀ limit : UInt64, ∃ n ≤ limit.toNat,
      (m.runWithin input limit).machine.store.steps.toNat = n ∧
      ∀ k out, Progress.WhileBelow limit (m.launch input .immediate) k out ↔
        k = n ∧ out = (m.launch input .immediate).advance limit.toNat := by
  refine ⟨?_, fun limit => runWithin_of_lt, ?_⟩
  · intro hcalm n hn hlt
    obtain ⟨hrest, hsteps⟩ := walk_of_haltsAfter hn hlt
    refine ⟨⟨hrest.1, hsteps⟩, runPaced_of_haltsAfter (.inl rfl) hcalm hn hlt, ?_, ?_⟩
    · intro pace hpace
      exact runPaced_of_haltsAfter (.inr hpace) hcalm hn hlt
    · intro limit hle
      obtain ⟨houtcome, hmachine⟩ := runWithin_of_le hcalm hn hle
      obtain ⟨-, -, hended⟩ := m.advance_launch_immediate input limit.toNat
      rw [hn.halted_mem_iff] at hended
      exact ⟨houtcome, hmachine, Bool.eq_iff_iff.mpr (hended.trans decide_eq_true_iff.symm)⟩
  · intro limit
    obtain ⟨n, hle, hsteps, hloop⟩ := Progress.whileBelow_launch m input .immediate limit
    refine ⟨n, hle, ?_, hloop⟩
    rw [← hsteps, (m.advance_launch_immediate input limit.toNat).1, runWithin_eq]
    dsimp only
    split <;> rfl

/-- The program `+[,.]`, which passes on what it reads up to a zero. -/
def relay : Program where
  code := #[.increment, .loopStart, .read, .write, .loopEnd]
  partners := #[none, some 4, none, none, some 1]
  table_eq := rfl

theorem runs_agree_relay :
    ((loaded relay).start #[7]).Undisturbed ∧ ((loaded relay).start #[7]).HaltsAfter 8 ∧
      ((loaded relay).launch #[7] ⟨5, none⟩).Undisturbed ∧
      (∃ e, (loaded relay).run #[7] = some e ∧ e.outcome = .completed ∧
        e.machine.store.output = #[7, 0]) ∧
      (∃ e, (loaded relay).runPaced #[7] ⟨5, none⟩ = some e ∧ e.outcome = .completed ∧
        e.machine.store.output = #[7, 0]) ∧
      ((loaded relay).runWithin #[7] 8).outcome = .completed ∧
      (∀ n, ((loaded relay).start #[7]).HaltsAfter n → (3 : UInt64).toNat < n) ∧
      ((loaded relay).runWithin #[7] 3).outcome = .outOfSteps := by
  have hcalm : ((loaded relay).start #[7]).Undisturbed := undisturbed_of_alarms rfl (by decide) rfl
  have hn : ((loaded relay).start #[7]).HaltsAfter 8 := by decide +kernel
  have hpace : ((loaded relay).launch #[7] ⟨5, none⟩).Undisturbed :=
    Progress.undisturbed_of_cancelAt hcalm rfl
  have hlimit : ∀ n, ((loaded relay).start #[7]).HaltsAfter n → (3 : UInt64).toNat < n := by
    intro n h
    rw [← hn.unique h]
    decide
  have houtput : (((loaded relay).start #[7]).walk 9).machine.store.output = #[7, 0] := by
    decide +kernel
  obtain ⟨hends, hspent, -⟩ := runs_agree (loaded relay) #[7]
  obtain ⟨-, ⟨e, hrun, hcompleted, hlast⟩, hpaced, hwithin⟩ := hends hcalm 8 hn (by decide)
  obtain ⟨e', hrun', hcompleted', hlast'⟩ := hpaced _ hpace
  exact ⟨hcalm, hn, hpace, ⟨e, hrun, hcompleted, by rw [hlast]; exact houtput⟩,
    ⟨e', hrun', hcompleted', by rw [hlast']; exact houtput⟩, (hwithin 8 (by decide)).1, hlimit,
    (hspent 3 hlimit).1⟩

end Machine

end TapeMachine
