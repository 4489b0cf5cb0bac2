import TapeMachine.Proofs.CommandLine.RunCommand
import TapeMachine.Proofs.Runs.Log

/-!
# Displayed runs with a full output

Where nothing can be written, a displayed run asks for its own cancellation with the first
byte that it cannot put out. The instruction that wrote it is in flight by then, so it is
still shown and counted, and it is the last one. A program that never comes to write is not
affected.
-/
namespace TapeMachine.CommandLine

variable {w : Surroundings} {o : RunOptions} {p : Program} {text : String} {ms j k n : ℕ}
  {s : Snapshot} {before executed : List Snapshot} (size_pos : 0 < o.tapeSize)

def Surroundings.writable (w : Surroundings) : Surroundings :=
  { w with outputFull := false }

theorem readSource_writable (w : Surroundings) (source : Source) :
    readSource w.writable source = readSource w source := by
  cases source <;> rfl

/-- So many instructions can be counted, and they are within the step limit if there is one. -/
def RunOptions.Allows (o : RunOptions) (k : ℕ) : Prop :=
  k < UInt64.size ∧ ∀ limit, o.maxSteps = some limit → k ≤ limit.toNat

theorem RunOptions.Allows.mono (h : o.Allows k) (hle : j ≤ k) : o.Allows j :=
  ⟨hle.trans_lt h.1, fun limit hlimit => hle.trans (h.2 limit hlimit)⟩

/-! ### When a run becomes due -/

theorem written_ne_nil_iff (hio : o.io = true) (hs : s ∈ o.executed size_pos p k) :
    s.written ≠ [] ↔ s.instruction = .write := by
  obtain ⟨t, x, -, rfl⟩ := Store.exists_report_of_mem_course hs
  rw [hio]
  cases x with
  | moveRight | moveLeft | increment | decrement | write | read => simp [Store.report,
      Store.execute, Store.perform, Store.proceed, Store.snapshot, Snapshot.written]
  | loopStart | loopEnd =>
    by_cases hzero : t.tape.current = 0 <;> simp [Store.report, Store.execute, Store.perform,
      Store.proceed, Store.jump, Store.snapshot, Snapshot.written, hzero]

theorem flatMap_written_ne_nil_iff (hio : o.io = true) (p : Program) (k : ℕ) :
    (o.executed size_pos p k).flatMap Snapshot.written ≠ [] ↔
      ∃ t ∈ o.executed size_pos p k, t.instruction = .write := by
  simp only [ne_eq, List.flatMap_eq_nil_iff, not_forall, exists_prop]
  exact exists_congr fun t => and_congr_right fun ht => written_ne_nil_iff size_pos hio ht

theorem lastShown_of_maxSteps (hlimit : o.maxSteps ≠ some 0) {limit : UInt64}
    (hsome : o.maxSteps = some limit) : lastShown limit = limit.toNat :=
  lastShown_of_ne_zero fun hzero => hlimit (hsome.trans (congrArg some hzero))

/-- With a full output a run becomes due with the first `.` that it executes, if it is allowed
to go that far. -/
theorem due_at_first_write (hw : w.outputFull = true) (hio : o.io = true)
    (hlimit : o.maxSteps ≠ some 0) (hallowed : o.Allows (before.length + 1))
    (hexecuted : o.executed size_pos p (before.length + 1) = before ++ [s])
    (hbefore : ∀ t ∈ before, t.instruction ≠ .write) (hs : s.instruction = .write) :
    (∀ j < before.length + 1, ¬ o.Due w (o.executed size_pos p j)) ∧
      o.Due w (o.executed size_pos p (before.length + 1)) := by
  constructor
  · rintro j hj (⟨limit, hsome, hshown⟩ | ⟨-, hwritten⟩)
    · rw [lastShown_of_maxSteps hlimit hsome] at hshown
      have hlength := hshown.trans (length_executed_le size_pos p j)
      exact absurd (hallowed.2 limit hsome) (hlength.trans_lt hj).not_ge
    · obtain ⟨t, ht, hwrite⟩ := (flatMap_written_ne_nil_iff size_pos hio p j).mp hwritten
      rw [← take_executed size_pos p hj.le, hexecuted,
        List.take_append_of_le_length (Nat.le_of_lt_succ hj)] at ht
      exact hbefore t (List.mem_of_mem_take ht) hwrite
  · refine .inr ⟨hw, (flatMap_written_ne_nil_iff size_pos hio p _).mpr ⟨s, ?_, hs⟩⟩
    rw [hexecuted]
    exact List.mem_append_right _ (List.mem_singleton_self s)

section

variable (hlimit : o.maxSteps ≠ some 0)
  (hsilent : ∀ k, o.Allows k → (o.executed size_pos p k).flatMap Snapshot.written = [])
include hlimit hsilent

theorem silent_of_not_due (hlt : k < UInt64.size) (h : ¬ o.Due w (o.executed size_pos p k)) :
    (o.executed size_pos p k).flatMap Snapshot.written = [] := by
  by_cases hallowed : o.Allows k
  · exact hsilent k hallowed
  · obtain ⟨limit, hsome, hbeyond⟩ : ∃ limit, o.maxSteps = some limit ∧ limit.toNat < k := by
      simpa [RunOptions.Allows, hlt] using hallowed
    have hshort : (o.executed size_pos p k).length < limit.toNat := by
      rw [← lastShown_of_maxSteps hlimit hsome]
      exact Nat.lt_of_not_ge fun hshown => h (.inl ⟨limit, hsome, hshown⟩)
    have hsame := take_executed (o := o) size_pos p hbeyond.le
    rw [List.take_of_length_le hshort.le] at hsame
    rw [hsame]
    refine hsilent _ ⟨limit.toNat_lt, fun limit' hsome' => ?_⟩
    rw [Option.some.inj (hsome.symm.trans hsome')]

/-- As long as nothing is written it does not matter whether it could be. -/
theorem due_writable_iff (hlt : k < UInt64.size) :
    o.Due w.writable (o.executed size_pos p k) ↔ o.Due w (o.executed size_pos p k) := by
  rw [due_iff_of_writable rfl]
  constructor
  · exact .inl
  · rintro (hused | ⟨-, hwritten⟩)
    · exact hused
    · by_contra h
      exact hwritten (silent_of_not_due size_pos hlimit hsilent hlt
        ((due_iff_of_writable (w := w.writable) rfl).not.mpr h))

end

theorem due_at_limit (hlimit : o.maxSteps ≠ some 0)
    (hdue : o.Due w.writable (o.executed size_pos p k)) :
    ∃ c, o.Allows c ∧ (∀ j < c, ¬ o.Due w.writable (o.executed size_pos p j)) ∧
      o.Due w.writable (o.executed size_pos p c) := by
  simp only [due_iff_of_writable (w := w.writable) rfl] at hdue ⊢
  obtain ⟨limit, hsome, hshown⟩ := hdue
  have honly (limit') (hsome' : o.maxSteps = some limit') : limit' = limit :=
    Option.some.inj (hsome'.symm.trans hsome)
  have hle := hshown.trans (length_executed_le size_pos p k)
  refine ⟨lastShown limit, ⟨lastShown_lt limit, ?_⟩, ?_, limit, hsome, ?_⟩
  · intro limit' hsome'
    rw [honly limit' hsome', lastShown_of_maxSteps hlimit hsome]
  · rintro j hj ⟨limit', hsome', hshown'⟩
    rw [honly limit' hsome'] at hshown'
    exact absurd (hshown'.trans (length_executed_le size_pos p j)) hj.not_ge
  · rw [← take_executed size_pos p hle, List.length_take, min_eq_left hshown]

/-! ### What the command leaves -/

theorem deliveredExit_of_silent (h : executed.flatMap Snapshot.written = []) (outcome : Outcome) :
    deliveredExit w executed outcome = deliveredExit w.writable executed outcome := by
  simp only [deliveredExit, h, ite_self, shownText_of_kept fun _ => h]

/-- The byte of the first `.` is warned of before its line. -/
theorem shownText_at_first_write (hw : w.outputFull = true)
    (hbefore : before.flatMap Snapshot.written = []) (hs : s.written ≠ []) :
    shownText w (before ++ [s]) = tapeLines before ++ w.log (.lost .noSpace) ++ tapeLines [s] := by
  obtain ⟨byte, hbyte⟩ : ∃ byte, s.written = [byte] := by
    unfold Snapshot.written at hs ⊢
    split <;> simp_all
  have hlast : shownText w [s] = w.loss ++ tapeLines [s] := by
    cases hvisible : s.instruction.isVisible <;>
      simp [shownText, shownOf, hbyte, tapeLines, hvisible]
  rw [shownText_append, shownText_of_kept fun _ => hbefore, hlast, ← String.append_assoc,
    Surroundings.loss, if_pos hw]

section

variable (hsource : readSource w o.source = .ok text) (hprogram : Program.ofText text = .ok p)
  (hdelay : o.delay = some ms) (hlimit : o.maxSteps ≠ some 0)
include hsource hprogram hdelay hlimit

theorem execute_of_silent
    (hsilent : ∀ k, o.Allows k → (o.executed size_pos p k).flatMap Snapshot.written = []) :
    (Command.run o).execute w = (Command.run o).execute w.writable := by
  have hsource' := (readSource_writable w o.source).trans hsource
  by_cases hdue : ∃ k < UInt64.size, o.Due w.writable (o.executed size_pos p k)
  · obtain ⟨k, -, hk⟩ := hdue
    obtain ⟨c, hallowed, hbefore, hnow⟩ := due_at_limit size_pos hlimit hk
    have hsame (j : ℕ) (hj : j ≤ c) := due_writable_iff (w := w) size_pos hlimit hsilent
      (hallowed.mono hj).1
    obtain ⟨-, hfull, -⟩ := execute_of_due size_pos hsource hprogram hdelay
      (fun j hj => (hsame j hj.le).not.mp (hbefore j hj)) ((hsame c le_rfl).mp hnow) hallowed.1
    obtain ⟨-, hwritable, -⟩ := execute_of_due size_pos hsource' hprogram hdelay hbefore hnow
      hallowed.1
    rw [hfull, hwritable, deliveredExit_of_silent (hsilent c hallowed)]
  · have hquiet : ∀ k < UInt64.size, ¬ o.Due w.writable (o.executed size_pos p k) :=
      fun k hk hnow => hdue ⟨k, hk, hnow⟩
    obtain ⟨hends, hgoes⟩ := execute_of_not_due (w := w) size_pos hsource hprogram hdelay
      fun k hk => (due_writable_iff size_pos hlimit hsilent hk).not.mp (hquiet k hk)
    obtain ⟨hends', hgoes'⟩ := execute_of_not_due size_pos hsource' hprogram hdelay hquiet
    by_cases hend : ∃ n < UInt64.size, o.EndsAfter size_pos p n
    · obtain ⟨n, hlt, hn⟩ := hend
      rw [hends n hlt hn, hends' n hlt hn, deliveredExit_of_silent
        (silent_of_not_due size_pos hlimit hsilent hlt (hquiet n hlt))]
    · have hnever : ∀ n < UInt64.size, ¬ o.EndsAfter size_pos p n :=
        fun n hlt hn => hend ⟨n, hlt, hn⟩
      rw [hgoes hnever, hgoes' hnever]

end

/-- With a full output a displayed run executes nothing after the first `.` that it executes,
even if the program has no end. If this is its `k`-th instruction and the limit lets it go
that far, the run is cancelled after just `k` instructions; the command has shown the visible
ones among them, the last one after what the log writes of the lost byte, and has written
nothing. If the program executes no `.` as far as the limit lets it go, the command leaves
what it leaves with a writable output, and has no end if it has none there. -/
theorem stops_at_first_write (hw : w.outputFull = true)
    (hsource : readSource w o.source = .ok text) (hprogram : Program.ofText text = .ok p)
    (hio : o.io = true) (hdelay : o.delay = some ms) (hlimit : o.maxSteps ≠ some 0) :
    (∀ before s, o.executed size_pos p (before.length + 1) = before ++ [s] →
      (∀ t ∈ before, t.instruction ≠ .write) → s.instruction = .write →
      o.Allows (before.length + 1) →
      (Command.run o).execute w = some (.success [] (tapeLines before ++
        w.log (.lost .noSpace) ++ tapeLines [s] ++
          report .cancelled (.ofNat (before.length + 1)))) ∧
      ∃ e, ((o.loaded size_pos p).attach (display w o.maxSteps)).runPaced (Text.queue o.input)
          ⟨1000 * ms, none⟩ = some e ∧
        ((o.loaded size_pos p).attach (display w o.maxSteps)).CancelledAfter (Text.queue o.input)
          ⟨1000 * ms, none⟩ (before.length + 1) e) ∧
    ((∀ k, o.Allows k → ∀ t ∈ o.executed size_pos p k, t.instruction ≠ .write) →
      (Command.run o).execute w = (Command.run o).execute w.writable) := by
  constructor
  · intro before s hexecuted hbefore hs hallowed
    obtain ⟨hearlier, hdue⟩ :=
      due_at_first_write size_pos hw hio hlimit hallowed hexecuted hbefore hs
    obtain ⟨hlength, hexit, hcancelled⟩ := execute_of_due size_pos hsource hprogram hdelay hearlier
      hdue hallowed.1
    have hwritten : ∀ t ∈ before ++ [s], t.written ≠ [] ↔ t.instruction = .write := by
      intro t ht
      exact written_ne_nil_iff size_pos hio (hexecuted ▸ ht)
    have hsilent : before.flatMap Snapshot.written = [] := by
      rw [List.flatMap_eq_nil_iff]
      intro t ht
      by_contra hne
      exact hbefore t ht ((hwritten t (List.mem_append_left _ ht)).mp hne)
    have hlast : s.written ≠ [] := (hwritten s (by simp)).mpr hs
    refine ⟨?_, hcancelled⟩
    rw [hexit, deliveredExit, hlength, hexecuted, shownText_at_first_write hw hsilent hlast, hw,
      if_pos rfl]
  · intro hnone
    apply execute_of_silent size_pos hsource hprogram hdelay hlimit
    intro k hallowed
    by_contra hwritten
    obtain ⟨t, ht, hwrite⟩ := (flatMap_written_ne_nil_iff size_pos hio p k).mp hwritten
    exact hnone k hallowed t ht hwrite

/-- The program `+[.]`, which writes without end. -/
def babble : Program where
  code := #[.increment, .loopStart, .write, .loopEnd]
  partners := #[none, some 3, none, some 1]
  table_eq := rfl

def babbleOptions (maxSteps : Option UInt64) : RunOptions where
  source := .inline "+[.]"
  input := ""
  tapeSize := 1
  io := true
  delay := some 0
  maxSteps

def babbleTape : Tape := ⟨⟨#[1]⟩, 0, Nat.one_pos⟩

def babbleBefore : List Snapshot :=
  [⟨0, .increment, .changed 0 1, babbleTape, #[]⟩, ⟨1, .loopStart, .passed, babbleTape, #[]⟩]

theorem babbleOptions_pos (maxSteps : Option UInt64) : 0 < (babbleOptions maxSteps).tapeSize :=
  Nat.one_pos

def fullAndLogging : Surroundings :=
  { Surroundings.ofFiles [] [] true with log := Warning.line }

/-- Of `+[.]` three instructions are executed with a full output, however long it would go on.
Under a limit of two its `.` is out of reach, and the output does not matter. -/
theorem stops_at_first_write_babble :
    readSource (.ofFiles [] [] true) (.inline "+[.]") = .ok "+[.]" ∧
      Program.ofText "+[.]" = .ok babble ∧
      (Command.run (babbleOptions none)).execute (.ofFiles [] [] true) =
        some (.success [] "0000 + |[  1]\n0002 . |[  1]\n\ncancelled after 3 steps\n") ∧
      (Command.run (babbleOptions none)).execute fullAndLogging =
        some (.success [] ("0000 + |[  1]\nWARN output write failed, cancelling run " ++
          "error=No space left on device (os error 28)\n" ++
          "0002 . |[  1]\n\ncancelled after 3 steps\n")) ∧
      (Command.run (babbleOptions (some 2))).execute (.ofFiles [] [] true) =
        (Command.run (babbleOptions (some 2))).execute (.ofFiles [] [] false) := by
  have hsource : readSource (.ofFiles [] [] true) (.inline "+[.]") = .ok "+[.]" := rfl
  have hprogram : Program.ofText "+[.]" = .ok babble := by decide +kernel
  obtain ⟨hstops, -⟩ := stops_at_first_write (o := babbleOptions none) (babbleOptions_pos _) rfl
    hsource hprogram rfl rfl (by decide)
  obtain ⟨hlogged, -⟩ := stops_at_first_write (w := fullAndLogging) (o := babbleOptions none)
    (babbleOptions_pos _) rfl rfl hprogram rfl rfl (by decide)
  obtain ⟨-, hsilent⟩ := stops_at_first_write (o := babbleOptions (some 2)) (babbleOptions_pos _)
    rfl hsource hprogram rfl rfl (by decide)
  have hexecuted : (babbleOptions none).executed (babbleOptions_pos _) babble 3 =
      babbleBefore ++ [⟨2, .write, .wrote 1, babbleTape, #[1]⟩] := by decide +kernel
  have hallowed : (babbleOptions none).Allows 3 := ⟨by decide, fun _ h => nomatch h⟩
  obtain ⟨hexit, -⟩ := hstops babbleBefore _ hexecuted (by decide) rfl hallowed
  obtain ⟨hexit', -⟩ := hlogged babbleBefore _ hexecuted (by decide) rfl hallowed
  refine ⟨hsource, hprogram, hexit.trans (by decide +kernel), hexit'.trans (by decide +kernel), ?_⟩
  apply hsilent
  rintro k ⟨-, hk⟩
  have hle : k ≤ 2 := hk 2 rfl
  interval_cases k <;> decide +kernel

end TapeMachine.CommandLine
