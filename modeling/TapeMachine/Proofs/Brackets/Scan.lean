import TapeMachine.Program.Brackets
import TapeMachine.Proofs.Brackets.Pairs

/-!
# The scan for partners

What the scan knows at each place: which loops are open, the innermost first,
and for every bracket before it the partner, unless its loop is still open. From
this invariant follows what each result of a scan says about the code.
-/
namespace TapeMachine.Brackets

/-- The loops that are open at place `k`, the innermost first. Between an open
`[` and the next one all loops are closed. -/
def Pending (code : List Instruction) : List ℕ → ℕ → Prop
  | [], k => depth code k = 0 ∧ ∀ m ≤ k, 0 ≤ depth code m
  | start :: opened, k =>
    start < k ∧ code[start]? = some .loopStart ∧ depth code k = depth code start + 1 ∧
      (∀ m, start < m → m ≤ k → depth code start < depth code m) ∧ Pending code opened start

variable {code done rest : List Instruction} {opened : List ℕ} {start i j k l : ℕ} {t : Table}

/-- Code that returns to its depth and stays above it leaves the same loops open. -/
theorem Pending.extend (h : Pending code opened k) (hkl : k ≤ l)
    (hlevel : depth code l = depth code k)
    (habove : ∀ m, k ≤ m → m ≤ l → depth code k ≤ depth code m) : Pending code opened l := by
  cases opened with
  | nil =>
    obtain ⟨hk, hcovered⟩ := h
    refine ⟨by omega, ?_⟩
    intro m hm
    by_cases hmk : m ≤ k
    · exact hcovered m hmk
    · have := habove m (by omega) hm
      omega
  | cons start opened =>
    obtain ⟨hlt, hstart, hk, hinside, hrest⟩ := h
    refine ⟨by omega, hstart, by omega, ?_, hrest⟩
    intro m hm hml
    by_cases hmk : m ≤ k
    · exact hinside m hm hmk
    · have := habove m (by omega) hml
      omega

theorem Pending.append (h : Pending code opened k) (hk : k ≤ code.length)
    (rest : List Instruction) : Pending (code ++ rest) opened k := by
  induction opened generalizing k with
  | nil =>
    obtain ⟨hzero, hcovered⟩ := h
    refine ⟨by rw [depth_append_of_le rest hk, hzero], ?_⟩
    intro m hm
    rw [depth_append_of_le rest (by omega)]
    exact hcovered m hm
  | cons start opened ih =>
    obtain ⟨hlt, hstart, hdepth, hinside, hpending⟩ := h
    refine ⟨hlt, ?_, ?_, ?_, ih hpending (by omega)⟩
    · rw [List.getElem?_append_left (by omega)]
      exact hstart
    · rw [depth_append_of_le rest hk, depth_append_of_le rest (by omega)]
      exact hdepth
    · intro m hm hmk
      rw [depth_append_of_le rest (by omega), depth_append_of_le rest (by omega)]
      exact hinside m hm hmk

theorem Pending.depth_nonneg (h : Pending code opened k) {m : ℕ} (hm : m ≤ k) :
    0 ≤ depth code m := by
  induction opened generalizing k m with
  | nil => exact h.2 m hm
  | cons start opened ih =>
    obtain ⟨-, -, -, hinside, hpending⟩ := h
    by_cases hlt : start < m
    · have := hinside m hlt hm
      have := ih hpending le_rfl
      omega
    · apply ih hpending
      omega

theorem Pending.le_of_mem (h : Pending code (start :: opened) k) (hi : i ∈ start :: opened) :
    i ≤ start := by
  induction opened generalizing start k with
  | nil => exact (List.mem_singleton.mp hi).le
  | cons next opened ih =>
    obtain ⟨-, -, -, -, hpending⟩ := h
    rcases List.mem_cons.mp hi with rfl | hi
    · exact le_rfl
    · exact (ih hpending hi).trans hpending.1.le

theorem Pending.covered (h : Pending code opened code.length) : Covered code := by
  apply covered_iff.mpr
  intro k
  by_cases hk : k ≤ code.length
  · exact h.depth_nonneg hk
  · rw [depth_of_length_le (Nat.le_of_not_le hk)]
    exact h.depth_nonneg le_rfl

/-- The scan has read `done` and stands before the rest of the code. -/
structure Scanned (done : List Instruction) (opened : List ℕ) (t : Table) : Prop where
  size : t.size = done.length
  pending : Pending done opened done.length
  partner : ∀ i j, (t[i]?).join = some j ↔ Pair done i j ∨ Pair done j i
  complete : ∀ i x, done[i]? = some x → x.isBracket →
    i ∈ opened ∨ ∃ j, Pair done i j ∨ Pair done j i

theorem scanned_nil : Scanned [] [] #[] where
  size := rfl
  pending := ⟨rfl, fun m _ => by simp [depth]⟩
  partner i j := by
    constructor
    · simp
    · rintro (h | h)
      · simpa using h.start
      · simpa using h.start
  complete i x hi := by simp at hi

theorem getElem?_concat_cases {x y : Instruction} (h : (done ++ [x])[i]? = some y) :
    done[i]? = some y ∨ i = done.length ∧ x = y := by
  rcases Nat.lt_trichotomy i done.length with hi | rfl | hi
  · exact .inl (by rwa [List.getElem?_append_left hi] at h)
  · exact .inr ⟨rfl, by simpa using h⟩
  · rw [List.getElem?_eq_none (by rw [List.length_append, List.length_singleton]; omega)] at h
    simp at h

theorem depth_concat (done : List Instruction) (x : Instruction) :
    depth (done ++ [x]) (done.length + 1) = depth done done.length + rise x := by
  rw [depth_append, depth_cons, depth_zero, add_zero]

theorem Scanned.complete_append (h : Scanned done opened t) {x : Instruction}
    (hi : done[i]? = some x) (hx : x.isBracket = true) (rest : List Instruction) :
    i ∈ opened ∨ ∃ j, Pair (done ++ rest) i j ∨ Pair (done ++ rest) j i := by
  rcases h.complete i x hi hx with hopen | ⟨j, hj | hj⟩
  · exact .inl hopen
  · exact .inr ⟨j, .inl (hj.append rest)⟩
  · exact .inr ⟨j, .inr (hj.append rest)⟩

theorem Scanned.partner_push (h : Scanned done opened t) {x : Instruction} (hx : x ≠ .loopEnd) :
    ∀ i j, ((t.push none)[i]?).join = some j ↔
      Pair (done ++ [x]) i j ∨ Pair (done ++ [x]) j i := by
  intro i j
  rw [pair_concat_iff hx, pair_concat_iff hx, ← h.partner i j, Array.getElem?_push]
  split
  · next hi =>
    subst hi
    simp
  · rfl

theorem Scanned.other (h : Scanned done opened t) {x : Instruction} (hx : x.isBracket = false) :
    Scanned (done ++ [x]) opened (t.push none) where
  size := by simp [h.size]
  pending := by
    have hrise := rise_eq_zero hx
    have hlast := depth_concat done x
    have hsame : depth (done ++ [x]) done.length = depth done done.length :=
      depth_append_of_le [x] le_rfl
    rw [List.length_append, List.length_singleton]
    refine (h.pending.append le_rfl [x]).extend (by omega) (by omega) ?_
    intro m hm hm'
    rcases Nat.le_succ_iff_eq_or_le.mp hm' with rfl | hle
    · rw [Nat.succ_eq_add_one]
      omega
    · obtain rfl : m = done.length := by omega
      exact le_rfl
  partner := h.partner_push (by rintro rfl; simp [Instruction.isBracket] at hx)
  complete i y hi hy := by
    rcases getElem?_concat_cases hi with hi | ⟨rfl, rfl⟩
    · exact h.complete_append hi hy [x]
    · simp [hx] at hy

theorem Scanned.loopStart (h : Scanned done opened t) :
    Scanned (done ++ [.loopStart]) (t.size :: opened) (t.push none) where
  size := by simp [h.size]
  pending := by
    have hlast := depth_concat done .loopStart
    have hsame : depth (done ++ [.loopStart]) done.length = depth done done.length :=
      depth_append_of_le _ le_rfl
    rw [rise] at hlast
    rw [h.size, List.length_append, List.length_singleton]
    refine ⟨by omega, by simp, by omega, ?_, h.pending.append le_rfl _⟩
    intro m hm hm'
    obtain rfl : m = done.length + 1 := by omega
    omega
  partner := h.partner_push (by simp)
  complete i y hi hy := by
    rcases getElem?_concat_cases hi with hi | ⟨rfl, rfl⟩
    · exact (h.complete_append hi hy [.loopStart]).imp_left (List.mem_cons_of_mem _)
    · rw [h.size]
      exact .inl List.mem_cons_self

/-- The innermost open `[` and a `]` that comes next are a pair. -/
theorem Pending.pair (h : Pending done (start :: opened) done.length) :
    Pair (done ++ [.loopEnd]) start done.length := by
  obtain ⟨hlt, hstart, hdepth, hinside, -⟩ := h
  have hlast := depth_concat done .loopEnd
  rw [rise] at hlast
  have hsame : ∀ m ≤ done.length, depth (done ++ [.loopEnd]) m = depth done m := by
    intro m hm
    exact depth_append_of_le _ hm
  refine ⟨hlt, ?_, by simp, ?_, ?_⟩
  · rw [List.getElem?_append_left hlt]
    exact hstart
  · rw [hlast, hsame start hlt.le]
    omega
  · intro m hm hm'
    rw [hsame start hlt.le, hsame m hm']
    exact hinside m hm hm'

theorem Pending.not_pair (h : Pending done (start :: opened) done.length) (j : ℕ) :
    ¬ Pair done start j := by
  intro hpair
  obtain ⟨-, -, -, hinside, -⟩ := h
  have hlt := hpair.lt
  have := hinside (j + 1) (by omega) hpair.stop_lt_length
  have := hpair.level
  omega

/-- Closing the innermost loop enters its two brackets and nothing else. -/
theorem Scanned.partner_close (h : Scanned done (start :: opened) t) :
    ∀ i j, ((t.close start t.size)[i]?).join = some j ↔
      Pair (done ++ [.loopEnd]) i j ∨ Pair (done ++ [.loopEnd]) j i := by
  intro i j
  have hpair := h.pending.pair
  have hsize := h.size
  have hlt : start < done.length := h.pending.1
  rw [pair_concat_loopEnd_iff hpair, pair_concat_loopEnd_iff hpair, Table.close,
    Array.getElem?_push, Array.size_setIfInBounds, hsize]
  by_cases hlast : i = done.length
  · subst hlast
    have hi : ∀ j, ¬ Pair done done.length j := by
      intro j hj
      exact lt_asymm hj.lt hj.stop_lt_length
    have hj : ¬ Pair done j done.length := by
      intro hj
      exact lt_irrefl _ hj.stop_lt_length
    simp [hi, hj, hlt.ne', eq_comm]
  · rw [if_neg hlast]
    by_cases hstart : i = start
    · subst hstart
      have hj : ¬ Pair done j i := by
        intro hj
        have := hj.stop.symm.trans h.pending.2.1
        simp at this
      rw [Array.getElem?_setIfInBounds_self_of_lt (by omega)]
      simp [h.pending.not_pair, hj, hlt.ne, eq_comm]
    · rw [Array.getElem?_setIfInBounds_ne (Ne.symm hstart), h.partner i j]
      simp [hstart, hlast]

theorem Scanned.loopEnd (h : Scanned done (start :: opened) t) :
    Scanned (done ++ [.loopEnd]) opened (t.close start t.size) where
  size := by simp [h.size]
  pending := by
    have hpair := h.pending.pair
    obtain ⟨hlt, -, -, -, hpending⟩ := h.pending
    rw [List.length_append, List.length_singleton]
    refine (hpending.append hlt.le _).extend (by omega) hpair.level ?_
    intro m hm hm'
    rcases Nat.lt_or_eq_of_le hm with hlt | rfl
    · rcases Nat.le_succ_iff_eq_or_le.mp hm' with rfl | hle
      · exact hpair.level.ge
      · exact (hpair.inside m hlt hle).le
    · exact le_rfl
  partner := h.partner_close
  complete i y hi hy := by
    have hpair := h.pending.pair
    rcases getElem?_concat_cases hi with hi | ⟨rfl, rfl⟩
    · rcases h.complete_append hi hy [.loopEnd] with hopen | hpartner
      · rcases List.mem_cons.mp hopen with rfl | hopen
        · exact .inr ⟨_, .inl hpair⟩
        · exact .inl hopen
      · exact .inr hpartner
    · exact .inr ⟨_, .inr hpair⟩

/-- What each result of a scan says about the code. -/
inductive ScanOutcome (code : List Instruction) : Except LoadError Table → Prop
  | matched {t : Table} (h : Scanned code [] t) : ScanOutcome code (.ok t)
  | unmatchedOpen {start : ℕ} {opened : List ℕ} {t : Table} (h : Scanned code (start :: opened) t) :
      ScanOutcome code (.error (.unmatchedOpen start))
  | unmatchedClose {done rest : List Instruction} {t : Table}
      (hcode : code = done ++ .loopEnd :: rest) (h : Scanned done [] t) :
      ScanOutcome code (.error (.unmatchedClose t.size))

theorem outcome_scan (h : Scanned done opened t) :
    ScanOutcome (done ++ code) (scan code opened t) := by
  fun_induction scan code opened t generalizing done with
  | case1 t => exact .matched (by simpa using h)
  | case2 start opened t => exact .unmatchedOpen (by simpa using h)
  | case3 code opened t ih => simpa using ih h.loopStart
  | case4 rest t => exact .unmatchedClose rfl h
  | case5 code start opened t ih => simpa using ih h.loopEnd
  | case6 i code opened t hstart hnil hcons ih =>
    have hx : i.isBracket = false := by
      cases opened <;> cases i <;> simp_all [Instruction.isBracket]
    simpa using ih (h.other hx)

theorem outcome_table (code : List Instruction) : ScanOutcome code (table code) :=
  outcome_scan scanned_nil

end TapeMachine.Brackets
