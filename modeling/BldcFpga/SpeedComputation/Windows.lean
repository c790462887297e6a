import BldcFpga.Clocked.Tally
import BldcFpga.SpeedComputation.SpeedComputation

/-!
# What the windows add up to

At the count 49 999 999 `speed_computation` publishes `mec_cycle_count`, and the next count
holds it at zero for one cycle of `clk_sys`.

* `SpeedComputation.mecCycleCount_tally` — the register is the tally of the enabled edges,
  truncated to seven bits, and during the clear the tally is zero;
* `speedComputation_conserves` — so the published values and the enabled edges that fell into
  a clear account for every enabled edge;
* `SpeedComputation.sysCounterUp_states`, `SpeedComputation.enabledEdges_eq` — the two time
  bases in closed form;
* `speedComputation_late_edge` — an edge in a clear is in none of the published values.
-/

namespace BldcFpga

open Clocked

namespace SpeedComputation

section Marks

variable (s : SpeedComputation) (inp : ℕ → Edge)

/-- Edge `t` ends a window: it loads `RPS_out`. -/
def LoadAt (t : ℕ) : Prop :=
  inp t = .clkSys ∧ (states s inp t).sysCounterUp = 0x2faf07f#26

/-- Edge `t` is one of `Hall_sensor` with `en_mechanical_cycle` high. -/
def EnabledAt (t : ℕ) : Prop :=
  inp t = .hallSensor ∧ enMechanicalCycle (states s inp t).cycles.counterUp = true

/-- Edge `t` is such an edge while `rst_to_zero` is high. -/
def LostAt (t : ℕ) : Prop :=
  EnabledAt s inp t ∧ rstToZero (states s inp t).sysCounterUp = true

instance : DecidablePred (LoadAt s inp) := fun _ => inferInstanceAs (Decidable (_ ∧ _))

instance : DecidablePred (EnabledAt s inp) := fun _ => inferInstanceAs (Decidable (_ ∧ _))

instance : DecidablePred (LostAt s inp) := fun _ => inferInstanceAs (Decidable (_ ∧ _))

/-- The number of enabled edges among the first `t`. -/
def enabledEdges (t : ℕ) : ℕ := Nat.count (EnabledAt s inp) t

/-- The number of those that fell into a clear. -/
def lostEdges (t : ℕ) : ℕ := Nat.count (LostAt s inp) t

/-- The sum of the values loaded into `RPS_out` by the first `t` edges. -/
def loadedSum (t : ℕ) : ℕ :=
  ∑ i ∈ Finset.range t, if LoadAt s inp i then (states s inp (i + 1)).rpsOut.toNat else 0

/-- The enabled edges of the window that edge `t` is in.  The first window starts with what
`mec_cycle_count` holds. -/
def windowEdges : ℕ → ℕ
  | 0 => s.cycles.mecCycleCount.toNat
  | t + 1 =>
    if LoadAt s inp t then 0 else windowEdges t + if EnabledAt s inp t then 1 else 0

/-- What edge `t` is for the tally of the enabled edges. -/
def mark (t : ℕ) : Mark :=
  if LoadAt s inp t then .publish
  else if LostAt s inp t then .lose
  else if EnabledAt s inp t then .count
  else .keep

/-- The tally of the enabled edges. -/
def held (t : ℕ) : ℕ := run tally s.cycles.mecCycleCount.toNat (mark s inp) t

variable {s inp}

theorem not_enabledAt_of_loadAt {t : ℕ} (h : LoadAt s inp t) : ¬ EnabledAt s inp t := by
  rintro ⟨he, -⟩
  simp [LoadAt, he] at h

theorem mark_load {t : ℕ} (h : LoadAt s inp t) : mark s inp t = .publish := if_pos h

theorem mark_lost {t : ℕ} (h : LostAt s inp t) : mark s inp t = .lose := by
  have hload : ¬ LoadAt s inp t := fun hl => not_enabledAt_of_loadAt hl h.1
  simp [mark, hload, h]

theorem mark_counted {t : ℕ} (h : EnabledAt s inp t) (hlost : ¬ LostAt s inp t) :
    mark s inp t = .count := by
  have hload : ¬ LoadAt s inp t := fun hl => not_enabledAt_of_loadAt hl h
  simp [mark, hload, h, hlost]

theorem mark_other {t : ℕ} (hload : ¬ LoadAt s inp t) (hen : ¬ EnabledAt s inp t) :
    mark s inp t = .keep := by
  simp [mark, hload, hen, LostAt]

variable (s inp) in
/-- The four kinds of edges. -/
theorem mark_cases (t : ℕ) :
    LoadAt s inp t ∧ ¬ EnabledAt s inp t ∧ mark s inp t = .publish ∨
    LostAt s inp t ∧ ¬ LoadAt s inp t ∧ mark s inp t = .lose ∨
    EnabledAt s inp t ∧ ¬ LoadAt s inp t ∧ ¬ LostAt s inp t ∧ mark s inp t = .count ∨
    ¬ LoadAt s inp t ∧ ¬ EnabledAt s inp t ∧ mark s inp t = .keep := by
  by_cases hload : LoadAt s inp t
  · exact Or.inl ⟨hload, not_enabledAt_of_loadAt hload, mark_load hload⟩
  · by_cases hen : EnabledAt s inp t
    · by_cases hlost : LostAt s inp t
      · exact Or.inr (Or.inl ⟨hlost, hload, mark_lost hlost⟩)
      · exact Or.inr (Or.inr (Or.inl ⟨hen, hload, hlost, mark_counted hen hlost⟩))
    · exact Or.inr (Or.inr (Or.inr ⟨hload, hen, mark_other hload hen⟩))

/-- The enabled edges are those counted and those lost. -/
theorem number_mark (t : ℕ) :
    number (mark s inp) .count t + lostEdges s inp t = enabledEdges s inp t := by
  induction t with
  | zero => simp [number, lostEdges, enabledEdges]
  | succ t ih =>
    rw [lostEdges, enabledEdges] at ih ⊢
    rw [number_succ, Nat.count_succ, Nat.count_succ, ← ih]
    rcases mark_cases s inp t with ⟨-, hen, hm⟩ | ⟨hlost, -, hm⟩ | ⟨hen, -, hlost, hm⟩ |
      ⟨-, hen, hm⟩
    · simp [hm, hen, LostAt]
    · simp [hm, hlost, hlost.1, Nat.add_assoc]
    · simp [hm, hen, hlost, Nat.add_right_comm]
    · simp [hm, hen, LostAt]

/-- The items of a window are its enabled edges. -/
theorem windowEdges_eq (t : ℕ) :
    windowEdges s inp t = run load s.cycles.mecCycleCount.toNat (mark s inp) t := by
  induction t with
  | zero => rfl
  | succ t ih =>
    rw [windowEdges, run_succ, ← ih]
    rcases mark_cases s inp t with ⟨hload, -, hm⟩ | ⟨hlost, hload, hm⟩ | ⟨hen, hload, -, hm⟩ |
      ⟨hload, hen, hm⟩
    · simp [hm, hload, load]
    · simp [hm, hload, hlost.1, load]
    · simp [hm, hload, hen, load]
    · simp [hm, hload, hen, load]

theorem windowEdges_le (t : ℕ) :
    windowEdges s inp t ≤ s.cycles.mecCycleCount.toNat + enabledEdges s inp t := by
  induction t with
  | zero => simp [windowEdges]
  | succ t ih =>
    rw [enabledEdges] at ih ⊢
    rw [windowEdges, Nat.count_succ]
    split_ifs <;> omega

/-! ## The register is the tally -/

/-- The clear begins with the count after the load. -/
theorem rstToZero_generalCounter (c : BitVec 26) :
    rstToZero (generalCounter false c) = true ↔ c = 0x2faf07f#26 := by
  by_cases h : c = 0x2faf080#26
  · subst h
    decide
  · simp only [rstToZero, generalCounter, h]
    simp only [Bool.false_eq_true, if_false, ite_eq_left_iff, imp_false, Decidable.not_not]
    bv_omega

/-- `mec_cycle_count` is the tally in seven bits, and the tally is zero while `rst_to_zero` is
high. -/
def Tallied (s : SpeedComputation) (inp : ℕ → Edge) (t : ℕ) : Prop :=
  (states s inp t).cycles.mecCycleCount = BitVec.ofNat 7 (held s inp t) ∧
    (rstToZero (states s inp t).sysCounterUp = true → held s inp t = 0)

theorem held_succ (t : ℕ) : held s inp (t + 1) = tally (mark s inp t) (held s inp t) := rfl

/-- An edge of `clk_sys` publishes and clears the tally, or leaves it alone. -/
theorem tallied_clkSys {t : ℕ} (h : Tallied s inp t) (he : inp t = .clkSys) :
    Tallied s inp (t + 1) := by
  obtain ⟨hmec, -⟩ := h
  have hen : ¬ EnabledAt s inp t := by simp [EnabledAt, he]
  rw [Tallied, states_clkSys he, held_succ]
  by_cases hc : (states s inp t).sysCounterUp = 0x2faf07f#26
  · have hload : LoadAt s inp t := ⟨he, hc⟩
    have hlow : rstToZero (states s inp t).sysCounterUp = false := by
      rw [hc]
      decide
    have hrise := (rstToZero_generalCounter (states s inp t).sysCounterUp).2 hc
    rw [mark_load hload, tally]
    simp [clkEdge, hlow, hrise, mechanicalCycleCounter]
  · have hload : ¬ LoadAt s inp t := fun h => hc h.2
    have hlow := mt (rstToZero_generalCounter (states s inp t).sysCounterUp).1 hc
    rw [Bool.not_eq_true] at hlow
    rw [mark_other hload hen, tally]
    simpa [clkEdge, hlow] using hmec

/-- An edge of `Hall_sensor` during a clear changes neither. -/
theorem tallied_hallSensor_clear {t : ℕ} (h : Tallied s inp t) (he : inp t = .hallSensor)
    (hr : rstToZero (states s inp t).sysCounterUp = true) : Tallied s inp (t + 1) := by
  have hload : ¬ LoadAt s inp t := by simp [LoadAt, he]
  have hzero : held s inp (t + 1) = 0 := by
    rw [held_succ, h.2 hr]
    by_cases hen : EnabledAt s inp t
    · rw [mark_lost ⟨hen, hr⟩, tally]
    · rw [mark_other hload hen, tally]
  rw [Tallied, states_hallSensor he, hzero]
  simp [CycleCounters.hallEdge, mechanicalCycleCounter, hr]

/-- At any other time both count it if it is enabled. -/
theorem tallied_hallSensor {t : ℕ} (h : Tallied s inp t) (he : inp t = .hallSensor)
    (hr : rstToZero (states s inp t).sysCounterUp = false) : Tallied s inp (t + 1) := by
  have hload : ¬ LoadAt s inp t := by simp [LoadAt, he]
  have hlost : ¬ LostAt s inp t := by simp [LostAt, hr]
  rw [Tallied, states_hallSensor he, held_succ]
  by_cases hen : EnabledAt s inp t
  · rw [mark_counted hen hlost, tally]
    simp [CycleCounters.hallEdge, mechanicalCycleCounter, hen.2, h.1, hr, BitVec.ofNat_add]
  · have hoff : enMechanicalCycle (states s inp t).cycles.counterUp = false := by
      simpa [EnabledAt, he] using hen
    rw [mark_other hload hen, tally]
    simp [CycleCounters.hallEdge, mechanicalCycleCounter, hoff, h.1, hr]

/-- **Refinement.**  From a cleared `sys_counter_up` on, the register is the tally. -/
theorem mecCycleCount_tally (h0 : s.sysCounterUp = 0#26) (t : ℕ) : Tallied s inp t := by
  induction t with
  | zero =>
    refine ⟨by simp [states, held], fun h => ?_⟩
    rw [states, run_zero, h0] at h
    exact absurd h (by decide)
  | succ t ih =>
    cases he : inp t with
    | clkSys => exact tallied_clkSys ih he
    | hallSensor =>
      cases hr : rstToZero (states s inp t).sysCounterUp with
      | true => exact tallied_hallSensor_clear ih he hr
      | false => exact tallied_hallSensor ih he hr

/-- A load hands the tally over, when the window is not too long for seven bits. -/
theorem rpsOut_load (h0 : s.sysCounterUp = 0#26) {t : ℕ} (hle : windowEdges s inp t ≤ 127)
    (hload : LoadAt s inp t) : (states s inp (t + 1)).rpsOut.toNat = held s inp t := by
  have hheld : held s inp t ≤ 127 := by
    rw [windowEdges_eq] at hle
    exact (tally_le_load _ _ t).trans hle
  rw [states_clkSys hload.1, clkEdge, if_pos hload.2, (mecCycleCount_tally h0 t).1,
    BitVec.toNat_ofNat, Nat.mod_eq_of_lt (by omega)]

theorem loadedSum_eq (h0 : s.sysCounterUp = 0#26) (hle : ∀ t, windowEdges s inp t ≤ 127)
    (t : ℕ) :
    loadedSum s inp t = published s.cycles.mecCycleCount.toNat (mark s inp) t := by
  refine Finset.sum_congr rfl fun i _ => ?_
  by_cases hload : LoadAt s inp i
  · rw [if_pos hload, if_pos (mark_load hload), rpsOut_load h0 (hle i) hload, held]
  · have hmark : mark s inp i ≠ .publish := by
      unfold mark
      split_ifs <;> simp
    rw [if_neg hload, if_neg hmark]

/-- After a load nothing is held. -/
theorem loadedSum_load (h0 : s.sysCounterUp = 0#26) (hle : ∀ t, windowEdges s inp t ≤ 127)
    {t : ℕ} (hload : LoadAt s inp t) :
    loadedSum s inp (t + 1) =
      s.cycles.mecCycleCount.toNat + number (mark s inp) .count (t + 1) := by
  rw [loadedSum_eq h0 hle]
  exact published_of_publish _ _ (mark_load hload)

/-! ## The two time bases -/

/-- The number of rising edges of `clk_sys` among the first `t`. -/
def clkEdges (inp : ℕ → Edge) (t : ℕ) : ℕ := Nat.count (fun i => inp i = .clkSys) t

theorem clkEdges_add_hallEdges (t : ℕ) : clkEdges inp t + hallEdges inp t = t := by
  induction t with
  | zero => rfl
  | succ t ih =>
    rw [clkEdges] at ih ⊢
    rw [Nat.count_succ, hallEdges_succ]
    cases he : inp t <;> simp <;> omega

theorem generalCounter_eq (c : BitVec 26) :
    generalCounter false c = if c.toNat = 50000000 then 0#26 else c + 1#26 := by
  simp [generalCounter, ← BitVec.toNat_inj]

/-- **`sys_counter_up`** numbers the edges of `clk_sys`. -/
theorem sysCounterUp_states (h0 : s.sysCounterUp = 0#26) (t : ℕ) :
    (states s inp t).sysCounterUp.toNat = clkEdges inp t % 50000001 := by
  refine terminal_count (by norm_num) (x := fun i => (states s inp i).sysCounterUp) h0
    (fun i => ?_) t
  cases he : inp i with
  | clkSys =>
    rw [states_clkSys he, if_pos rfl]
    exact generalCounter_eq _
  | hallSensor =>
    rw [states_hallSensor he, if_neg (by decide)]

theorem rstToZero_iff (c : BitVec 26) : rstToZero c = true ↔ c.toNat = 50000000 := by
  simp [rstToZero, ← BitVec.toNat_inj]

/-- `counter_up` numbers the edges of `Hall_sensor`, whatever is cleared meanwhile. -/
theorem counterUp_states (hc : s.cycles.counterUp = 0#5) (t : ℕ) :
    (states s inp t).cycles.counterUp.toNat = hallEdges inp t % 17 := by
  refine terminal_count (by norm_num) (x := fun i => (states s inp i).cycles.counterUp) hc
    (fun i => ?_) t
  cases he : inp i with
  | clkSys =>
    rw [states_clkSys he, if_neg (by decide)]
    simp only [clkEdge]
    split_ifs <;> rfl
  | hallSensor =>
    rw [states_hallSensor he, if_pos rfl]
    exact electricalCycleCounterUpto16_eq _

/-- The enable at an edge of `Hall_sensor`, by its number. -/
theorem enabledAt_iff (hc : s.cycles.counterUp = 0#5) (t : ℕ) :
    EnabledAt s inp t ↔ inp t = .hallSensor ∧ hallEdges inp t % 17 = 16 := by
  rw [EnabledAt, enMechanicalCycle_iff, counterUp_states hc]

/-- **The enabled edges** are every seventeenth. -/
theorem enabledEdges_eq (hc : s.cycles.counterUp = 0#5) (t : ℕ) :
    enabledEdges s inp t = hallEdges inp t / 17 := by
  induction t with
  | zero => simp [enabledEdges, hallEdges]
  | succ t ih =>
    rw [enabledEdges] at ih ⊢
    rw [Nat.count_succ, ih, hallEdges_succ, if_congr (enabledAt_iff hc t) rfl rfl]
    by_cases he : inp t = .hallSensor
    · simp only [he, true_and, if_true]
      split_ifs <;> omega
    · simp [he]

end Marks

/-! ## One late edge -/

/-- Every register zero: power-up, and a reset of `sys_counter_up`. -/
def cleared : SpeedComputation := ⟨.powerUp, 0#26, 0#7⟩

/-- Sixteen edges of `Hall_sensor` at the start, the seventeenth as edge `b`, and `clk_sys`
otherwise. -/
def lateEdge (b t : ℕ) : Edge := if t < 16 ∨ t = b then .hallSensor else .clkSys

theorem lateEdge_iff (b t : ℕ) : lateEdge b t = .hallSensor ↔ t < 16 ∨ t = b := by
  unfold lateEdge
  split_ifs with h <;> simp [h]

section LateEdge

variable {b : ℕ} (hb : 16 ≤ b)

include hb

theorem hallEdges_lateEdge (t : ℕ) :
    hallEdges (lateEdge b) t = min t 16 + if b < t then 1 else 0 := by
  induction t with
  | zero => simp [hallEdges]
  | succ t ih =>
    rw [hallEdges_succ, ih, if_congr (lateEdge_iff b t) rfl rfl]
    split_ifs <;> omega

theorem clkEdges_lateEdge (t : ℕ) :
    clkEdges (lateEdge b) t = t - (min t 16 + if b < t then 1 else 0) := by
  have hsum : clkEdges (lateEdge b) t + hallEdges (lateEdge b) t = t :=
    clkEdges_add_hallEdges t
  rw [hallEdges_lateEdge hb] at hsum
  omega

/-- One edge is enabled. -/
theorem windowEdges_lateEdge (t : ℕ) : windowEdges cleared (lateEdge b) t ≤ 127 := by
  refine (windowEdges_le t).trans ?_
  rw [enabledEdges_eq rfl, hallEdges_lateEdge hb]
  show 0 + _ ≤ 127
  split_ifs <;> omega

/-- It is lost if it falls into a clear. -/
theorem lostAt_lateEdge (t : ℕ) :
    LostAt cleared (lateEdge b) t ↔ t = b ∧ (b - 16) % 50000001 = 50000000 := by
  rw [LostAt, enabledAt_iff rfl, lateEdge_iff, rstToZero_iff, sysCounterUp_states rfl,
    hallEdges_lateEdge hb, clkEdges_lateEdge hb]
  split_ifs <;> omega

/-- A window ends `49999999` clocks after the clear of `sys_counter_up`. -/
theorem loadAt_lateEdge {t : ℕ} (ht : b < t) (hmod : (t - 17) % 50000001 = 49999999) :
    LoadAt cleared (lateEdge b) t := by
  refine ⟨if_neg (by omega), BitVec.eq_of_toNat_eq ?_⟩
  rw [sysCounterUp_states rfl, clkEdges_lateEdge hb, if_pos ht,
    show t - (min t 16 + 1) = t - 17 by omega, hmod]
  rfl

theorem enabledEdges_lateEdge {t : ℕ} (ht : b < t) :
    enabledEdges cleared (lateEdge b) t = 1 := by
  rw [enabledEdges_eq rfl, hallEdges_lateEdge hb, if_pos ht, show min t 16 = 16 by omega]

theorem lostEdges_lateEdge {t : ℕ} (ht : b < t) :
    lostEdges cleared (lateEdge b) t = if (b - 16) % 50000001 = 50000000 then 1 else 0 := by
  rw [lostEdges, count_congr fun i _ => lostAt_lateEdge hb i]
  split_ifs with hclear
  · simp [hclear, count_single, ht]
  · simp [hclear]

end LateEdge

end SpeedComputation

open SpeedComputation in
/-- **Nothing is lost but what falls into a clear.**  From a cleared `sys_counter_up` on, for
every contents of the other registers and every order of the edges in which no window holds
more than 127 enabled ones: at the end of every window the values loaded so far, together with
the enabled edges that came while `rst_to_zero` was high, are the enabled edges so far and
what `mec_cycle_count` held at the start. -/
theorem speedComputation_conserves (s : SpeedComputation) (h0 : s.sysCounterUp = 0#26)
    (inp : ℕ → Edge) (hle : ∀ t, windowEdges s inp t ≤ 127) (t : ℕ) (hload : LoadAt s inp t) :
    loadedSum s inp (t + 1) + lostEdges s inp (t + 1) =
      s.cycles.mecCycleCount.toNat + enabledEdges s inp (t + 1) := by
  rw [loadedSum_load h0 hle hload, Nat.add_assoc, number_mark]

open SpeedComputation in
/-- Seventeen edges of `Hall_sensor`, and nothing but `clk_sys` until the first window ends. -/
theorem speedComputation_conserves_first :
    loadedSum cleared (lateEdge 16) (50000016 + 1) = 1 := by
  have hb : 16 ≤ 16 := le_rfl
  have hone : ∀ t, 16 < t → LoadAt cleared (lateEdge 16) t →
      loadedSum cleared (lateEdge 16) (t + 1) = 1 := by
    intro t ht hload
    have hsum := speedComputation_conserves cleared rfl (lateEdge 16) (windowEdges_lateEdge hb)
      t hload
    rwa [enabledEdges_lateEdge hb (by omega), lostEdges_lateEdge hb (by omega),
      if_neg (by norm_num)] at hsum
  have hlt : 16 < 50000016 := by norm_num
  exact hone _ hlt (loadAt_lateEdge hb hlt (by norm_num))

open SpeedComputation in
/-- The seventeenth edge comes while `sys_counter_up` shows `0x2faf080`: at the end of the
window after it one edge has been enabled, and the published values add up to zero. -/
theorem speedComputation_late_edge :
    (∀ t, windowEdges cleared (lateEdge 50000016) t ≤ 127) ∧
      LoadAt cleared (lateEdge 50000016) 100000017 ∧
      loadedSum cleared (lateEdge 50000016) (100000017 + 1) = 0 ∧
      enabledEdges cleared (lateEdge 50000016) (100000017 + 1) = 1 := by
  have hb : 16 ≤ 50000016 := by norm_num
  have hzero : ∀ t, 50000016 < t → LoadAt cleared (lateEdge 50000016) t →
      loadedSum cleared (lateEdge 50000016) (t + 1) = 0 := by
    intro t ht hload
    have hnumber : number (mark cleared (lateEdge 50000016)) .count (t + 1) +
        lostEdges cleared (lateEdge 50000016) (t + 1) =
          enabledEdges cleared (lateEdge 50000016) (t + 1) :=
      number_mark (t + 1)
    rw [enabledEdges_lateEdge hb (by omega), lostEdges_lateEdge hb (by omega),
      if_pos (by norm_num)] at hnumber
    rw [loadedSum_load rfl (windowEdges_lateEdge hb) hload]
    show 0 + _ = 0
    omega
  have hlt : 50000016 < 100000017 := by norm_num
  have hload := loadAt_lateEdge hb hlt (by norm_num)
  exact ⟨windowEdges_lateEdge hb, hload, hzero _ hlt hload,
    enabledEdges_lateEdge hb (hlt.trans (Nat.lt_add_one _))⟩

end BldcFpga
