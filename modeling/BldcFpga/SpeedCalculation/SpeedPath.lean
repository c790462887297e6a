import BldcFpga.EdgeDetect.Filter
import BldcFpga.SpeedCalculation.SpeedCalculation

/-!
# From the raw hall sensor to the reading

One channel of the speed path of `DE0_NANO`: `edge_detection` feeds
`speed_calculation`, both on the board's clock.  The filter moves in the middle of
the divider's period, the windows begin and end where a period does, so the two
never meet.

* `SpeedPath` — the two modules and the wire `hall_f` between them;
* `hallF_rise` — a debounced rise falls neither on the edge that ends a window nor
  in the cycle after it;
* `hallF_eq` — on a slow sensor the filter is a delayed view of the raw waveform;
* `speedPath_counts` — so every rise is counted in exactly one window, and the
  readings add up to the raw rises, up to one.
-/

namespace BldcFpga

open Clocked EdgeDetection

/-- One channel: the filter of one sensor and the counter behind it. -/
structure SpeedPath (n div : ℕ) where
  filter : EdgeDetection n div
  speed : SpeedCalculation
  deriving DecidableEq, Repr

namespace SpeedPath

variable {n div : ℕ}

/-- The wire `hall_f`. -/
def hallF (s : SpeedPath n div) : Bool := z s.filter.regs

/-- A clock edge of the board. -/
def step (maxValue : ℕ) (i : EdgeDetection.Input) (s : SpeedPath n div) : SpeedPath n div :=
  let filter := EdgeDetection.step i s.filter
  { filter := filter
    speed := SpeedCalculation.step maxValue ⟨i.reset, z filter.regs⟩ s.speed }

/-- The filter with divider and shift register cleared, in state `A`. -/
def cleared (n div : ℕ) (stateD : BitVec 2) : EdgeDetection n div where
  clockCnt := BitVec.ofNat div 0
  regs := ⟨0#n, stateD, A⟩

/-- The channel with a cleared filter, window counter and `mec_cycles`. -/
def start (stateD : BitVec 2) (D : BitVec 8) : SpeedPath n div :=
  { filter := cleared n div stateD
    speed := ⟨0#26, 0#8, D, false⟩ }

section Run

variable (maxValue : ℕ) (stateD : BitVec 2) (D : BitVec 8) (data : ℕ → Bool)

/-- The channel after `t` clocks with `rst` low. -/
def states (t : ℕ) : SpeedPath n div :=
  run (step maxValue) (start stateD D) (fun k => ⟨false, data k⟩) t

/-- The debounced waveform. -/
def hallWave (n div : ℕ) (t : ℕ) : Bool :=
  z (EdgeDetection.states (cleared n div stateD) data t).regs

theorem filter_run (t : ℕ) :
    (states maxValue stateD D data t : SpeedPath n div).filter =
      EdgeDetection.states (cleared n div stateD) data t :=
  run_map SpeedPath.filter id (fun _ _ => rfl) _ _ t

theorem hallF_run (t : ℕ) :
    hallF (states maxValue stateD D data t : SpeedPath n div) = hallWave stateD data n div t := by
  rw [hallF, filter_run]
  rfl

theorem speed_run (t : ℕ) :
    (states maxValue stateD D data t : SpeedPath n div).speed =
      SpeedCalculation.states maxValue ⟨0#26, 0#8, D, false⟩
        (fun k => hallWave stateD data n div (k + 1)) t := by
  induction t with
  | zero => rfl
  | succ t ih =>
    have hf : hallF (states maxValue stateD D data (t + 1) : SpeedPath n div) = _ :=
      hallF_run maxValue stateD D data (t + 1)
    rw [SpeedCalculation.states, run_succ, ← SpeedCalculation.states, ← ih, ← hf]
    rfl

/-- What the counter sees is the debounced waveform. -/
theorem wave_eq :
    SpeedCalculation.wave ⟨0#26, 0#8, D, false⟩ (fun k => hallWave stateD data n div (k + 1)) =
      hallWave stateD data n div := by
  funext t
  cases t <;> rfl

end Run

/-! ## The phase of the divider and the window -/

section Phase

variable {maxValue : ℕ} (hM : maxValue < 2 ^ 26) (hdiv : 2 ≤ div)
  (hP : 2 ^ div ∣ maxValue + 1) (stateD : BitVec 2) (D : BitVec 8) (data : ℕ → Bool)

/-- A debounced rise comes with a tick, in the middle of a period of the divider. -/
theorem rise_phase (hdiv : 1 ≤ div) {t : ℕ} (hr : Rise (hallWave stateD data n div) t) :
    (t + 1) % 2 ^ div = 2 ^ (div - 1) := by
  have hne : hallWave stateD data n div t ≠ hallWave stateD data n div (t + 1) := by
    rw [hr.1, hr.2]
    decide
  have htick : ClkDiv.TickAt (BitVec.ofNat div 0) t :=
    tickAt_of_change (cleared n div stateD) data hne
  rw [ClkDiv.tickAt_iff hdiv, BitVec.toNat_ofNat, Nat.zero_mod, Nat.zero_add] at htick
  exact htick

include hdiv hP

/-- The edges around the start of a window have another phase. -/
theorem rise_off_boundary {t : ℕ} (hr : Rise (hallWave stateD data n div) t) :
    t % (maxValue + 1) ≠ maxValue ∧ t % (maxValue + 1) ≠ 0 ∧ (t + 1) % (maxValue + 1) ≠ 0 := by
  have hphase := rise_phase (n := n) stateD data (by omega) hr
  have hhalf : 2 ≤ 2 ^ (div - 1) := by
    calc 2 = 2 ^ 1 := rfl
      _ ≤ 2 ^ (div - 1) := Nat.pow_le_pow_right (by norm_num) (by omega)
  have hdouble : 2 ^ div = 2 * 2 ^ (div - 1) := by
    rw [← pow_succ', Nat.sub_add_cancel (by omega)]
  have hzero : (t + 1) % (maxValue + 1) ≠ 0 := by
    intro h
    have hdvd := hP.trans (Nat.dvd_of_mod_eq_zero h)
    rw [Nat.mod_eq_zero_of_dvd hdvd] at hphase
    omega
  refine ⟨fun h => hzero ?_, fun h => ?_, hzero⟩
  · rw [Nat.add_mod, h, Nat.add_mod_mod, Nat.mod_self]
  · have hdvd := hP.trans (Nat.dvd_of_mod_eq_zero h)
    rw [Nat.add_mod, Nat.mod_eq_zero_of_dvd hdvd, Nat.zero_add, Nat.mod_mod,
      Nat.mod_eq_of_lt (by omega)] at hphase
    omega

include hM

/-- **No rise is lost.**  At a debounced rise `max_count` is low, and `min_count` is low
before and after the edge. -/
theorem hallF_rise {t : ℕ} (hr : Rise (hallWave stateD data n div) t) :
    SpeedCalculation.maxCount maxValue
        (states maxValue stateD D data t : SpeedPath n div).speed = false ∧
      SpeedCalculation.minCount
        (states maxValue stateD D data t : SpeedPath n div).speed = false ∧
      SpeedCalculation.minCount
        (states maxValue stateD D data (t + 1) : SpeedPath n div).speed = false := by
  obtain ⟨h1, h2, h3⟩ := rise_off_boundary hdiv hP stateD data hr
  rw [speed_run, speed_run]
  refine ⟨?_, ?_, ?_⟩ <;> rw [← Bool.not_eq_true]
  · rwa [SpeedCalculation.maxCount_run _ hM rfl]
  · rwa [SpeedCalculation.minCount_run _ hM rfl]
  · rwa [SpeedCalculation.minCount_run _ hM rfl]

/-- **The reading** at the end of a window is the number of its debounced rises. -/
theorem reading (q : ℕ) :
    (states maxValue stateD D data ((q + 1) * (maxValue + 1)) : SpeedPath n div).speed.D =
      BitVec.ofNat 8 (risesIn (hallWave stateD data n div) (q * (maxValue + 1))
        (maxValue + 1)) := by
  have hpos : 1 ≤ maxValue := by
    have := Nat.le_of_dvd (Nat.succ_pos _) hP
    have : 2 ^ 1 ≤ 2 ^ div := Nat.pow_le_pow_right (by norm_num) (by omega)
    omega
  -- the edge that ends the window is none of the rises
  have hlast : ¬ Rise (hallWave stateD data n div) (q * (maxValue + 1) + maxValue) := by
    intro hr
    refine (rise_off_boundary hdiv hP stateD data hr).1 ?_
    rw [Nat.mul_add_mod', Nat.mod_eq_of_lt (Nat.lt_succ_self _)]
  rw [speed_run, SpeedCalculation.D_run _ hM hpos rfl rfl, wave_eq, risesIn_succ, if_neg hlast]
  rfl

omit hdiv hP in
/-- It stands until the end of the next window. -/
theorem reading_hold (q : ℕ) {i : ℕ} (hi : i ≤ maxValue) :
    (states maxValue stateD D data (q * (maxValue + 1) + i) : SpeedPath n div).speed.D =
      (states maxValue stateD D data (q * (maxValue + 1)) : SpeedPath n div).speed.D := by
  rw [speed_run, speed_run, SpeedCalculation.D_hold _ hM rfl q hi]

/-- While no window overflows, the readings add up to the debounced rises. -/
theorem readings_sum (K : ℕ) (hsmall : ∀ k < K, risesIn (hallWave stateD data n div)
      (k * (maxValue + 1)) (maxValue + 1) ≤ 255) :
    ∑ k ∈ Finset.range K, (states maxValue stateD D data
        ((k + 1) * (maxValue + 1)) : SpeedPath n div).speed.D.toNat =
      rises (hallWave stateD data n div) (K * (maxValue + 1)) := by
  rw [rises_mul]
  refine Finset.sum_congr rfl fun k hk => ?_
  have := hsmall k (Finset.mem_range.1 hk)
  rw [reading hM hdiv hP, BitVec.toNat_ofNat, Nat.mod_eq_of_lt (by omega)]

end Phase

/-! ## Slow sensors -/

section Slow

variable (n div)

/-- The raw cycle which a cleared filter shows after `j` clocks; 0 stands for the level
before the first one. -/
def seen (j : ℕ) : ℕ :=
  if (j + 2 ^ (div - 1)) / 2 ^ div ≤ n then 0
  else 2 ^ div * ((j + 2 ^ (div - 1)) / 2 ^ div - 1 - n) + 2 ^ (div - 1)

variable {n div} (hn : 1 ≤ n) (hdiv : 1 ≤ div) (stateD : BitVec 2) (data : ℕ → Bool)

include hn hdiv

/-- **The filter on a slow sensor** is a delayed view of the raw waveform. -/
theorem hallF_eq (hdata : PhasesAtLeast (n * 2 ^ div) data) (j : ℕ) :
    hallWave stateD data n div j = preceded false data (seen n div j) := by
  have hhalf : 0 < 2 ^ (div - 1) := Nat.two_pow_pos _
  have hdouble : 2 ^ div = 2 * 2 ^ (div - 1) := by rw [← pow_succ', Nat.sub_add_cancel hdiv]
  have hsamples : samples (cleared n div stateD) data =
      fun k => data (2 ^ div * k + (2 ^ (div - 1) - 1)) :=
    funext fun k => ClkDiv.sampled_zero hdiv data k
  have hz : hallWave stateD data n div j = if ClkDiv.ticks (BitVec.ofNat div 0) j ≤ n then false
      else samples (cleared n div stateD) data (ClkDiv.ticks (BitVec.ofNat div 0) j - 1 - n) :=
    z_of_phases hn _ stateD data
      (hsamples ▸ hdata.sample (show 2 ^ (div - 1) - 1 < 2 ^ div by omega)) j
  rw [hsamples, ClkDiv.ticks_zero hdiv] at hz
  rw [hz, seen]
  split_ifs
  · rfl
  · generalize (j + 2 ^ (div - 1)) / 2 ^ div - 1 - n = k
    rw [show 2 ^ div * k + 2 ^ (div - 1) = 2 ^ div * k + (2 ^ (div - 1) - 1) + 1 by omega,
      preceded_succ]

/-- The view never moves back, and jumps by at most a phase. -/
theorem seen_succ (j : ℕ) :
    seen n div j ≤ seen n div (j + 1) ∧ seen n div (j + 1) ≤ seen n div j + n * 2 ^ div := by
  have hdouble : 2 ^ div = 2 * 2 ^ (div - 1) := by rw [← pow_succ', Nat.sub_add_cancel hdiv]
  have hphase : 2 ^ div ≤ n * 2 ^ div := Nat.le_mul_of_pos_left _ hn
  unfold seen
  rw [show j + 1 + 2 ^ (div - 1) = j + 2 ^ (div - 1) + 1 by omega, Nat.succ_div]
  generalize (j + 2 ^ (div - 1)) / 2 ^ div = u
  by_cases hold : u ≤ n
  · rw [if_pos hold]
    refine ⟨Nat.zero_le _, ?_⟩
    split_ifs
    · omega
    · -- the first sample comes into view
      rw [show u + 1 - 1 - n = 0 by omega, Nat.mul_zero]
      omega
    · omega
    · omega
  · obtain ⟨m, rfl⟩ : ∃ m, u = n + 1 + m := ⟨u - (n + 1), by omega⟩
    have hnext : 2 ^ div * (m + 1) = 2 ^ div * m + 2 ^ div := Nat.mul_succ _ _
    rw [if_neg hold, if_neg (by omega), show n + 1 + m - 1 - n = m by omega]
    split_ifs
    · rw [show n + 1 + m + 1 - 1 - n = m + 1 by omega]
      omega
    · rw [show n + 1 + m + 0 - 1 - n = m by omega]
      omega

/-- The view lags by at most two phases. -/
theorem seen_lag (j : ℕ) : seen n div j ≤ j ∧ j ≤ seen n div j + 2 * (n * 2 ^ div) := by
  have hdouble : 2 ^ div = 2 * 2 ^ (div - 1) := by rw [← pow_succ', Nat.sub_add_cancel hdiv]
  have hhalf : 0 < 2 ^ (div - 1) := Nat.two_pow_pos _
  have hphase : 2 ^ div ≤ n * 2 ^ div := Nat.le_mul_of_pos_left _ hn
  have hcomm : n * 2 ^ div = 2 ^ div * n := Nat.mul_comm _ _
  have hlow := Nat.mul_div_le (j + 2 ^ (div - 1)) (2 ^ div)
  have hhigh := Nat.lt_mul_div_succ (j + 2 ^ (div - 1)) (show 0 < 2 ^ div by omega)
  unfold seen
  generalize (j + 2 ^ (div - 1)) / 2 ^ div = u at hlow hhigh ⊢
  rw [Nat.mul_succ] at hhigh
  by_cases hu : u ≤ n
  · have := Nat.mul_le_mul_left (2 ^ div) hu
    rw [if_pos hu]
    omega
  · obtain ⟨m, rfl⟩ : ∃ m, u = n + 1 + m := ⟨u - (n + 1), by omega⟩
    have hsplit : 2 ^ div * (n + 1 + m) = 2 ^ div * n + 2 ^ div + 2 ^ div * m := by ring
    rw [if_neg hu, show n + 1 + m - 1 - n = m by omega]
    omega

/-- **No drift.**  The debounced rises are the raw ones, up to one. -/
theorem rises_hallF (hdata : PhasesAtLeast (n * 2 ^ div) data) (prev : Bool) (t : ℕ) :
    rises (hallWave stateD data n div) t ≤ rises (preceded prev data) t + 1 ∧
      rises (preceded prev data) t ≤ rises (hallWave stateD data n div) t + 1 := by
  have hspaced := hdata.spaced_preceded false
  have hview : rises (hallWave stateD data n div) t =
      rises (preceded false data) (seen n div t) := by
    have hfun : hallWave stateD data n div = fun j => preceded false data (seen n div j) :=
      funext (hallF_eq hn hdiv stateD data hdata)
    have h0 : seen n div 0 = 0 := Nat.le_zero.1 (seen_lag hn hdiv 0).1
    rw [hfun]
    exact hspaced.rises_comp h0 (fun j => (seen_succ hn hdiv j).1)
      (fun j => (seen_succ hn hdiv j).2) t
  obtain ⟨hle, hge⟩ := seen_lag hn hdiv t
  have hmono := rises_mono (preceded false data) hle
  have hlag := hspaced.rises_le_add_one hle hge
  have hprev := rises_preceded data t
  cases prev
  · omega
  · split_ifs at hprev <;> omega

end Slow

/-! ## The whole path -/

open SpeedCalculation in
/-- The channel with windows of any length that is a multiple of the divider's period. -/
theorem counts (hn : 1 ≤ n) (hdiv : 2 ≤ div) {maxValue window : ℕ} (hM : maxValue < 2 ^ 26)
    (hwindow : window = maxValue + 1) (hP : 2 ^ div ∣ window) (stateD : BitVec 2) (D : BitVec 8)
    (data : ℕ → Bool) :
    let x : ℕ → SpeedPath n div := states maxValue stateD D data
    let wave := fun t => hallF (x t)
    let total := fun K => ∑ k ∈ Finset.range K, (x ((k + 1) * window)).speed.D.toNat
    (∀ t, Rise wave t → maxCount maxValue (x t).speed = false ∧
      minCount (x t).speed = false ∧ minCount (x (t + 1)).speed = false) ∧
    (∀ k, (x ((k + 1) * window)).speed.D.toNat = risesIn wave (k * window) window % 2 ^ 8) ∧
    (∀ k, ∀ i < window, (x ((k + 1) * window + i)).speed.D = (x ((k + 1) * window)).speed.D) ∧
    (∀ K, (∀ k < K, risesIn wave (k * window) window ≤ 255) →
      total K = rises wave (K * window) ∧
      (PhasesAtLeast (n * 2 ^ div) data → ∀ prev,
        total K ≤ rises (preceded prev data) (K * window) + 1 ∧
          rises (preceded prev data) (K * window) ≤ total K + 1)) := by
  intro x wave total
  subst hwindow
  have hwave : wave = hallWave stateD data n div := funext (hallF_run maxValue stateD D data)
  have hsum : ∀ K, (∀ k < K, risesIn wave (k * (maxValue + 1)) (maxValue + 1) ≤ 255) →
      total K = rises wave (K * (maxValue + 1)) := by
    rw [hwave]
    exact readings_sum hM hdiv hP stateD D data
  refine ⟨?_, fun k => ?_, fun k i hi => ?_, fun K hsmall => ⟨hsum K hsmall, fun hdata prev => ?_⟩⟩
  · rw [hwave]
    exact fun t => hallF_rise hM hdiv hP stateD D data
  · rw [hwave, ← BitVec.toNat_ofNat]
    exact congrArg BitVec.toNat (reading hM hdiv hP stateD D data k)
  · exact reading_hold hM stateD D data (k + 1) (Nat.le_of_lt_succ hi)
  · rw [hsum K hsmall, hwave]
    exact rises_hallF hn (by omega) stateD data hdata prev _

end SpeedPath

open SpeedCalculation SpeedPath in
/-- **One channel of the board, on every raw waveform.**  From cleared counters and a
cleared filter, with `reset` low: no debounced rise lands on the edge that copies
`mec_cycles` or in the cycle in which `min_count` clears it; the reading at the end of
every window is the number of its debounced rises modulo 256, and stands until the
end of the next one; while no window holds more than 255 rises the readings add up to
all of them; and if every raw phase lasts at least 320 clocks, that sum is the number
of raw rises up to one, over any number of windows and whatever level the line had
before the first clock. -/
theorem speedPath_counts (stateD : BitVec 2) (D : BitVec 8) (data : ℕ → Bool) :
    let x : ℕ → SpeedPath 20 4 := states maxValueDefault stateD D data
    let wave := fun t => hallF (x t)
    let window := 50_000_000
    let total := fun K => ∑ k ∈ Finset.range K, (x ((k + 1) * window)).speed.D.toNat
    (∀ t, Rise wave t → maxCount maxValueDefault (x t).speed = false ∧
      minCount (x t).speed = false ∧ minCount (x (t + 1)).speed = false) ∧
    (∀ k, (x ((k + 1) * window)).speed.D.toNat = risesIn wave (k * window) window % 2 ^ 8) ∧
    (∀ k, ∀ i < window, (x ((k + 1) * window + i)).speed.D = (x ((k + 1) * window)).speed.D) ∧
    (∀ K, (∀ k < K, risesIn wave (k * window) window ≤ 255) →
      total K = rises wave (K * window) ∧
      (PhasesAtLeast 320 data → ∀ prev, total K ≤ rises (preceded prev data) (K * window) + 1 ∧
        rises (preceded prev data) (K * window) ≤ total K + 1)) := by
  have hM : maxValueDefault < 2 ^ 26 := maxValueDefault_lt
  have hwindow : 50_000_000 = maxValueDefault + 1 := by decide
  have hn : 1 ≤ 20 := by decide
  have hdiv : 2 ≤ 4 := by decide
  exact counts hn hdiv hM hwindow (by decide) stateD D data

end BldcFpga
