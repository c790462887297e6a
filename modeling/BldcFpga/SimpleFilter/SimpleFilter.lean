import BldcFpga.EdgeDetect.EdgeDetection

/-!
# The minimum filter

`simple_filter.v` with its default parameters: behind a divided clock, a counter numbers
the samples of a window, `min` holds the smallest sample of the window so far, and at the
last address of the window `data_filter` takes `min` over.

* `SimpleFilter` — the module; the registers behind the divided clock are grouped in
  `FilterRegs`;
* `SimpleFilter.regs_run` — with `rst` low those registers run over the samples taken at
  the rising edges of the divided clock;
* `SimpleFilter.dataFilter_isLeast` — what is published is the least of the first 1023
  samples of the window;
* `simpleFilter_window_iff` — hence of all 1024 exactly when the last one is not smaller
  than all the others;
* `simpleFilter_reset` — the first window after a reset is lost: 0 is published for it.
-/

namespace BldcFpga

open Clocked

/-- The registers of `simple_filter` behind the divided clock. -/
structure FilterRegs where
  address : BitVec 10
  Q : BitVec 10
  min : BitVec 10
  dataFilter : BitVec 10
  deriving DecidableEq, Repr

/-- The registers of `simple_filter`. -/
structure SimpleFilter where
  clockCnt : BitVec 12
  regs : FilterRegs
  deriving DecidableEq, Repr

namespace SimpleFilter

/-- The wire `load_flag`. -/
def loadFlag (s : FilterRegs) : Bool := s.address == 0#10

/-- The wire `comp`. -/
def comp (s : FilterRegs) : Bool := decide (s.Q < s.min)

/-- The wire `load_new_data`. -/
def loadNewData (s : FilterRegs) : Bool := s.address == 0x3ff#10

/-- `i` rounds of the `for` loop.  The assignments are non-blocking, so every round tests
the same wire `comp`, and the last one decides what `min` will hold. -/
def minLoop (comp : Bool) (Q : BitVec 10) : ℕ → BitVec 10 → BitVec 10
  | 0, min => min
  | i + 1, min => minLoop comp Q i (if comp then Q else min)

/-- `counter1` at a rising edge of its clock. -/
def counter1 (rst : Bool) (count : BitVec 10) : BitVec 10 := if rst then 0#10 else count + 1#10

/-- A rising edge of the divided clock. -/
def tick (rst : Bool) (datain : BitVec 10) (s : FilterRegs) : FilterRegs :=
  { address := counter1 rst s.address
    Q := if rst then 0#10 else datain
    min := minLoop (comp s) s.Q 1024 (if loadFlag s then s.Q else s.min)
    dataFilter := if loadNewData s then s.min else s.dataFilter }

/-- What `rst` does to these registers without waiting for a clock. -/
def clear (rst : Bool) (s : FilterRegs) : FilterRegs :=
  if rst then { s with address := 0#10, Q := 0#10 } else s

/-- The inputs of `simple_filter` at a clock edge. -/
structure Input where
  rst : Bool
  datain : BitVec 10
  deriving DecidableEq, Repr

/-- A rising edge of `clock`.  The divider counts; if that raises the divided clock, the
registers behind it take their own edge. -/
def step (i : Input) (s : SimpleFilter) : SimpleFilter :=
  let before := ClkDiv.settle i.rst s.clockCnt
  let clockCnt := ClkDiv.step i.rst before
  { clockCnt := clockCnt
    regs :=
      if ClkDiv.clockDiv before = false ∧ ClkDiv.clockDiv clockCnt = true then
        tick i.rst i.datain (clear i.rst s.regs)
      else clear i.rst s.regs }

/-! ## One tick -/

/-- The loop does what its body does once. -/
theorem minLoop_of_pos (comp : Bool) (Q min : BitVec 10) {n : ℕ} (hn : 0 < n) :
    minLoop comp Q n min = if comp then Q else min := by
  obtain ⟨i, rfl⟩ : ∃ i, n = i + 1 := ⟨n - 1, by omega⟩
  induction i generalizing min with
  | zero => rfl
  | succ i ih =>
    rw [minLoop, ih _ (Nat.succ_pos i)]
    cases comp <;> rfl

/-- `min` is replaced at the first address of a window, and by every smaller sample. -/
theorem min_tick (datain : BitVec 10) (s : FilterRegs) :
    (tick false datain s).min =
      if s.address = 0#10 ∨ s.Q < s.min then s.Q else s.min := by
  simp only [tick]
  rw [minLoop_of_pos _ _ _ (by omega)]
  by_cases hload : s.address = 0#10 <;> by_cases hlt : s.Q < s.min <;>
    simp [comp, loadFlag, hload, hlt]

/-- `data_filter` moves at the last address only. -/
theorem dataFilter_tick (datain : BitVec 10) (s : FilterRegs) :
    (tick false datain s).dataFilter =
      if s.address.toNat = 1023 then s.min else s.dataFilter := by
  have hlast : loadNewData s = true ↔ s.address.toNat = 1023 := by
    rw [loadNewData, beq_iff_eq, ← BitVec.toNat_inj]
    rfl
  exact if_congr hlast rfl rfl

/-! ## Runs with `rst` low -/

section Run

variable (s : SimpleFilter) (datain : ℕ → BitVec 10)

/-- The registers after `t` clock edges with `rst` low. -/
def states (t : ℕ) : SimpleFilter := run step s (fun k => ⟨false, datain k⟩) t

/-- The samples: the values of `datain` at the ticks. -/
noncomputable def samples : ℕ → BitVec 10 := sampled (ClkDiv.TickAt s.clockCnt) datain

/-- The registers behind the divided clock after `k` ticks. -/
noncomputable def ticked (k : ℕ) : FilterRegs := run (tick false) s.regs (samples s datain) k

/-- **Behind the divided clock.**  After `t` clocks the registers are those after as many
ticks as there were. -/
theorem regs_run (t : ℕ) :
    (states s datain t).regs = ticked s datain (ClkDiv.ticks s.clockCnt t) :=
  ClkDiv.gated_run (fun k => (states s datain k).clockCnt)
    (x := fun k => (states s datain k).regs) (fun _ => rfl) (fun _ => rfl) t

/-- What `Q` shows after `k` ticks: the sample taken last, or what it held at first. -/
noncomputable def heard : ℕ → BitVec 10
  | 0 => s.regs.Q
  | k + 1 => samples s datain k

theorem Q_ticked (k : ℕ) : (ticked s datain k).Q = heard s datain k := by
  cases k <;> rfl

theorem address_ticked (k : ℕ) :
    (ticked s datain k).address.toNat = (s.regs.address.toNat + k) % 1024 :=
  wrapping_toNat (x := fun i => (ticked s datain i).address) (fun _ => rfl) k

/-! ### One window -/

section Window

variable {s datain} {j : ℕ} (hj : (ticked s datain j).address = 0#10)

include hj

theorem address_window (i : ℕ) : (ticked s datain (j + i)).address.toNat = i % 1024 := by
  have h0 := address_ticked s datain j
  rw [hj, BitVec.toNat_ofNat, Nat.zero_mod] at h0
  rw [address_ticked, ← Nat.add_assoc, Nat.add_mod, ← h0, Nat.zero_add, Nat.mod_mod]

/-- **The running minimum.**  After `i` ticks of a window `min` is the least of its first
`i` samples. -/
theorem min_isLeast {i : ℕ} (hi : 1 ≤ i) (hle : i ≤ 1024) :
    IsLeast ((fun k => (heard s datain (j + k)).toNat) '' Set.Iio i)
      (ticked s datain (j + i)).min.toNat := by
  have hmin : ∀ k, (ticked s datain (j + (k + 1))).min =
      if (ticked s datain (j + k)).address = 0#10 ∨
          heard s datain (j + k) < (ticked s datain (j + k)).min then
        heard s datain (j + k) else (ticked s datain (j + k)).min := by
    intro k
    rw [← Q_ticked]
    exact min_tick _ _
  refine isLeast_running (m := fun k => (ticked s datain (j + k)).min.toNat) ?_ ?_ hi hle
  · show (ticked s datain (j + (0 + 1))).min.toNat = _
    rw [hmin 0, Nat.add_zero, hj]
    simp
  · intro k hk hlt
    have hne : (ticked s datain (j + k)).address ≠ 0#10 := by
      intro h
      have hmod := address_window hj k
      rw [h, Nat.mod_eq_of_lt hlt] at hmod
      simp at hmod
      omega
    show (ticked s datain (j + (k + 1))).min.toNat = _
    rw [hmin k]
    simp only [hne, false_or, BitVec.lt_def]
    split <;> rfl

/-- **What is published.**  After the window, until the next one ends, `data_filter` is the
least of its first 1023 samples. -/
theorem dataFilter_isLeast {i : ℕ} (hi : 1024 ≤ i) (hlt : i < 2048) :
    IsLeast ((fun k => (heard s datain (j + k)).toNat) '' Set.Iio 1023)
      (ticked s datain (j + i)).dataFilter.toNat := by
  have hdata : ∀ k, (ticked s datain (j + (k + 1))).dataFilter =
      if k % 1024 = 1023 then (ticked s datain (j + k)).min
      else (ticked s datain (j + k)).dataFilter := by
    intro k
    rw [← address_window hj k]
    exact dataFilter_tick _ _
  induction i, hi using Nat.le_induction with
  | base =>
    rw [hdata 1023, if_pos rfl]
    exact min_isLeast hj (by omega) (by omega)
  | succ i hi ih =>
    rw [hdata i, if_neg (by omega)]
    exact ih (by omega)

end Window

end Run

/-! ### From power-up -/

/-- Every register at zero. -/
def powerUp : SimpleFilter := ⟨0#12, ⟨0#10, 0#10, 0#10, 0#10⟩⟩

/-- Sample `k` is taken in the middle of period `k` of the divider. -/
theorem samples_powerUp (datain : ℕ → BitVec 10) (k : ℕ) :
    samples powerUp datain k = datain (4096 * k + 2047) :=
  ClkDiv.sampled_zero (n := 12) (by decide) datain k

/-- So an input that moves with the period of the divider is heard value by value. -/
theorem heard_powerUp (f : ℕ → BitVec 10) (k : ℕ) :
    heard powerUp (fun t => f (t / 4096)) (k + 1) = f k := by
  rw [heard, samples_powerUp, show (4096 * k + 2047) / 4096 = k by omega]

/-- A window begins every 1024 ticks. -/
theorem address_powerUp (datain : ℕ → BitVec 10) (q : ℕ) :
    (ticked powerUp datain (1024 * q)).address = 0#10 := by
  apply BitVec.eq_of_toNat_eq
  rw [address_ticked]
  simp [powerUp]

end SimpleFilter

open SimpleFilter in
/-- **When a window is filtered completely.**  For every contents of the registers, every
stream of input values with `rst` low and every window, from the tick `j` at which the
address is 0: `Q` shows the samples `heard (j + i)` at the addresses `i`, and from the edge
of the divided clock at which the address is `0x3ff`, until the next such edge,
`data_filter` is the least of the 1024 samples if and only if one of the first 1023 is at
most as large as the last. -/
theorem simpleFilter_window_iff (s : SimpleFilter) (datain : ℕ → BitVec 10) (j : ℕ)
    (hj : (ticked s datain j).address = 0#10) :
    (∀ i < 1024, (ticked s datain (j + i)).address.toNat = i ∧
      (ticked s datain (j + i)).Q = heard s datain (j + i)) ∧
    ∀ t, j + 1024 ≤ ClkDiv.ticks s.clockCnt t → ClkDiv.ticks s.clockCnt t < j + 2048 →
      (IsLeast ((fun i => (heard s datain (j + i)).toNat) '' Set.Iio 1024)
          (states s datain t).regs.dataFilter.toNat ↔
        ∃ i < 1023, (heard s datain (j + i)).toNat ≤ (heard s datain (j + 1023)).toNat) := by
  refine ⟨fun i hi => ⟨?_, Q_ticked s datain (j + i)⟩, fun t ht hlt => ?_⟩
  · rw [address_window hj i, Nat.mod_eq_of_lt hi]
  · obtain ⟨i, hi⟩ : ∃ i, ClkDiv.ticks s.clockCnt t = j + i :=
      ⟨ClkDiv.ticks s.clockCnt t - j, by omega⟩
    rw [regs_run, hi]
    exact isLeast_succ_iff (dataFilter_isLeast hj (by omega) (by omega))

open SimpleFilter in
/-- The second window after power-up holds a 3 in its middle and a 7 everywhere else: what is
published after it is 3. -/
theorem simpleFilter_window_dip :
    let datain : ℕ → BitVec 10 := fun t => if t / 4096 = 1500 then 3#10 else 7#10
    (states powerUp datain (2048 * 2 ^ 12)).regs.dataFilter = 3#10 := by
  intro datain
  have hticks : ClkDiv.ticks powerUp.clockCnt (2048 * 2 ^ 12) = 2048 :=
    ClkDiv.ticks_mul_period (by decide) _ 2048
  have hheard : ∀ i, heard powerUp datain (1024 + i) = if i = 477 then 3#10 else 7#10 := by
    intro i
    rw [show 1024 + i = 1023 + i + 1 by omega]
    exact (heard_powerUp (fun p => if p = 1500 then 3#10 else 7#10) _).trans
      (if_congr (by omega) rfl rfl)
  have hleast := ((simpleFilter_window_iff powerUp datain 1024 (address_powerUp datain 1)).2
    (2048 * 2 ^ 12) (by rw [hticks]) (by rw [hticks]; omega)).2
      ⟨477, by omega, by rw [hheard, hheard]; decide⟩
  obtain ⟨⟨i, -, hi⟩, hle⟩ := hleast
  have h3 := hle ⟨477, by simp, rfl⟩
  simp only [hheard, if_true] at hi h3
  apply BitVec.eq_of_toNat_eq
  by_cases hhere : i = 477
  · rw [← hi, if_pos hhere]
  · rw [← hi, if_neg hhere] at h3
    exact absurd h3 (by decide)

open SimpleFilter in
/-- The second window after power-up holds a 5 at all addresses but the last, and a 3 there:
what is published after it is 5. -/
theorem simpleFilter_last_sample :
    let datain : ℕ → BitVec 10 := fun t => if t / 4096 = 2046 then 3#10 else 5#10
    (ticked powerUp datain 1024).address = 0#10 ∧
      heard powerUp datain (1024 + 1023) = 3#10 ∧
      ClkDiv.ticks powerUp.clockCnt (2048 * 2 ^ 12) = 1024 + 1024 ∧
      (states powerUp datain (2048 * 2 ^ 12)).regs.dataFilter = 5#10 := by
  intro datain
  have hticks : ClkDiv.ticks powerUp.clockCnt (2048 * 2 ^ 12) = 1024 + 1024 :=
    ClkDiv.ticks_mul_period (by decide) _ 2048
  have hheard : ∀ k, heard powerUp datain (k + 1) = if k = 2046 then 3#10 else 5#10 :=
    heard_powerUp fun p => if p = 2046 then 3#10 else 5#10
  refine ⟨address_powerUp datain 1, by rw [hheard 2046, if_pos rfl], hticks, ?_⟩
  obtain ⟨⟨k, hk, hdata⟩, -⟩ :=
    dataFilter_isLeast (address_powerUp datain 1) (show 1024 ≤ 1024 by omega) (by omega)
  rw [Set.mem_Iio] at hk
  apply BitVec.eq_of_toNat_eq
  rw [regs_run, hticks, ← hdata]
  simp only [show 1024 * 1 + k = 1023 + k + 1 by omega, hheard,
    if_neg (show 1023 + k ≠ 2046 by omega)]

/-! ## After a reset -/

namespace SimpleFilter

/-- A reset clears the divider, the address and `Q`; `min` and `data_filter` wait for the
divided clock, which stands still. -/
theorem run_reset (s : SimpleFilter) (pre : ℕ → BitVec 10) {n : ℕ} (hn : 1 ≤ n) :
    run step s (fun k => ⟨true, pre k⟩) n =
      ⟨0#12, { s.regs with address := 0#10, Q := 0#10 }⟩ := by
  have hstep : ∀ x d, step ⟨true, d⟩ x = ⟨0#12, { x.regs with address := 0#10, Q := 0#10 }⟩ := by
    intro x d
    have hlow : ¬ (ClkDiv.clockDiv (0#12) = false ∧ ClkDiv.clockDiv (0#12) = true) := by decide
    simp [step, ClkDiv.settle, ClkDiv.step, hlow, clear]
  induction n, hn using Nat.le_induction with
  | base => exact hstep s (pre 0)
  | succ n _ ih => rw [run_succ, ih, hstep]

variable {s : SimpleFilter} {datain : ℕ → BitVec 10} {j : ℕ}

/-- Before the end of the window the published value stands. -/
theorem dataFilter_hold (hj : (ticked s datain j).address = 0#10) {i : ℕ} (hi : i ≤ 1023) :
    (ticked s datain (j + i)).dataFilter = (ticked s datain j).dataFilter := by
  induction i with
  | zero => rfl
  | succ i ih =>
    have htick : (ticked s datain (j + (i + 1))).dataFilter =
        if (ticked s datain (j + i)).address.toNat = 1023 then (ticked s datain (j + i)).min
        else (ticked s datain (j + i)).dataFilter := dataFilter_tick _ _
    rw [htick, address_window hj, Nat.mod_eq_of_lt (by omega), if_neg (by omega), ih (by omega)]

end SimpleFilter

open SimpleFilter in
/-- **A reset of the filter.**  For every contents, every length of a reset and every stream
of input values after it: up to the end of the first window `data_filter` shows what it
showed before the reset, up to the end of the second one it shows 0, whatever the input was,
and from then on, during window `q + 1`, the least of the first 1023 samples of window `q`. -/
theorem simpleFilter_reset (s : SimpleFilter) (pre : ℕ → BitVec 10) (n : ℕ) (hn : 1 ≤ n)
    (datain : ℕ → BitVec 10) (t : ℕ) :
    let ticks := ClkDiv.ticks (0#12) t
    let shown := (states (run step s (fun k => ⟨true, pre k⟩) n) datain t).regs.dataFilter
    (ticks < 1024 → shown = s.regs.dataFilter) ∧
    (1024 ≤ ticks → ticks < 2048 → shown = 0#10) ∧
    ∀ q, 1 ≤ q → 1024 * (q + 1) ≤ ticks → ticks < 1024 * (q + 2) →
      IsLeast ((fun i => (datain (4096 * (1024 * q + i - 1) + 2047)).toNat) '' Set.Iio 1023)
        shown.toNat := by
  intro ticks shown
  set x : SimpleFilter := ⟨0#12, { s.regs with address := 0#10, Q := 0#10 }⟩
  have hshown : shown = (ticked x datain ticks).dataFilter := by
    simp only [shown]
    rw [run_reset s pre hn, regs_run]
  have haddress : ∀ q, (ticked x datain (1024 * q)).address = 0#10 := by
    intro q
    apply BitVec.eq_of_toNat_eq
    rw [address_ticked]
    simp [x]
  have hleast : ∀ q, 1024 * (q + 1) ≤ ticks → ticks < 1024 * (q + 2) →
      IsLeast ((fun i => (heard x datain (1024 * q + i)).toNat) '' Set.Iio 1023) shown.toNat := by
    intro q hle hlt
    rw [hshown, show ticks = 1024 * q + (ticks - 1024 * q) by omega]
    exact dataFilter_isLeast (haddress q) (by omega) (by omega)
  refine ⟨fun hlt => ?_, fun hle hlt => ?_, fun q hq hle hlt => ?_⟩
  · have hhold := dataFilter_hold (haddress 0) (show ticks ≤ 1023 by omega)
    rw [hshown, ← Nat.zero_add ticks]
    exact hhold
  · -- the first sample of the window is the cleared `Q`
    have hfirst := (hleast 0 (by omega) (by omega)).2 ⟨0, by simp, rfl⟩
    exact BitVec.eq_of_toNat_eq (Nat.le_zero.1 hfirst)
  · have hheard : ∀ i, heard x datain (1024 * q + i) =
        datain (4096 * (1024 * q + i - 1) + 2047) := by
      intro i
      obtain ⟨k, hk⟩ : ∃ k, 1024 * q + i = k + 1 := ⟨1024 * q + i - 1, by omega⟩
      rw [hk, Nat.add_sub_cancel]
      exact ClkDiv.sampled_zero (n := 12) (by decide) datain k
    simpa only [hheard] using hleast q hle hlt

open SimpleFilter in
/-- An input that never moves, one window after a reset. -/
theorem simpleFilter_reset_constant :
    (states (run step powerUp (fun _ => ⟨true, 7#10⟩) 1) (fun _ => 7#10)
      (1024 * 2 ^ 12)).regs.dataFilter = 0#10 := by
  have hticks : ClkDiv.ticks (0#12) (1024 * 2 ^ 12) = 1024 :=
    ClkDiv.ticks_mul_period (by decide) _ 1024
  refine (simpleFilter_reset powerUp (fun _ => 7#10) 1 le_rfl (fun _ => 7#10)
    (1024 * 2 ^ 12)).2.1 ?_ ?_
  · rw [hticks]
  · rw [hticks]
    omega

end BldcFpga
