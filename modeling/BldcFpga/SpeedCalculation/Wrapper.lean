import BldcFpga.SpeedCalculation.SpeedCalculation

/-!
# The displayed speed

`speed_calculation_wrapper.v`: three copies of `speed_calculation`, a table `rpm_lut`
behind each, and two registers `divider_2` which halve a sum.

* `rpmLut` — the table.  Its `case` has an empty `default`, so `dataout` is a latch
  that keeps its old value on a count of more than 200;
* `Channel` — one sensor's counter with its table; `Channel.Loads.rpm_hold` says that the
  reading stands during a window, `Channel.Counts.loads` which count it shows;
* `Averager` — the two dividers; `Averager.rpm_run` says which readings they average;
* `SpeedCalculationWrapper` — the module: three channels that do not know of each
  other, and the averager behind them.
-/

namespace BldcFpga

open Clocked

/-! ## `rpm_lut` -/

set_option maxRecDepth 2000 in
/-- The rows of `rpm_lut`, in the order of `datain`. -/
def rpmTable : List ℕ :=
  [0, 4, 8, 12, 16, 20, 24, 28, 32, 36, 40, 44, 48, 52, 56, 60, 64, 68, 72, 76, 80, 84, 88, 92,
    96, 100, 104, 108, 112, 116, 120, 124, 128, 132, 136, 140, 144, 148, 152, 156, 160, 164, 168,
    172, 176, 180, 184, 188, 192, 196, 200, 204, 208, 212, 216, 220, 224, 228, 232, 236, 240, 244,
    248, 252, 256, 260, 264, 268, 272, 276, 280, 284, 288, 292, 296, 300, 304, 308, 312, 316, 320,
    324, 328, 332, 336, 340, 344, 348, 352, 356, 360, 364, 368, 372, 376, 380, 384, 388, 392, 396,
    400, 404, 408, 412, 416, 420, 424, 428, 432, 436, 440, 444, 448, 452, 456, 460, 464, 468, 472,
    476, 480, 484, 488, 491, 496, 500, 504, 508, 512, 516, 520, 524, 528, 532, 536, 540, 544, 548,
    552, 556, 560, 564, 568, 572, 576, 580, 584, 588, 592, 596, 600, 604, 608, 612, 616, 620, 624,
    628, 632, 636, 640, 644, 648, 652, 656, 660, 664, 668, 672, 676, 680, 684, 688, 692, 696, 700,
    704, 708, 712, 716, 720, 724, 728, 732, 736, 740, 744, 748, 752, 756, 760, 764, 768, 772, 776,
    780, 784, 788, 792, 796, 800]

/-- `dataout` after `datain` has settled; `dataout` on the right is what the latch held. -/
def rpmLut (datain : BitVec 8) (dataout : BitVec 10) : BitVec 10 :=
  match rpmTable[datain.toNat]? with
  | some v => BitVec.ofNat 10 v
  | none => dataout

set_option maxRecDepth 2000 in
theorem rpmTable_length : rpmTable.length = 201 := rfl

set_option maxRecDepth 2000 in
theorem rpmTable_le : ∀ v ∈ rpmTable, v ≤ 800 := by decide

/-- A count with a row forgets what the latch held. -/
theorem rpmLut_of_le {datain : BitVec 8} (h : datain.toNat ≤ 200) (x y : BitVec 10) :
    rpmLut datain x = rpmLut datain y := by
  have hrow : datain.toNat < rpmTable.length := by rw [rpmTable_length]; omega
  rw [rpmLut, rpmLut, List.getElem?_eq_getElem hrow]

/-- A count without one leaves the latch alone. -/
theorem rpmLut_of_gt {datain : BitVec 8} (h : 200 < datain.toNat) (x : BitVec 10) :
    rpmLut datain x = x := by
  have hrow : rpmTable.length ≤ datain.toNat := by rw [rpmTable_length]; omega
  rw [rpmLut, List.getElem?_eq_none hrow]

theorem rpmLut_le (datain : BitVec 8) {x : BitVec 10} (hx : x.toNat ≤ 800) :
    (rpmLut datain x).toNat ≤ 800 := by
  rcases Nat.lt_or_ge 200 datain.toNat with h | h
  · rwa [rpmLut_of_gt h]
  · have hrow : datain.toNat < rpmTable.length := by rw [rpmTable_length]; omega
    have hle := rpmTable_le _ (List.getElem_mem hrow)
    rw [rpmLut, List.getElem?_eq_getElem hrow]
    exact (Nat.mod_le _ _).trans hle

/-- The latch is settled after one look at the table. -/
theorem rpmLut_idem (datain : BitVec 8) (x : BitVec 10) :
    rpmLut datain (rpmLut datain x) = rpmLut datain x := by
  rcases Nat.lt_or_ge 200 datain.toNat with h | h
  · rw [rpmLut_of_gt h, rpmLut_of_gt h]
  · exact rpmLut_of_le h _ _

/-! ## `divider_2` -/

/-- The register `Q` of `divider_2` at a clock edge: bit `i` takes bit `i + 1` of
`datain`, and the top bit is cleared. -/
def divider2 (reset : Bool) (datain : BitVec 11) : BitVec 11 :=
  if reset then 0#11 else datain >>> 1

/-- Its output `dataout`. -/
def dataout (Q : BitVec 11) : BitVec 10 := Q.setWidth 10

/-! ## One channel -/

/-- A `speed_calculation` and the `rpm_lut` behind it; `rpm` is what its latch holds. -/
structure Channel where
  speed : SpeedCalculation
  rpm : BitVec 10
  deriving DecidableEq, Repr

namespace Channel

/-- The count in force, the wire between the two modules. -/
def rev (c : Channel) : BitVec 8 := c.speed.D

/-- One clock cycle: the counter takes its edge, then the table follows the count. -/
def step (maxValue : ℕ) (i : SpeedCalculation.Input) (c : Channel) : Channel :=
  let speed := SpeedCalculation.step maxValue i c.speed
  { speed := speed
    rpm := rpmLut speed.D c.rpm }

section Run

variable (maxValue : ℕ) (c : Channel) (hall : ℕ → Bool)

/-- The channel after `t` clocks with `reset` low. -/
def states (t : ℕ) : Channel := run (step maxValue) c (fun k => ⟨false, hall k⟩) t

theorem states_add (t u : ℕ) :
    states maxValue c hall (t + u) =
      states maxValue (states maxValue c hall t) (fun k => hall (t + k)) u :=
  run_add _ _ _ t u

theorem speed_run (t : ℕ) :
    (states maxValue c hall t).speed = SpeedCalculation.states maxValue c.speed hall t :=
  run_map speed id (fun _ _ => rfl) c _ t

theorem rpm_succ (t : ℕ) :
    (states maxValue c hall (t + 1)).rpm =
      rpmLut (states maxValue c hall (t + 1)).rev (states maxValue c hall t).rpm := rfl

/-- At edge `T` a window ends and the count `n` is loaded. -/
structure Loads (T : ℕ) (n : BitVec 8) : Prop where
  ends : SpeedCalculation.maxCount maxValue (states maxValue c hall T).speed = true
  rev_eq : (states maxValue c hall (T + 1)).rev = n

variable {maxValue c hall} {T : ℕ} {n : BitVec 8}

/-- The table is asked for the count that was loaded. -/
theorem Loads.rpm_eq (h : Loads maxValue c hall T n) :
    (states maxValue c hall (T + 1)).rpm = rpmLut n (states maxValue c hall T).rpm := by
  rw [rpm_succ, h.rev_eq]

/-- **A reading stands** from the end of its window until the next one ends. -/
theorem Loads.rpm_hold (hM : maxValue < 2 ^ 26) (h : Loads maxValue c hall T n) {m : ℕ}
    (hm : m ≤ maxValue) :
    (states maxValue c hall (T + 1 + m)).rpm = rpmLut n (states maxValue c hall T).rpm := by
  have hcount : (states maxValue c hall (T + 1)).speed.count = 0#26 := by
    have hends := h.ends
    rw [speed_run] at hends ⊢
    exact SpeedCalculation.count_of_maxCount hall hends
  induction m with
  | zero => exact h.rpm_eq
  | succ m ih =>
    have hrev : (states maxValue c hall (T + 1 + m + 1)).rev = n := by
      have hold := SpeedCalculation.D_hold (fun k => hall (T + 1 + k)) hM hcount 0 hm
      rw [Nat.zero_mul, Nat.zero_add, ← speed_run, ← speed_run, ← states_add] at hold
      exact hold.trans h.rev_eq
    rw [← Nat.add_assoc, rpm_succ, hrev, ih (by omega), rpmLut_idem]

/-! ### Windows -/

/-- After `T` clocks a window begins, with both counters cleared, and `n` rises of the
sensor fall into it, those in its first cycle not counted. -/
structure Counts (maxValue : ℕ) (c : Channel) (hall : ℕ → Bool) (T n : ℕ) : Prop where
  count_eq : (states maxValue c hall T).speed.count = 0#26
  mecCycles_eq : (states maxValue c hall T).speed.mecCycles = 0#8
  rises_eq : risesIn (SpeedCalculation.wave c.speed hall) T maxValue = n

/-- From a start with both counters cleared every window counts its rises. -/
theorem counts_window (hM : maxValue < 2 ^ 26) (hpos : 1 ≤ maxValue)
    (hcount : c.speed.count = 0#26) (hmec : c.speed.mecCycles = 0#8) (q : ℕ) :
    Counts maxValue c hall (q * (maxValue + 1))
      (risesIn (SpeedCalculation.wave c.speed hall) (q * (maxValue + 1)) maxValue) where
  count_eq := by
    rw [speed_run, ← BitVec.toNat_inj, SpeedCalculation.count_run hall hM hcount]
    simp
  mecCycles_eq := by
    have hzero := SpeedCalculation.mecCycles_run hall hM hpos hcount hmec q (Nat.zero_le maxValue)
    rwa [Nat.add_zero, risesIn_zero, ← speed_run] at hzero
  rises_eq := rfl

/-- The waveform as it is from clock `T` on. -/
theorem wave_states (k : ℕ) :
    SpeedCalculation.wave (states maxValue c hall T).speed (fun k => hall (T + k)) k =
      SpeedCalculation.wave c.speed hall (T + k) := by
  cases k with
  | zero =>
    rw [speed_run, Nat.add_zero]
    exact SpeedCalculation.hallSensor_run maxValue c.speed hall T
  | succ k => rfl

/-- The count that is loaded at the end of the window holds eight bits of the number. -/
theorem Counts.loads {n : ℕ} (hM : maxValue < 2 ^ 26) (hpos : 1 ≤ maxValue)
    (h : Counts maxValue c hall T n) :
    Loads maxValue c hall (T + maxValue) (BitVec.ofNat 8 n) where
  ends := by
    rw [states_add, speed_run, SpeedCalculation.maxCount_run _ hM h.count_eq]
    exact Nat.mod_eq_of_lt (Nat.lt_succ_self maxValue)
  rev_eq := by
    have hD := SpeedCalculation.D_run (fun k => hall (T + k)) hM hpos h.count_eq h.mecCycles_eq 0
    have hwave : risesIn (SpeedCalculation.wave (states maxValue c hall T).speed
        (fun k => hall (T + k))) (0 * (maxValue + 1)) maxValue = n := by
      rw [← h.rises_eq]
      refine count_congr fun k _ => ?_
      rw [Nat.zero_mul, Nat.zero_add, Rise, Rise, wave_states, wave_states, Nat.add_assoc]
    rw [hwave, Nat.zero_add, Nat.one_mul] at hD
    rw [rev, Nat.add_assoc, states_add, speed_run]
    exact hD

end Run

end Channel

/-! ## The averaging pipeline -/

/-- The registers of the two dividers. -/
structure Averager where
  S0 : BitVec 11
  S1 : BitVec 11
  deriving DecidableEq, Repr

namespace Averager

/-- The readings of the three tables. -/
structure Readings where
  rpmA : BitVec 10
  rpmB : BitVec 10
  rpmC : BitVec 10
  deriving DecidableEq, Repr

/-- The wire `sum0`. -/
def sum0 (r : Readings) : BitVec 11 := r.rpmA.setWidth 11 + r.rpmB.setWidth 11

/-- The wire `div1`; its top bit has no driver and is read as 0. -/
def div1 (s : Averager) : BitVec 11 := (dataout s.S0).setWidth 11

/-- The wire `sum1`. -/
def sum1 (r : Readings) (s : Averager) : BitVec 11 := div1 s + r.rpmC.setWidth 11

/-- The output `rpm`. -/
def rpm (s : Averager) : BitVec 10 := dataout s.S1

/-- A clock edge. -/
def step (reset : Bool) (r : Readings) (s : Averager) : Averager :=
  { S0 := divider2 reset (sum0 r)
    S1 := divider2 reset (sum1 r s) }

/-- What the pipeline makes of three readings. -/
def average (a b c : BitVec 10) : BitVec 10 :=
  let div1 := (dataout ((a.setWidth 11 + b.setWidth 11) >>> 1)).setWidth 11
  dataout ((div1 + c.setWidth 11) >>> 1)

/-- The sums fit their wires, and the halves fit the outputs of the dividers. -/
theorem average_toNat (a b c : BitVec 10) :
    (average a b c).toNat = ((a.toNat + b.toNat) / 2 + c.toNat) / 2 := by
  have ha := a.isLt
  have hb := b.isLt
  have hc := c.isLt
  simp only [average, dataout, BitVec.toNat_setWidth, BitVec.toNat_ushiftRight,
    BitVec.toNat_add, Nat.shiftRight_one]
  omega

/-- **The pipeline.**  With `reset` low the output averages two readings of two clocks
ago and one of the clock between. -/
theorem rpm_run (s : Averager) (r : ℕ → Readings) (t : ℕ) :
    rpm (run (step false) s r (t + 2)) = average (r t).rpmA (r t).rpmB (r (t + 1)).rpmC := rfl

end Averager

/-! ## `speed_calculation_wrapper` -/

/-- The registers of `speed_calculation_wrapper`: the counters `HA`, `HB` and `HC` with
their tables, and the dividers `S0` and `S1`. -/
structure SpeedCalculationWrapper where
  HA : Channel
  HB : Channel
  HC : Channel
  dividers : Averager
  deriving DecidableEq, Repr

namespace SpeedCalculationWrapper

/-- The inputs of one cycle: `reset` at the clock edge, and the sensors after it. -/
structure Input where
  reset : Bool
  hallA : Bool
  hallB : Bool
  hallC : Bool
  deriving DecidableEq, Repr

/-- What the tables show. -/
def readings (s : SpeedCalculationWrapper) : Averager.Readings :=
  ⟨s.HA.rpm, s.HB.rpm, s.HC.rpm⟩

/-- The output `rpm`. -/
def rpm (s : SpeedCalculationWrapper) : BitVec 10 := Averager.rpm s.dividers

/-- One clock cycle.  The dividers sample what the tables showed before the edge. -/
def step (maxValue : ℕ) (i : Input) (s : SpeedCalculationWrapper) : SpeedCalculationWrapper :=
  { HA := Channel.step maxValue ⟨i.reset, i.hallA⟩ s.HA
    HB := Channel.step maxValue ⟨i.reset, i.hallB⟩ s.HB
    HC := Channel.step maxValue ⟨i.reset, i.hallC⟩ s.HC
    dividers := Averager.step i.reset (readings s) s.dividers }

/-- The three sensors, cycle by cycle. -/
structure Sensors where
  a : ℕ → Bool
  b : ℕ → Bool
  c : ℕ → Bool

section Run

variable (maxValue : ℕ) (s : SpeedCalculationWrapper) (h : Sensors)

/-- The registers after `t` clocks with `reset` low. -/
def states (t : ℕ) : SpeedCalculationWrapper :=
  run (step maxValue) s (fun k => ⟨false, h.a k, h.b k, h.c k⟩) t

theorem HA_run (t : ℕ) : (states maxValue s h t).HA = Channel.states maxValue s.HA h.a t :=
  run_map HA (fun i : Input => (⟨i.reset, i.hallA⟩ : SpeedCalculation.Input))
    (fun _ _ => rfl) s _ t

theorem HB_run (t : ℕ) : (states maxValue s h t).HB = Channel.states maxValue s.HB h.b t :=
  run_map HB (fun i : Input => (⟨i.reset, i.hallB⟩ : SpeedCalculation.Input))
    (fun _ _ => rfl) s _ t

theorem HC_run (t : ℕ) : (states maxValue s h t).HC = Channel.states maxValue s.HC h.c t :=
  run_map HC (fun i : Input => (⟨i.reset, i.hallC⟩ : SpeedCalculation.Input))
    (fun _ _ => rfl) s _ t

theorem dividers_run (t : ℕ) :
    (states maxValue s h t).dividers =
      run (Averager.step false) s.dividers (fun k => readings (states maxValue s h k)) t := by
  induction t with
  | zero => rfl
  | succ t ih =>
    rw [run_succ, ← ih]
    rfl

/-- The speed shown, in terms of what the three channels held. -/
theorem rpm_run (t : ℕ) :
    rpm (states maxValue s h (t + 2)) =
      Averager.average (Channel.states maxValue s.HA h.a t).rpm
        (Channel.states maxValue s.HB h.b t).rpm
        (Channel.states maxValue s.HC h.c (t + 1)).rpm := by
  rw [rpm, dividers_run, Averager.rpm_run]
  simp only [readings, HA_run, HB_run, HC_run]

end Run

end SpeedCalculationWrapper

end BldcFpga
