import BldcFpga.Clocked.Run
import BldcFpga.Clocked.Counters
import BldcFpga.Clocked.Edges

/-!
# Counting revolutions per window

`speed_calculation.v`: a counter on the clock delimits windows of `MAX_VALUE + 1`
clocks; a second one, `mec_cycles`, is clocked by the filtered hall sensor itself.
At the end of a window `D` takes `mec_cycles`, and the rising edge of `min_count`
clears it without waiting for anything.

* `SpeedCalculation` — the module: a clock edge, then what the sensor does in the
  cycle after it;
* `count_run` — the window counter in closed form;
* `mecCycles_run`, `D_run` — inside a window `mec_cycles` holds the rises since the
  window began, and the reading is their number but for one that falls on the edge
  which ends the window.
-/

namespace BldcFpga

open Clocked

/-- The registers of `speed_calculation`.  `hallSensor` is the level of the sensor
that the edge-triggered block has seen last. -/
structure SpeedCalculation where
  count : BitVec 26
  mecCycles : BitVec 8
  D : BitVec 8
  hallSensor : Bool
  deriving DecidableEq, Repr

namespace SpeedCalculation

/-- The default of the parameter `MAX_VALUE`. -/
def maxValueDefault : ℕ := 49999999

/-- The window counter reaches it. -/
theorem maxValueDefault_lt : maxValueDefault < 2 ^ 26 := by decide

/-- A window holds more rises than `mec_cycles` can count. -/
theorem le_maxValueDefault : 512 ≤ maxValueDefault := by decide

/-- The wire `max_count`. -/
def maxCount (maxValue : ℕ) (s : SpeedCalculation) : Bool := s.count.toNat == maxValue

/-- The wire `min_count`. -/
def minCount (s : SpeedCalculation) : Bool := s.count == 0#26

/-- A rising edge of `clk`.  `D` reads `mec_cycles` as it was before the edge; if the
new count raises `min_count`, `mec_cycles` is cleared. -/
def clkEdge (maxValue : ℕ) (rst : Bool) (s : SpeedCalculation) : SpeedCalculation :=
  let next : SpeedCalculation :=
    { s with
      count := if rst then 0#26 else if maxCount maxValue s then 0#26 else s.count + 1#26
      D := if rst then 0#8 else if maxCount maxValue s then s.mecCycles else s.D }
  { next with
    mecCycles := if minCount s = false ∧ minCount next = true then 0#8 else s.mecCycles }

/-- The sensor takes the level `hall`; on a rising edge `mec_cycles` is cleared while
`min_count` is high and counts otherwise. -/
def hallEdge (hall : Bool) (s : SpeedCalculation) : SpeedCalculation :=
  { s with
    mecCycles :=
      if s.hallSensor = false ∧ hall = true then
        if minCount s then 0#8 else s.mecCycles + 1#8
      else s.mecCycles
    hallSensor := hall }

/-- The inputs of one cycle: `rst` at the clock edge, and the level of the sensor
after it. -/
structure Input where
  rst : Bool
  hallSensor : Bool
  deriving DecidableEq, Repr

/-- One clock cycle. -/
def step (maxValue : ℕ) (i : Input) (s : SpeedCalculation) : SpeedCalculation :=
  hallEdge i.hallSensor (clkEdge maxValue i.rst s)

/-! ## Runs with `rst` low -/

section Run

variable (maxValue : ℕ) (s : SpeedCalculation) (hall : ℕ → Bool)

/-- The registers after `t` clocks with `rst` low. -/
def states (t : ℕ) : SpeedCalculation := run (step maxValue) s (fun k => ⟨false, hall k⟩) t

/-- The waveform of the sensor, cycle by cycle. -/
def wave : ℕ → Bool := preceded s.hallSensor hall

theorem hallSensor_run (t : ℕ) : (states maxValue s hall t).hallSensor = wave s hall t := by
  cases t <;> rfl

variable {maxValue s}

variable (maxValue s) in
theorem count_succ (t : ℕ) :
    (states maxValue s hall (t + 1)).count =
      if maxCount maxValue (states maxValue s hall t) then 0#26
      else (states maxValue s hall t).count + 1#26 := rfl

/-- The window counter. -/
theorem count_run (hM : maxValue < 2 ^ 26) (h0 : s.count = 0#26) (t : ℕ) :
    (states maxValue s hall t).count.toNat = t % (maxValue + 1) := by
  refine terminal_toNat hM (x := fun k => (states maxValue s hall k).count) h0 ?_ t
  intro k
  rw [count_succ]
  exact if_congr (by simp [maxCount]) rfl rfl

theorem maxCount_run (hM : maxValue < 2 ^ 26) (h0 : s.count = 0#26) (t : ℕ) :
    maxCount maxValue (states maxValue s hall t) = true ↔ t % (maxValue + 1) = maxValue := by
  rw [maxCount, beq_iff_eq, count_run hall hM h0]

theorem minCount_run (hM : maxValue < 2 ^ 26) (h0 : s.count = 0#26) (t : ℕ) :
    minCount (states maxValue s hall t) = true ↔ t % (maxValue + 1) = 0 := by
  rw [minCount, beq_iff_eq, ← count_run hall hM h0, ← BitVec.toNat_inj]
  simp

/-- The edge that ends a window clears the window counter. -/
theorem count_of_maxCount {t : ℕ} (hmax : maxCount maxValue (states maxValue s hall t) = true) :
    (states maxValue s hall (t + 1)).count = 0#26 := by
  rw [count_succ, if_pos hmax]

/-- `D` moves at the end of a window only. -/
theorem D_succ (t : ℕ) :
    (states maxValue s hall (t + 1)).D =
      if maxCount maxValue (states maxValue s hall t) then (states maxValue s hall t).mecCycles
      else (states maxValue s hall t).D := rfl

/-- The edge that raises `min_count` clears `mec_cycles`, whatever the sensor does. -/
theorem mecCycles_clear {t : ℕ} (hlow : minCount (states maxValue s hall t) = false)
    (hhigh : minCount (states maxValue s hall (t + 1)) = true) :
    (states maxValue s hall (t + 1)).mecCycles = 0#8 := by
  have hnext : minCount (clkEdge maxValue false (states maxValue s hall t)) = true := hhigh
  have hzero : (clkEdge maxValue false (states maxValue s hall t)).mecCycles = 0#8 :=
    if_pos ⟨hlow, hnext⟩
  show (hallEdge (hall t) (clkEdge maxValue false (states maxValue s hall t))).mecCycles = 0#8
  simp only [hallEdge, hnext, hzero, if_true, ite_self]

/-- With `min_count` low a rise of the sensor is counted. -/
theorem mecCycles_count {t : ℕ} (hlow : minCount (states maxValue s hall (t + 1)) = false) :
    (states maxValue s hall (t + 1)).mecCycles =
      if Rise (wave s hall) t then (states maxValue s hall t).mecCycles + 1#8
      else (states maxValue s hall t).mecCycles := by
  have hnext : minCount (clkEdge maxValue false (states maxValue s hall t)) = false := hlow
  have hkeep : (clkEdge maxValue false (states maxValue s hall t)).mecCycles =
      (states maxValue s hall t).mecCycles :=
    if_neg fun h => Bool.false_ne_true (hnext.symm.trans h.2)
  show (hallEdge (hall t) (clkEdge maxValue false (states maxValue s hall t))).mecCycles = _
  simp only [hallEdge, hnext, hkeep, Bool.false_eq_true, if_false]
  refine if_congr ?_ rfl rfl
  rw [Rise, ← hallSensor_run maxValue s hall t]
  rfl

/-- The reading stands during a window. -/
theorem D_hold (hM : maxValue < 2 ^ 26) (h0 : s.count = 0#26) (q : ℕ) {i : ℕ}
    (hi : i ≤ maxValue) :
    (states maxValue s hall (q * (maxValue + 1) + i)).D =
      (states maxValue s hall (q * (maxValue + 1))).D := by
  induction i with
  | zero => rfl
  | succ i ih =>
    have hmax : ¬ maxCount maxValue (states maxValue s hall (q * (maxValue + 1) + i)) = true := by
      rw [maxCount_run hall hM h0, Nat.mul_add_mod', Nat.mod_eq_of_lt (by omega)]
      omega
    rw [← Nat.add_assoc, D_succ, if_neg hmax, ih (by omega)]

/-! ## One window -/

section Window

variable (hM : maxValue < 2 ^ 26) (hpos : 1 ≤ maxValue) (h0 : s.count = 0#26)
  (hmec : s.mecCycles = 0#8)

include hM hpos h0 hmec

/-- **Inside a window** `mec_cycles` is the number of rises since the window began. -/
theorem mecCycles_run (q : ℕ) {r : ℕ} (hr : r ≤ maxValue) :
    (states maxValue s hall (q * (maxValue + 1) + r)).mecCycles =
      BitVec.ofNat 8 (risesIn (wave s hall) (q * (maxValue + 1)) r) := by
  induction r with
  | zero =>
    rw [Nat.add_zero, risesIn_zero]
    cases q with
    | zero => rw [Nat.zero_mul]; exact hmec
    | succ q =>
      -- the edge that ends the window before is the one that raises `min_count`
      have ht : (q + 1) * (maxValue + 1) = q * (maxValue + 1) + maxValue + 1 := by ring
      have hlow : minCount (states maxValue s hall (q * (maxValue + 1) + maxValue)) = false := by
        rw [← Bool.not_eq_true, minCount_run hall hM h0, Nat.mul_add_mod',
          Nat.mod_eq_of_lt (Nat.lt_succ_self _)]
        omega
      have hhigh : minCount (states maxValue s hall (q * (maxValue + 1) + maxValue + 1)) = true := by
        rw [minCount_run hall hM h0, ← ht, Nat.mul_mod_left]
      rw [ht]
      exact mecCycles_clear hall hlow hhigh
  | succ r ih =>
    have hlow : minCount (states maxValue s hall (q * (maxValue + 1) + r + 1)) = false := by
      rw [← Bool.not_eq_true, minCount_run hall hM h0, Nat.add_assoc, Nat.mul_add_mod',
        Nat.mod_eq_of_lt (Nat.lt_succ_of_le hr)]
      omega
    rw [← Nat.add_assoc, mecCycles_count hall hlow, ih (by omega), risesIn_succ]
    split <;> simp [BitVec.ofNat_add]

/-- **The reading of a window.** -/
theorem D_run (q : ℕ) :
    (states maxValue s hall ((q + 1) * (maxValue + 1))).D =
      BitVec.ofNat 8 (risesIn (wave s hall) (q * (maxValue + 1)) maxValue) := by
  have hmax : maxCount maxValue (states maxValue s hall (q * (maxValue + 1) + maxValue)) = true := by
    rw [maxCount_run hall hM h0, Nat.mul_add_mod', Nat.mod_eq_of_lt (Nat.lt_succ_self _)]
  rw [show (q + 1) * (maxValue + 1) = q * (maxValue + 1) + maxValue + 1 by ring, D_succ, hmax,
    if_pos rfl, mecCycles_run hall hM hpos h0 hmec q le_rfl]

end Window

end Run

end SpeedCalculation

end BldcFpga
