import BldcFpga.SpeedCalculation.LastMeasurement

/-!
# The readings behind one displayed speed

In `speed_calculation_wrapper.v` the readings of the sensors A and B pass through two
registers on their way to `rpm`, and the reading of sensor C through one.  This file
says what that means for the speed shown while the readings change.

* `Averager.Readings.Spans` — a speed between the smallest and the largest of three
  readings;
* `Averager.rpm_spans` — the speed shown lies between two readings of one clock and the
  third of the next, hence between the readings of one clock whenever the third has not
  changed in between;
* `SpeedCalculationWrapper.rpm_turnover` — the one clock after the end of a window in
  which the board mixes the old readings of A and B with the new one of C.
-/

namespace BldcFpga

open Clocked

namespace Averager

/-- A speed lies between the smallest and the largest of three readings. -/
def Readings.Spans (r : Readings) (v : BitVec 10) : Prop :=
  min r.rpmA.toNat (min r.rpmB.toNat r.rpmC.toNat) ≤ v.toNat ∧
    v.toNat ≤ max r.rpmA.toNat (max r.rpmB.toNat r.rpmC.toNat)

instance (r : Readings) (v : BitVec 10) : Decidable (r.Spans v) :=
  inferInstanceAs (Decidable (_ ∧ _))

/-- Neither floor leaves the range of what is averaged. -/
theorem spans_average (r : Readings) : r.Spans (average r.rpmA r.rpmB r.rpmC) := by
  rw [Readings.Spans, average_toNat]
  constructor <;> omega

/-- **Which readings are combined.**  For every sequence of readings, whatever the
dividers held at the start and from the third clock on: with `reset` low the speed shown
lies between the smallest and the largest of the readings of A and B at one clock and
the reading of C at the next one.  When C shows the same at both, these are the readings
of a single clock. -/
theorem rpm_spans (s : Averager) (r : ℕ → Readings) (t : ℕ) :
    Readings.Spans ⟨(r t).rpmA, (r t).rpmB, (r (t + 1)).rpmC⟩
        (rpm (run (step false) s r (t + 2))) ∧
      ((r (t + 1)).rpmC = (r t).rpmC → (r t).Spans (rpm (run (step false) s r (t + 2)))) := by
  have hmix : Readings.Spans ⟨(r t).rpmA, (r t).rpmB, (r (t + 1)).rpmC⟩
      (rpm (run (step false) s r (t + 2))) := by
    rw [rpm_run]
    exact spans_average ⟨(r t).rpmA, (r t).rpmB, (r (t + 1)).rpmC⟩
  refine ⟨hmix, fun hC => ?_⟩
  rwa [hC] at hmix

/-- All three tables go from 0 to 800 between the first clock and the second: at the third
clock the display shows 400, which lies between the readings of no clock at all. -/
theorem rpm_mixed :
    let r : ℕ → Readings := fun t => if t = 0 then ⟨0#10, 0#10, 0#10⟩ else ⟨800#10, 800#10, 800#10⟩
    rpm (run (step false) ⟨0#11, 0#11⟩ r 2) = 400#10 ∧
      ¬ ∃ j, (r j).Spans (rpm (run (step false) ⟨0#11, 0#11⟩ r 2)) := by
  intro r
  have hrpm : rpm (run (step false) ⟨0#11, 0#11⟩ r 2) = 400#10 := by decide
  refine ⟨hrpm, ?_⟩
  rintro ⟨j, hj⟩
  rw [hrpm] at hj
  by_cases h0 : j = 0
  · simp only [r, if_pos h0] at hj
    exact absurd hj (by decide)
  · simp only [r, if_neg h0] at hj
    exact absurd hj (by decide)

end Averager

namespace SpeedCalculationWrapper

/-- **The clock of the turnover.**  One clock after the counts of a window were loaded,
the display still shows the old readings of A and B, averaged with the new one of C. -/
theorem rpm_turnover {maxValue : ℕ} {s : SpeedCalculationWrapper} {h : Sensors} {T : ℕ}
    {a b c : BitVec 8} (hl : Loads maxValue s h T a b c) :
    rpm (states maxValue s h (T + 2)) =
      Averager.average (Channel.states maxValue s.HA h.a T).rpm
        (Channel.states maxValue s.HB h.b T).rpm
        (rpmLut c (Channel.states maxValue s.HC h.c T).rpm) := by
  rw [rpm_run, hl.HC.rpm_eq]

end SpeedCalculationWrapper

end BldcFpga
