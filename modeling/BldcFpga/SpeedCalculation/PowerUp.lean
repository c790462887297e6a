import BldcFpga.SpeedCalculation.Channels

/-!
# The speed calculation from power-up

Without a reset the three window counters start anywhere, each with its own value, and what
`mec_cycles` and `D` hold at first belongs to no window.

* `SpeedCalculation.exists_start` — every window counter comes to zero, and `mec_cycles` with it;
* `Channel.rpm_settled` — from then on a table shows the last window of its own counter.
-/

namespace BldcFpga

open Clocked

namespace SpeedCalculation

variable {maxValue : ℕ}

/-- **A window begins** within one turn of the counter, and nothing has been counted. -/
theorem exists_start (hM : maxValue < 2 ^ 26) (hpos : 1 ≤ maxValue) (s : SpeedCalculation)
    (hall : ℕ → Bool) :
    ∃ T, 1 ≤ T ∧ T ≤ 2 ^ 26 ∧ (states maxValue s hall T).count = 0#26 ∧
      (states maxValue s hall T).mecCycles = 0#8 := by
  have hzero : ∃ t < 2 ^ 26, (states maxValue s hall (t + 1)).count = 0#26 := by
    by_contra hno
    push Not at hno
    -- a counter that never comes to zero would leave its range
    have hcount : ∀ t ≤ 2 ^ 26, (states maxValue s hall t).count.toNat = s.count.toNat + t := by
      intro t
      induction t with
      | zero => exact fun _ => rfl
      | succ t ih =>
        intro ht
        have hne := hno t (by omega)
        rw [count_succ] at hne ⊢
        split_ifs at hne ⊢ with hmax
        · exact absurd rfl hne
        · have hlt := (states maxValue s hall t).count.isLt
          have hwrap : (states maxValue s hall t).count.toNat + 1 ≠ 2 ^ 26 := fun hfull =>
            hne (BitVec.eq_of_toNat_eq (by simp [BitVec.toNat_add, hfull]))
          have hone : (1#26).toNat = 1 := rfl
          rw [BitVec.toNat_add, hone, Nat.mod_eq_of_lt (by omega), ih (by omega), Nat.add_assoc]
    have hlast := hcount (2 ^ 26) le_rfl
    have hlt := (states maxValue s hall (2 ^ 26)).count.isLt
    omega
  obtain ⟨t, ht, hcount⟩ := hzero
  refine ⟨t + 1, Nat.le_add_left 1 t, ht, hcount, mecCycles_clear hall ?_ (beq_iff_eq.2 hcount)⟩
  -- the counter was not zero before, for a window is longer than a clock
  rw [← Bool.not_eq_true, minCount, beq_iff_eq]
  intro hbefore
  rw [count_succ, maxCount, hbefore, if_neg (by simpa using by omega)] at hcount
  exact absurd hcount (by decide)

end SpeedCalculation

namespace Channel

variable {maxValue : ℕ} (hM : maxValue < 2 ^ 26) (hpos : 1 ≤ maxValue) (c : Channel)
  (hall : ℕ → Bool)

include hM hpos

/-- Windows follow each other from the first one on. -/
theorem exists_counts :
    ∃ T, 1 ≤ T ∧ T ≤ 2 ^ 26 ∧ ∀ q, Counts maxValue c hall (T + q * (maxValue + 1))
      (risesIn (SpeedCalculation.wave c.speed hall) (T + q * (maxValue + 1)) maxValue) := by
  obtain ⟨T, h1, hle, hcount, hmec⟩ := SpeedCalculation.exists_start hM hpos c.speed hall
  rw [← speed_run] at hcount hmec
  refine ⟨T, h1, hle, fun q => ?_⟩
  have hwindow : Counts maxValue (states maxValue c hall T) (fun k => hall (T + k))
      (q * (maxValue + 1)) _ := counts_window hM hpos hcount hmec q
  exact ⟨by rw [states_add]; exact hwindow.count_eq, by rw [states_add]; exact hwindow.mecCycles_eq,
    rfl⟩

/-- **The last window.**  From one turn of the counter and one window on, what the table shows
is the row of the rises in a window that has ended at most a window ago. -/
theorem rpm_settled {t : ℕ} (ht : 2 ^ 26 + maxValue + 1 ≤ t) :
    ∃ W y, 1 ≤ W ∧ W + maxValue + 1 ≤ t ∧ t ≤ W + 2 * maxValue + 1 ∧
      (states maxValue c hall t).rpm = rpmLut
        (BitVec.ofNat 8 (risesIn (SpeedCalculation.wave c.speed hall) W maxValue)) y := by
  obtain ⟨T, h1, hle, hcounts⟩ := exists_counts hM hpos c hall
  obtain ⟨q, hq⟩ : ∃ q, (t - T) / (maxValue + 1) = q + 1 :=
    ⟨(t - T) / (maxValue + 1) - 1, by
      have := Nat.div_pos (show maxValue + 1 ≤ t - T by omega) (Nat.succ_pos maxValue)
      omega⟩
  have hsplit := Nat.div_add_mod' (t - T) (maxValue + 1)
  have hmod : (t - T) % (maxValue + 1) < maxValue + 1 := Nat.mod_lt _ (Nat.succ_pos maxValue)
  rw [hq, Nat.succ_mul] at hsplit
  have htime : t = T + q * (maxValue + 1) + maxValue + 1 + (t - T) % (maxValue + 1) := by omega
  have hshown := ((hcounts q).loads hM hpos).rpm_hold hM (Nat.lt_succ_iff.1 hmod)
  rw [← htime] at hshown
  exact ⟨_, _, by omega, by omega, by omega, hshown⟩

end Channel

end BldcFpga
