import BldcFpga.SpeedComputation.Windows

/-!
# What a published speed is worth

Between two loads of `RPS_out` lie 50 000 001 edges of `clk_sys`, and every seventeenth edge
of `Hall_sensor` is counted.

* `SpeedComputation.held_window` — what is published at the end of a window is what was
  enabled in it, but for what fell into the clear;
* `SpeedComputation.clkEdges_window` — a window has 50 000 001 clocks;
* `speedComputation_accuracy` — `RPM_out` in terms of the edges of the window, up to sixteen
  of them.
-/

namespace BldcFpga

open Clocked

namespace SpeedComputation

variable {s : SpeedComputation} {inp : ℕ → Edge} {t₀ t₁ : ℕ}

theorem mark_publish_iff (t : ℕ) : mark s inp t = .publish ↔ LoadAt s inp t := by
  rcases mark_cases s inp t with ⟨h, -, hm⟩ | ⟨-, h, hm⟩ | ⟨-, h, -, hm⟩ | ⟨h, -, hm⟩ <;>
    simp [hm, h]

/-- **A window** hands over the enabled edges it holds, but for those lost in the clear. -/
theorem held_window (hc : s.cycles.counterUp = 0#5) (hload : LoadAt s inp t₀) (hlt : t₀ < t₁)
    (hno : ∀ k, t₀ < k → k < t₁ → ¬ LoadAt s inp k) :
    held s inp t₁ + lostEdges s inp t₁ + hallEdges inp (t₀ + 1) / 17 =
      hallEdges inp t₁ / 17 + lostEdges s inp (t₀ + 1) := by
  have hheld := tally_since s.cycles.mecCycleCount.toNat (mark s inp)
    ((mark_publish_iff t₀).2 hload) hlt fun k hk hkt => mt (mark_publish_iff k).1 (hno k hk hkt)
  rw [← held] at hheld
  have hlost : ∀ t, number (mark s inp) .count t + lostEdges s inp t = hallEdges inp t / 17 :=
    fun t => by rw [number_mark, enabledEdges_eq hc]
  have hbefore := hlost (t₀ + 1)
  have hafter := hlost t₁
  omega

theorem clkEdges_mono {a b : ℕ} (hab : a ≤ b) : clkEdges inp a ≤ clkEdges inp b :=
  Nat.count_monotone _ hab

theorem loadAt_iff (h0 : s.sysCounterUp = 0#26) (t : ℕ) :
    LoadAt s inp t ↔ inp t = .clkSys ∧ clkEdges inp t % 50000001 = 49999999 := by
  rw [LoadAt, ← sysCounterUp_states h0, ← BitVec.toNat_inj]
  rfl

/-- **A window has 50 000 001 clocks.** -/
theorem clkEdges_window (h0 : s.sysCounterUp = 0#26) (hload : LoadAt s inp t₀)
    (hload' : LoadAt s inp t₁) (hlt : t₀ < t₁)
    (hno : ∀ k, t₀ < k → k < t₁ → ¬ LoadAt s inp k) :
    clkEdges inp t₁ = clkEdges inp t₀ + 50000001 := by
  have h := (loadAt_iff h0 t₀).1 hload
  have h' := (loadAt_iff h0 t₁).1 hload'
  have hnext : clkEdges inp (t₀ + 1) = clkEdges inp t₀ + 1 := by
    rw [clkEdges, Nat.count_succ, if_pos h.1, clkEdges]
  have hge : clkEdges inp t₀ + 1 ≤ clkEdges inp t₁ := hnext ▸ clkEdges_mono hlt
  by_contra hne
  -- otherwise the clock that ends the window comes before `t₁`
  obtain ⟨k, hk, hclk, hcount⟩ := exists_count_eq
    (show clkEdges inp t₀ + 50000001 < clkEdges inp t₁ by omega)
  refine hno k ?_ hk ((loadAt_iff h0 k).2 ⟨hclk, ?_⟩)
  · by_contra hle
    have hmono : clkEdges inp k ≤ clkEdges inp t₀ := clkEdges_mono (by omega)
    rw [clkEdges, hcount] at hmono
    omega
  · rw [clkEdges, hcount]
    omega

/-- `RPS_out` stands until the next load. -/
theorem rpsOut_hold {t : ℕ} (hlt : t₀ < t) (hno : ∀ k, t₀ < k → k < t → ¬ LoadAt s inp k) :
    (states s inp t).rpsOut = (states s inp (t₀ + 1)).rpsOut := by
  induction t, hlt using Nat.le_induction with
  | base => rfl
  | succ t hlt ih =>
    rw [← ih fun k hk hkt => hno k hk (by omega)]
    cases he : inp t with
    | clkSys =>
      rw [states_clkSys he]
      exact if_neg fun hc => hno t hlt (Nat.lt_succ_self t) ⟨he, hc⟩
    | hallSensor => rw [states_hallSensor he]

end SpeedComputation

open SpeedComputation in
/-- **The accuracy of `RPM_out`.**  From cleared `sys_counter_up` and `counter_up` on, for
every order of the edges and two successive loads with at most 127 enabled edges between
them: 50 000 001 clocks lie between the two, and from the second load until the next one the
speed shown, times 17, is 60 times the edges of `Hall_sensor` between the loads, up to 16
edges and to the enabled edges that fell into the clear. -/
theorem speedComputation_accuracy (s : SpeedComputation) (h0 : s.sysCounterUp = 0#26)
    (hc : s.cycles.counterUp = 0#5) (inp : ℕ → Edge) (t₀ t₁ t : ℕ) (hload : LoadAt s inp t₀)
    (hload' : LoadAt s inp t₁) (h01 : t₀ < t₁) (hno : ∀ k, t₀ < k → k < t₁ → ¬ LoadAt s inp k)
    (hle : windowEdges s inp t₁ ≤ 127) (h1t : t₁ < t)
    (hno' : ∀ k, t₁ < k → k < t → ¬ LoadAt s inp k) :
    let edges := hallEdges inp t₁ - hallEdges inp (t₀ + 1)
    let lost := lostEdges s inp t₁ - lostEdges s inp (t₀ + 1)
    let rpm := (rpmOut (states s inp t)).toNat
    clkEdges inp t₁ = clkEdges inp t₀ + 50000001 ∧
      17 * (rpm + 60 * lost) ≤ 60 * (edges + 16) ∧ 60 * edges ≤ 17 * (rpm + 60 * lost) + 960 := by
  intro edges lost rpm
  have hrpm : rpm = held s inp t₁ * 60 := by
    rw [← rpsOut_load h0 hle hload', ← rpsOut_hold h1t hno', ← rpmOut_toNat]
  have hwindow := held_window hc hload h01 hno
  have hlost : lostEdges s inp (t₀ + 1) ≤ lostEdges s inp t₁ := Nat.count_monotone _ h01
  have hhall : hallEdges inp (t₀ + 1) ≤ hallEdges inp t₁ := Nat.count_monotone _ h01
  exact ⟨clkEdges_window h0 hload hload' h01 hno, by omega, by omega⟩

namespace SpeedComputation

/-- Every hundred-thousandth edge is one of `Hall_sensor`. -/
def steady (t : ℕ) : Edge := if t % 100000 = 0 then .hallSensor else .clkSys

theorem hallEdges_steady (t : ℕ) : hallEdges steady t = (t + 99999) / 100000 := by
  induction t with
  | zero => simp [hallEdges]
  | succ t ih =>
    rw [hallEdges_succ, ih, steady]
    by_cases ht : t % 100000 = 0
    · rw [if_pos ht, if_pos rfl]
      omega
    · rw [if_neg ht, if_neg (by decide)]
      omega

theorem clkEdges_steady (t : ℕ) : clkEdges steady t = t - (t + 99999) / 100000 := by
  have hsum : clkEdges steady t + hallEdges steady t = t := clkEdges_add_hallEdges t
  rw [hallEdges_steady] at hsum
  omega

theorem loadAt_steady (t : ℕ) : LoadAt cleared steady t ↔
    t % 100000 ≠ 0 ∧ (t - (t + 99999) / 100000) % 50000001 = 49999999 := by
  rw [loadAt_iff rfl, clkEdges_steady, steady]
  by_cases ht : t % 100000 = 0
  · simp [ht]
  · simp [ht]

/-- In the first two windows none of them falls into a clear. -/
theorem lostEdges_steady {t : ℕ} (ht : t ≤ 100001001) : lostEdges cleared steady t = 0 := by
  refine Nat.count_of_forall_not fun k hk hlost => ?_
  obtain ⟨⟨he, -⟩, hclear⟩ := hlost
  rw [rstToZero_iff, sysCounterUp_states rfl, clkEdges_steady] at hclear
  have hhall : k % 100000 = 0 := by
    by_contra hno
    rw [steady, if_neg hno] at he
    exact Edge.noConfusion he
  have hearly : k < 100001001 := hk.trans_le ht
  omega

end SpeedComputation

open SpeedComputation in
/-- Five hundred edges of `Hall_sensor` in the second window, which are 1765 revolutions per
minute: 1709 to 1821 are shown for it. -/
theorem speedComputation_accuracy_steady :
    1709 ≤ (rpmOut (states cleared steady (100001001 + 1))).toNat ∧
      (rpmOut (states cleared steady (100001001 + 1))).toNat ≤ 1821 := by
  have hshown : ∀ t₀ t₁, t₀ = 50000500 → t₁ = 100001001 →
      1709 ≤ (rpmOut (states cleared steady (t₁ + 1))).toNat ∧
        (rpmOut (states cleared steady (t₁ + 1))).toNat ≤ 1821 := by
    intro t₀ t₁ h0 h1
    obtain ⟨-, hle, hge⟩ := speedComputation_accuracy cleared rfl rfl steady t₀ t₁ (t₁ + 1)
      ((loadAt_steady t₀).2 (by omega)) ((loadAt_steady t₁).2 (by omega)) (by omega)
      (fun k hk hk' hload => by have := (loadAt_steady k).1 hload; omega)
      ((windowEdges_le t₁).trans (by
        rw [enabledEdges_eq rfl, hallEdges_steady]
        show 0 + _ ≤ 127
        omega))
      (Nat.lt_succ_self t₁) (by omega)
    rw [hallEdges_steady, hallEdges_steady, lostEdges_steady (by omega),
      lostEdges_steady (by omega)] at hle hge
    constructor <;> omega
  exact hshown 50000500 100001001 rfl rfl

end BldcFpga
