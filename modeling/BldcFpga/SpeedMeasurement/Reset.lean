import BldcFpga.SpeedMeasurement.TopSpeedMac

/-!
# The reset of the speed measurement

Most of `top_speed_mac` is to be cleared by an edge of `clock_2` that finds `reset` high.  But
`reset` holds the divider behind `clock_2` at zero as well.

* `TopSpeedMac.step_reset` — a cycle with `reset` high has no edge of `clock_2`, and clears
  at most the second counter, when the hall code leaves the one in `Tstep_Q`;
* `TopSpeedMac.toggle_step` — `toggle` could rise at such an edge only, so it never does;
* `topSpeedMac_reset_iff` — when a reset leaves the module cleared.
-/

namespace BldcFpga

open Clocked

namespace TopSpeedMac

/-- The output of `speed_measurement` rises when the input leaves the code in the register. -/
theorem posedge_macOut_iff (q : Option (BitVec 3)) (h h' : Hall) :
    posedge (SpeedMeasurement.macOut q h.code) (SpeedMeasurement.macOut q h'.code) = true ↔
      (Sector.ofHall h).isSome = true ∧ q = some h.code ∧ h' ≠ h := by
  by_cases hq : SpeedMeasurement.IsState q
  · obtain ⟨m, rfl⟩ := SpeedMeasurement.exists_hall hq
    revert m h h'
    decide
  · have hx : ∀ k : Hall, SpeedMeasurement.macOut q k.code = none := fun k =>
      (SpeedMeasurement.macOut_eq_none_iff q k).2 hq
    rw [hx, hx]
    constructor
    · intro hr
      exact Bool.noConfusion hr
    · rintro ⟨hh, rfl, -⟩
      exact absurd ((SpeedMeasurement.isState_code h).2 hh) hq

theorem settle_toggle (b : Option Bool) (s : TopSpeedMac) : (settle b s).toggle = s.toggle := by
  unfold settle
  split_ifs <;> rfl

/-- **A cycle with `reset` high.** -/
theorem step_reset (h : Hall) (s : TopSpeedMac) :
    step ⟨true, h⟩ s =
      { s with
        clockCnt := 0#13
        commutationTot :=
          if (Sector.ofHall s.hallEffect).isSome = true ∧ s.tstepQ = some s.hallEffect.code ∧
              h ≠ s.hallEffect then 0#11
          else s.commutationTot
        hallEffect := h
        reset := true } := by
  have hclk : clkEdge (setReset true s) = { s with clockCnt := 0#13, reset := true } := by
    have hlow : ¬ (ClkDiv.clockDiv (0#13) = false ∧ ClkDiv.clockDiv (0#13) = true) := by decide
    simp [clkEdge, setReset, ClkDiv.settle, ClkDiv.step, hlow]
  rw [step, hclk, setHall, settle]
  simp only [clock1, posedge_macOut_iff, counter]
  split_ifs <;> rfl

/-- **`toggle` never rises**, in no cycle and whatever `reset` does. -/
theorem toggle_step {s : TopSpeedMac} (hs : s.toggle = false) (i : Input) :
    (step i s).toggle = false := by
  obtain ⟨reset, h⟩ := i
  cases reset with
  | true =>
    rw [step_reset]
    exact hs
  | false =>
    have hset : (setReset false s).toggle = false ∧ (setReset false s).reset = false := by
      simp [setReset, hs]
    rw [step, setHall, settle_toggle]
    show (clkEdge (setReset false s)).toggle = false
    simp only [clkEdge]
    split_ifs
    · rw [settle_toggle]
      simp [tick, hset.2]
    · exact hset.1

/-- The registers that `reset` is to clear are clear. -/
structure Cleared (s : TopSpeedMac) : Prop where
  count : s.count = 0#11
  tstepQ : s.tstepQ = some SpeedMeasurement.A
  commutationTot : s.commutationTot = 0#11
  regCommutation : s.regCommutation = 0#11

section Pulse

variable (s : TopSpeedMac) (hall : ℕ → Hall)

/-- After `n` cycles with `reset` high. -/
def pulse (n : ℕ) : TopSpeedMac := run step s (fun k => ⟨true, hall k⟩) n

theorem hallEffect_pulse (n : ℕ) : (pulse s hall n).hallEffect = line s hall n := by
  cases n with
  | zero => rfl
  | succ n =>
    rw [pulse, run_succ, step_reset]
    rfl

/-- Three of the four registers keep what they hold. -/
theorem kept_pulse (n : ℕ) :
    (pulse s hall n).count = s.count ∧ (pulse s hall n).tstepQ = s.tstepQ ∧
      (pulse s hall n).regCommutation = s.regCommutation := by
  induction n with
  | zero => exact ⟨rfl, rfl, rfl⟩
  | succ n ih =>
    rw [pulse, run_succ, step_reset]
    exact ih

/-- The hall code leaves the one in `Tstep_Q` in cycle `k`. -/
def LeavesAt (k : ℕ) : Prop :=
  (Sector.ofHall (line s hall k)).isSome = true ∧ s.tstepQ = some (line s hall k).code ∧
    line s hall (k + 1) ≠ line s hall k

instance : DecidablePred (LeavesAt s hall) := fun _ => inferInstanceAs (Decidable (_ ∧ _ ∧ _))

/-- The fourth is cleared when that happens. -/
theorem commutationTot_pulse (n : ℕ) :
    (pulse s hall n).commutationTot = 0#11 ↔
      s.commutationTot = 0#11 ∨ ∃ k < n, LeavesAt s hall k := by
  induction n with
  | zero => simp [pulse]
  | succ n ih =>
    have hq := (kept_pulse s hall n).2.1
    have hline := hallEffect_pulse s hall n
    have hnext : (pulse s hall (n + 1)).commutationTot =
        if LeavesAt s hall n then 0#11 else (pulse s hall n).commutationTot := by
      rw [pulse, run_succ, step_reset, ← pulse, hq, hline]
      rfl
    rw [hnext]
    by_cases hleaves : LeavesAt s hall n
    · rw [if_pos hleaves]
      exact iff_of_true rfl (Or.inr ⟨n, Nat.lt_succ_self n, hleaves⟩)
    · rw [if_neg hleaves, ih]
      refine or_congr_right ⟨fun ⟨k, hk, h⟩ => ⟨k, by omega, h⟩, fun ⟨k, hk, h⟩ => ?_⟩
      rcases Nat.lt_succ_iff_lt_or_eq.1 hk with hlt | rfl
      · exact ⟨k, hlt, h⟩
      · exact absurd h hleaves

end Pulse

end TopSpeedMac

open TopSpeedMac in
/-- **When a reset clears the speed measurement.**  For every contents, every length of a
reset pulse and whatever the sensors do meanwhile: `speed` does not change, and the pulse
leaves the four registers that `reset` is to clear in their cleared state if and only if
three of them were already in it, and the fourth was, or the hall code moved away from that
of state `A`.  And in no run, with any resets, does `toggle` rise once it is low. -/
theorem topSpeedMac_reset_iff (s : TopSpeedMac) (hall : ℕ → Hall) (n : ℕ) :
    (pulse s hall n).speed = s.speed ∧
    (Cleared (pulse s hall n) ↔
      s.count = 0#11 ∧ s.tstepQ = some SpeedMeasurement.A ∧ s.regCommutation = 0#11 ∧
        (s.commutationTot = 0#11 ∨
          ∃ k < n, line s hall k = Sector.A.hall ∧ line s hall (k + 1) ≠ Sector.A.hall)) ∧
    ∀ inp t u, t ≤ u → (run step s inp t).toggle = false →
      (run step s inp u).toggle = false := by
  obtain ⟨hcount, hq, hreg⟩ := kept_pulse s hall n
  refine ⟨?_, ?_, fun inp t u htu ht => ?_⟩
  · rw [speed, speed, hreg]
  · have hleaves : s.tstepQ = some SpeedMeasurement.A → ∀ k, LeavesAt s hall k ↔
        line s hall k = Sector.A.hall ∧ line s hall (k + 1) ≠ Sector.A.hall := by
      intro hA k
      rw [LeavesAt, hA]
      generalize line s hall k = h
      generalize line s hall (k + 1) = h'
      revert h h'
      decide
    constructor
    · rintro ⟨h1, h2, h3, h4⟩
      rw [hq] at h2
      refine ⟨hcount ▸ h1, h2, hreg ▸ h4, ((commutationTot_pulse s hall n).1 h3).imp_right ?_⟩
      rintro ⟨k, hk, h⟩
      exact ⟨k, hk, (hleaves h2 k).1 h⟩
    · rintro ⟨h1, h2, h3, h4⟩
      refine ⟨hcount.trans h1, hq.trans h2, (commutationTot_pulse s hall n).2 (h4.imp_right ?_),
        hreg.trans h3⟩
      rintro ⟨k, hk, h⟩
      exact ⟨k, hk, (hleaves h2 k).2 h⟩
  · induction u, htu using Nat.le_induction with
    | base => exact ht
    | succ u _ ih => exact toggle_step ih (inp u)

end BldcFpga
