import BldcFpga.Clocked.Edges
import BldcFpga.PatternGenerator.PatternPwm

/-!
# The PWM signal within a period and in reset

Two questions about the output register of `pwm_generator.v`, which compares the duty
with the counter at every clock: it has no reset of its own, and nothing holds the duty
still during a period.

* `PwmGenerator.pulses_le` — in one period of the counter the signal is switched on at
  most once more than the duty is raised meanwhile;
* `PatternPwm.high_of_rst` — with `rst` high the counter stands at zero, and a duty of
  more than that turns the leg of sector `A` on;
* `patternPwm_reset_iff` — reset turns all legs off only with a duty of zero.
-/

namespace BldcFpga

open Clocked

/-! ## One period -/

namespace PwmGenerator

variable {n : ℕ}

/-- The inputs of `pwm_generator` at a clock edge. -/
structure Input (n : ℕ) where
  rst : Bool
  potensioValue : BitVec n
  deriving DecidableEq, Repr

/-- The registers after `t` clock edges. -/
def states (s : PwmGenerator n) (inp : ℕ → Input n) (t : ℕ) : PwmGenerator n :=
  run (fun i => step i.rst i.potensioValue) s inp t

/-- A full counter period with `rst` low: from edge `T` on the counter shows
`0, 1, …, 2 ^ n - 1`. -/
structure FullPeriod (s : PwmGenerator n) (inp : ℕ → Input n) (T : ℕ) : Prop where
  countOut_eq : (states s inp T).countOut = 0#n
  rst_eq : ∀ k < 2 ^ n, (inp (T + k)).rst = false

variable {s : PwmGenerator n} {inp : ℕ → Input n} {T : ℕ}

/-- The counter during the period. -/
theorem FullPeriod.countOut_run (h : FullPeriod s inp T) {k : ℕ} (hk : k < 2 ^ n) :
    (states s inp (T + k)).countOut = BitVec.ofNat n k := by
  induction k with
  | zero => exact h.countOut_eq
  | succ k ih =>
    have hrst := h.rst_eq k (by omega)
    rw [← Nat.add_assoc, states, run_succ, ← states]
    simp [step, counter10bits, settle, hrst, ih (by omega), BitVec.ofNat_add]

/-- The signal of the period: after the edge at which the counter shows `k`, it says
whether the duty is larger. -/
def period (s : PwmGenerator n) (inp : ℕ → Input n) (T k : ℕ) : Bool :=
  (states s inp (T + k + 1)).pwmOut

theorem FullPeriod.period_iff (h : FullPeriod s inp T) {k : ℕ} (hk : k < 2 ^ n) :
    period s inp T k = true ↔ k < (inp (T + k)).potensioValue.toNat := by
  rw [period, states, run_succ, ← states]
  simp [step, settle, h.rst_eq k hk, h.countOut_run hk, BitVec.lt_def, Nat.mod_eq_of_lt hk]

/-- In the middle of a period only a larger duty switches on. -/
theorem FullPeriod.raised_of_rise (h : FullPeriod s inp T) {k : ℕ} (hk : k + 1 < 2 ^ n)
    (hrise : Rise (period s inp T) k) :
    (inp (T + k)).potensioValue.toNat < (inp (T + (k + 1))).potensioValue.toNat := by
  have hoff : ¬ k < (inp (T + k)).potensioValue.toNat := by
    rw [← h.period_iff (by omega), hrise.1]
    exact Bool.false_ne_true
  have hon := (h.period_iff hk).1 hrise.2
  omega

/-- **Switching within a period.**  For every width, every full period of the counter with
`rst` low and every sequence of duties: the output is switched on at most once more than
the number of clocks of the period at which the duty is raised.  While it is not raised,
the cycles in which the output is on form one stretch. -/
theorem pulses_le (h : FullPeriod s inp T) :
    pulses (period s inp T) (2 ^ n) ≤
        1 + Nat.count (fun k => (inp (T + k)).potensioValue.toNat <
          (inp (T + (k + 1))).potensioValue.toNat) (2 ^ n - 1) ∧
      ((∀ k, k + 1 < 2 ^ n → (inp (T + (k + 1))).potensioValue.toNat ≤
          (inp (T + k)).potensioValue.toNat) →
        Contiguous (period s inp T) (2 ^ n)) := by
  have hbound : pulses (period s inp T) (2 ^ n) ≤
      1 + Nat.count (fun k => (inp (T + k)).potensioValue.toNat <
        (inp (T + (k + 1))).potensioValue.toNat) (2 ^ n - 1) := by
    obtain ⟨L, hL⟩ : ∃ L, 2 ^ n = L + 1 := ⟨2 ^ n - 1, by have := Nat.two_pow_pos n; omega⟩
    have hmono : rises (period s inp T) L ≤ Nat.count (fun k =>
        (inp (T + k)).potensioValue.toNat < (inp (T + (k + 1))).potensioValue.toNat) L :=
      Nat.count_mono_left fun k hk hrise => h.raised_of_rise (by omega) hrise
    rw [hL, pulses_succ, Nat.add_sub_cancel]
    split_ifs <;> omega
  refine ⟨hbound, fun hfall => contiguous_of_pulses_le_one (hbound.trans ?_)⟩
  have hnone : Nat.count (fun k => (inp (T + k)).potensioValue.toNat <
      (inp (T + (k + 1))).potensioValue.toNat) (2 ^ n - 1) = 0 := by
    rw [Nat.count_eq_card_filter_range, Finset.card_eq_zero, Finset.filter_eq_empty_iff]
    intro k hk
    rw [Finset.mem_range] at hk
    exact Nat.not_lt.2 (hfall k (by omega))
  rw [hnone]

/-- A duty that falls from 200 to 100 out of 256 in the middle of the pulse. -/
theorem pulses_le_falling :
    Contiguous (period ⟨false, 0#8⟩ (fun t => ⟨false, if t < 50 then 200#8 else 100#8⟩) 0)
      (2 ^ 8) := by
  refine (pulses_le ⟨rfl, fun _ _ => rfl⟩).2 fun k _ => ?_
  by_cases h : k + 1 < 50
  · simp [h, show k < 50 by omega]
  · simp only [Nat.zero_add, if_neg h]
    split_ifs <;> decide

/-- A duty that is raised from 1 to 200 out of 256 at the third clock of a period: the
output is on, off, and on again. -/
theorem pulses_raised :
    let inp : ℕ → Input 8 := fun t => ⟨false, if t < 2 then 1#8 else 200#8⟩
    FullPeriod ⟨false, 0#8⟩ inp 0 ∧ ¬ Contiguous (period ⟨false, 0#8⟩ inp 0) (2 ^ 8) := by
  intro inp
  refine ⟨⟨rfl, fun _ _ => rfl⟩, fun h => ?_⟩
  have hon : period ⟨false, 0#8⟩ inp 0 1 = true :=
    h 0 1 2 (by decide) (by decide) (by decide) (by decide) (by decide)
  exact absurd hon (by decide)

end PwmGenerator

/-! ## Reset -/

namespace PatternPwm

variable {dwidth : ℕ}

/-- After an edge taken with `rst` high the generators compare the duty with zero. -/
theorem pwmOut_of_rst {i : Input dwidth} (hr : i.rst = true) (s : PatternPwm dwidth) :
    (step i s).U1.pwmOut = decide (i.potensioValue ≠ BitVec.ofNat dwidth 0) ∧ (step i s).Locked := by
  have hpos : i.potensioValue > BitVec.ofNat dwidth 0 ↔
      i.potensioValue ≠ BitVec.ofNat dwidth 0 := by
    rw [gt_iff_lt, BitVec.lt_def, BitVec.toNat_ofNat, Nat.zero_mod, Nat.pos_iff_ne_zero, ne_eq,
      ne_eq, ← BitVec.toNat_inj]
    simp
  refine ⟨?_, ?_⟩
  · simp only [step, PwmGenerator.step, PwmGenerator.settle, hr, if_true]
    exact decide_eq_decide.2 hpos
  · simp [Locked, step, PwmGenerator.step, PwmGenerator.settle, PwmGenerator.counter10bits, hr]

/-- **The cycle after a reset edge.**  The commutator is in sector `A`, and the leg that is
high there is on unless the duty was zero. -/
theorem high_of_rst {i : Input dwidth} (hr : i.rst = true) (s : PatternPwm dwidth)
    (forward : Bool) :
    (∀ x, (out forward (step i s)).high x = false) ↔
      i.potensioValue = BitVec.ofNat dwidth 0 := by
  have hq : (step i s).U0.stateQ = Commutation.code .A := by
    simp [step, FwRvCommutation.step, hr, Commutation.code]
  obtain ⟨hpwm, hlocked⟩ := pwmOut_of_rst hr s
  obtain ⟨x, hx⟩ := on_of_locked hq hlocked forward
  constructor
  · intro hoff
    by_contra hne
    have hon := hx x
    rw [hoff x, hpwm, decide_eq_true rfl, decide_eq_true hne] at hon
    exact Bool.false_ne_true hon
  · intro hzero y
    rw [hx y, hpwm, hzero]
    simp

end PatternPwm

/-- **When reset is safe.**  For every width, every contents of the registers and every
sequence of inputs: no high output is on in any cycle that follows an edge taken with
`rst` high, if and only if the duty is zero at every such edge. -/
theorem patternPwm_reset_iff {dwidth : ℕ} (s : PatternPwm dwidth)
    (inp : ℕ → PatternPwm.Input dwidth) :
    (∀ t, (inp t).rst = true → ∀ x, (PatternPwm.out (inp (t + 1)).forward
        (run PatternPwm.step s inp (t + 1))).high x = false) ↔
      ∀ t, (inp t).rst = true → (inp t).potensioValue = BitVec.ofNat dwidth 0 :=
  forall₂_congr fun _ hr => PatternPwm.high_of_rst hr _ _

/-- The board's width, a duty of 1 out of 256, and `rst` held high for good: leg A is on in
every cycle. -/
theorem patternPwm_reset_on :
    let inp : ℕ → PatternPwm.Input 8 := fun _ => ⟨true, 1#8, Sector.A.hall, false⟩
    (∀ t, (inp t).rst = true) ∧
      ∀ t, (PatternPwm.out (inp (t + 1)).forward (run PatternPwm.step
        ⟨⟨0#3, 0#3⟩, ⟨false, 0#8⟩, ⟨false, 0#8⟩, ⟨false, 0#8⟩⟩ inp (t + 1))).high .a = true :=
  ⟨fun _ => rfl, fun _ => rfl⟩

end BldcFpga
