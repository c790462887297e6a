import BldcFpga.Clocked.Counters
import BldcFpga.Pid.Pid

/-!
# The PID controller with a held error

`PID.v` has no limit on its sum.  An error that stays adds the same amount to `u_out` in every
cycle, and the register wraps.

* `Pid.stride` — the amount;
* `Pid.outputs_held` — from the second cycle of the held error on the output grows by it;
* `pid_windup` — so unless it is zero, the output is negative in exactly half of the cycles,
  whatever the sign of the error.
-/

namespace BldcFpga

open Clocked

namespace Pid

variable {n : ℕ}

/-- What a held error adds to `u_out` in a cycle. -/
def stride (k : Gains (BitVec 32)) (e : BitVec n) : BitVec n :=
  ((k.k1 - k.k2 + k.k3) * e.setWidth 32).setWidth n

theorem stride_eq (hn : n ≤ 32) (k : Gains (BitVec 32)) (e : BitVec n) :
    stride k e = (truncate hn k.k1 - truncate hn k.k2 + truncate hn k.k3) * e := by
  have hcut : truncate hn (e.setWidth 32) = e := by
    rw [truncate, RingHom.coe_mk]
    simp [hn]
  show truncate hn ((k.k1 - k.k2 + k.k3) * e.setWidth 32) = _
  rw [map_mul, map_add, map_sub, hcut]

/-- With the default gains the amount is five times the error, and five is odd. -/
theorem stride_gainsDefault (hn : n ≤ 32) (e : BitVec n) :
    stride gainsDefault e = 0#n ↔ e = 0#n := by
  have hfive : gainsDefault.k1 - gainsDefault.k2 + gainsDefault.k3 = 5#32 := by decide
  rw [stride, hfive]
  constructor
  · intro h
    have hmod := congrArg BitVec.toNat h
    rw [BitVec.toNat_setWidth, BitVec.toNat_mul, Nat.mod_mod_of_dvd _ (pow_dvd_pow 2 hn),
      BitVec.toNat_setWidth_of_le hn, BitVec.toNat_ofNat, BitVec.toNat_ofNat, Nat.zero_mod] at hmod
    have hdvd : 2 ^ n ∣ e.toNat :=
      (Nat.Coprime.pow_left n (by norm_num)).dvd_of_dvd_mul_left (Nat.dvd_of_mod_eq_zero hmod)
    exact BitVec.eq_of_toNat_eq (by simpa using Nat.eq_zero_of_dvd_of_lt hdvd e.isLt)
  · rintro rfl
    simp

/-- **The output under a held error.** -/
theorem outputs_held (hn : n ≤ 32) (k : Gains (BitVec 32)) (s : Pid n) (e₀ : BitVec n)
    {e : ℕ → BitVec n} {x : BitVec n} {T : ℕ} (hheld : ∀ i, T ≤ i → e i = x) {t : ℕ}
    (ht : T + 1 ≤ t) (j : ℕ) :
    outputs k s e₀ e (t + j) = outputs k s e₀ e t + BitVec.ofNat n j * stride k x := by
  induction j with
  | zero => simp
  | succ j ih =>
    obtain ⟨u, hu⟩ : ∃ u, t + j = u + 1 := ⟨t + j - 1, by omega⟩
    -- the last three errors are the held one
    have hnow := hheld (u + 1 + 1) (by omega)
    have hlast := hheld (u + 1) (by omega)
    have hprev := hheld u (by omega)
    have hone : BitVec.ofNat n 1 = 1 := rfl
    rw [hu] at ih
    rw [← Nat.add_assoc, hu, outputs_eq hn, closed_succ, ← outputs_eq hn k s e₀, ih,
      delayed_one_succ, hnow, hlast, hprev, stride_eq hn, BitVec.ofNat_add, hone]
    simp only [Gains.map]
    ring

end Pid

open Pid in
/-- **Windup.**  For every width up to 32, all gains, and every sequence of errors after an
edge with `Reset` high in which the error is held from some cycle on: from the next cycle on
the output stands still if the amount added per cycle is zero; otherwise it is negative in
exactly half of any `2 ^ n` cycles in a row, whether the error is positive or negative.  With
the default gains only the error zero adds nothing. -/
theorem pid_windup {n : ℕ} (hn : n ≤ 32) (k : Gains (BitVec 32)) (s : Pid n) (e₀ : BitVec n)
    (e : ℕ → BitVec n) (x : BitVec n) (T : ℕ) (hheld : ∀ i, T ≤ i → e i = x) (t : ℕ)
    (ht : T + 1 ≤ t) :
    let u := outputs k s e₀ e
    (stride k x = 0#n → ∀ j, u (t + j) = u t) ∧
    (stride k x ≠ 0#n → Nat.count (fun j => (u (t + j)).toInt < 0) (2 ^ n) = 2 ^ (n - 1)) ∧
    (k = gainsDefault → (stride k x = 0#n ↔ x = 0#n)) := by
  intro u
  have hu : ∀ j, u (t + j) = u t + BitVec.ofNat n j * stride k x :=
    outputs_held hn k s e₀ hheld ht
  refine ⟨fun hzero j => ?_, fun hne => ?_, fun hk => hk ▸ stride_gainsDefault hn x⟩
  · rw [hu, hzero]
    simp
  · rw [← count_msb_stride hne (u t)]
    refine count_congr fun j _ => ?_
    rw [hu, BitVec.msb_eq_toInt, decide_eq_true_iff]

open Pid in
/-- The controller with its default width and gains, and an error of 100 that stays. -/
theorem pid_windup_constant :
    Nat.count (fun j => (outputs gainsDefault ⟨0#16, 0#16, 0#16⟩ 0#16 (fun _ => 100#16)
      (1 + j)).toInt < 0) (2 ^ 16) = 2 ^ (16 - 1) :=
  (pid_windup (by decide) gainsDefault ⟨0#16, 0#16, 0#16⟩ 0#16 (fun _ => 100#16) 100#16 0
    (fun _ _ => rfl) 1 le_rfl).2.1 (by decide)

end BldcFpga
