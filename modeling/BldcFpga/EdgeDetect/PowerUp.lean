import BldcFpga.EdgeDetect.Filter

/-!
# The hall sensor filter from power-up

The board ties `reset` low, so divider, shift register and state start with what the
configuration leaves in them.

* `ClkDiv.firstTick`, `ClkDiv.ticks_tickClock` — from every value of the counter the ticks
  come once in a period;
* `EdgeDetection.debounces_legal` — once the shift register has been filled, the filter obeys
  the hysteresis law, if it has the code of a state;
* `EdgeDetection.z_view` — so on a slow sensor it is a delayed view of the raw waveform, with
  a delay of its own.
-/

namespace BldcFpga

open Clocked

/-! ## The phase of the divider -/

namespace ClkDiv

variable {n : ℕ}

/-- The clock of the first tick. -/
def firstTick (clockCnt : BitVec n) : ℕ := (2 ^ n + 2 ^ (n - 1) - (clockCnt.toNat + 1)) % 2 ^ n

/-- The clock of the `k`-th tick. -/
def tickClock (clockCnt : BitVec n) (k : ℕ) : ℕ := 2 ^ n * k + firstTick clockCnt

theorem firstTick_lt (clockCnt : BitVec n) : firstTick clockCnt < 2 ^ n :=
  Nat.mod_lt _ (Nat.two_pow_pos n)

theorem tickClock_add (clockCnt : BitVec n) (k d : ℕ) :
    tickClock clockCnt (k + d) = tickClock clockCnt k + d * 2 ^ n := by
  rw [tickClock, tickClock]
  ring

theorem tickClock_succ (clockCnt : BitVec n) (k : ℕ) :
    tickClock clockCnt (k + 1) = tickClock clockCnt k + 2 ^ n := by
  rw [tickClock_add, Nat.one_mul]

theorem ticks_mono (clockCnt : BitVec n) {i j : ℕ} (hij : i ≤ j) :
    ticks clockCnt i ≤ ticks clockCnt j :=
  Nat.count_monotone _ hij

theorem tickAt_iff_mod (hn : 1 ≤ n) (clockCnt : BitVec n) (t : ℕ) :
    TickAt clockCnt t ↔ t % 2 ^ n = firstTick clockCnt := by
  have hdouble : 2 ^ n = 2 * 2 ^ (n - 1) := by rw [← pow_succ', Nat.sub_add_cancel hn]
  have hhalf : 0 < 2 ^ (n - 1) := Nat.two_pow_pos _
  have hc := clockCnt.isLt
  have hphase : 2 ^ n + 2 ^ (n - 1) - (clockCnt.toNat + 1) + (clockCnt.toNat + 1) ≡
      2 ^ (n - 1) [MOD 2 ^ n] := by
    rw [Nat.sub_add_cancel (by omega), Nat.ModEq, Nat.add_mod_left]
  rw [tickAt_iff hn, firstTick, show clockCnt.toNat + t + 1 = t + (clockCnt.toNat + 1) by omega]
  constructor
  · intro h
    refine Nat.ModEq.add_right_cancel' (clockCnt.toNat + 1) (Nat.ModEq.trans ?_ hphase.symm)
    rw [Nat.ModEq, h, Nat.mod_eq_of_lt (by omega)]
  · intro h
    have hsum := (Nat.ModEq.add_right (clockCnt.toNat + 1) h).trans hphase
    rwa [Nat.ModEq, Nat.mod_eq_of_lt (by omega : 2 ^ (n - 1) < 2 ^ n)] at hsum

section Ticks

variable (hn : 1 ≤ n) (clockCnt : BitVec n)

include hn

theorem tickAt_tickClock (k : ℕ) : TickAt clockCnt (tickClock clockCnt k) := by
  rw [tickAt_iff_mod hn, tickClock, Nat.mul_add_mod, Nat.mod_eq_of_lt (firstTick_lt clockCnt)]

theorem ticks_tickClock (k : ℕ) : ticks clockCnt (tickClock clockCnt k) = k := by
  induction k with
  | zero =>
    refine Nat.count_of_forall_not fun i hi => ?_
    rw [tickClock, Nat.mul_zero, Nat.zero_add] at hi
    rw [tickAt_iff_mod hn, Nat.mod_eq_of_lt (hi.trans (firstTick_lt clockCnt))]
    omega
  | succ k ih => rw [tickClock_succ, ticks_add_period hn, ih]

/-- After tick `k` and up to the next one there have been `k + 1` of them. -/
theorem tickClock_of_ticks {t k : ℕ} (ht : ticks clockCnt t = k + 1) :
    tickClock clockCnt k < t ∧ t ≤ tickClock clockCnt k + 2 ^ n := by
  constructor
  · by_contra hle
    have hearlier := ticks_mono clockCnt (not_lt.1 hle)
    rw [ticks_tickClock hn] at hearlier
    omega
  · by_contra hlt
    have hlater := ticks_mono clockCnt (not_le.1 hlt : tickClock clockCnt k + 2 ^ n + 1 ≤ t)
    rw [← tickClock_succ, ticks, Nat.count_succ, if_pos (tickAt_tickClock hn clockCnt (k + 1)), ← ticks,
      ticks_tickClock hn] at hlater
    omega

theorem sampled_eq {α : Type*} (data : ℕ → α) (k : ℕ) :
    sampled (TickAt clockCnt) data k = data (tickClock clockCnt k) := by
  have h := sampled_count data (tickAt_tickClock hn clockCnt k)
  rwa [← ticks, ticks_tickClock hn] at h

end Ticks

end ClkDiv

/-! ## The filter -/

namespace EdgeDetection

variable {n div : ℕ}

/-- **A filter with a state obeys the hysteresis law** from the `n`-th tick on. -/
theorem debounces_legal (hn : 1 ≤ n) {r : TickRegs n} (hr : Legal r.stateQ ∨ Legal r.stateD)
    (d : ℕ → Bool) :
    Debounces n (z (run (tick false) r d n)) d
      (fun t => z (run (tick false) r d (max t n))) where
  zero := by rw [Nat.max_eq_right (Nat.zero_le n)]
  take := by
    intro t v ht hblock
    have hlegal := legal_run_of_latch hr d (hn.trans ht)
    have hall := (Q_all_iff r d v ht).2 hblock
    rw [Nat.max_eq_left (by omega)]
    cases v with
    | true => exact z_tick_ones hn hlegal hall _
    | false => exact z_tick_zeros hn hlegal hall _
  hold := by
    intro t hnone
    rcases Nat.lt_or_ge t n with ht | ht
    · rw [Nat.max_eq_right (by omega), Nat.max_eq_right (by omega)]
    · have hlegal := legal_run_of_latch hr d (hn.trans ht)
      have hmixed := fun v => mt (Q_all_iff r d v ht).1 (hnone v ht)
      rw [Nat.max_eq_left (by omega), Nat.max_eq_left ht]
      exact z_tick_mixed hn hlegal (hmixed true) (hmixed false) _

/-- The clock of the sample that the filter shows after `t` clocks. -/
def view (n : ℕ) (clockCnt : BitVec div) (t : ℕ) : ℕ :=
  ClkDiv.tickClock clockCnt (ClkDiv.ticks clockCnt t - (n + 1))

section View

variable (hdiv : 1 ≤ div) (clockCnt : BitVec div)

include hdiv

/-- After so many clocks the samples the filter shows are its own. -/
theorem lt_ticks {t : ℕ} (ht : (n + 1) * 2 ^ div ≤ t) : n + 1 ≤ ClkDiv.ticks clockCnt t := by
  have hmono := ClkDiv.ticks_mono clockCnt ht
  rwa [ClkDiv.ticks_mul_period hdiv] at hmono

/-- The view lags by `n` periods of the divider, up to one more. -/
theorem view_lag {t : ℕ} (ht : (n + 1) * 2 ^ div ≤ t) :
    view n clockCnt t + n * 2 ^ div < t ∧ t ≤ view n clockCnt t + (n + 1) * 2 ^ div := by
  obtain ⟨k, hk⟩ := Nat.exists_eq_add_of_le' (lt_ticks (n := n) hdiv clockCnt ht)
  obtain ⟨hlt, hle⟩ := ClkDiv.tickClock_of_ticks hdiv clockCnt (t := t) (k := k + n) hk
  rw [ClkDiv.tickClock_add] at hlt hle
  rw [view, hk, Nat.add_sub_cancel, Nat.succ_mul]
  omega

omit hdiv in
/-- It never moves back, and a period at most. -/
theorem view_succ (n t : ℕ) :
    view n clockCnt t ≤ view n clockCnt (t + 1) ∧
      view n clockCnt (t + 1) ≤ view n clockCnt t + 2 ^ div := by
  have hmono : ∀ {i j : ℕ}, i ≤ j →
      ClkDiv.tickClock clockCnt i ≤ ClkDiv.tickClock clockCnt j := fun hij =>
    Nat.add_le_add_right (Nat.mul_le_mul_left _ hij) _
  have hticks : ClkDiv.ticks clockCnt (t + 1) ≤ ClkDiv.ticks clockCnt t + 1 := by
    rw [ClkDiv.ticks, Nat.count_succ, ← ClkDiv.ticks]
    split_ifs <;> omega
  refine ⟨hmono (Nat.sub_le_sub_right (ClkDiv.ticks_mono clockCnt (Nat.le_succ t)) _), ?_⟩
  rw [view, view, ← ClkDiv.tickClock_succ]
  exact hmono (by omega)

/-- **The filter on a slow sensor**, from any contents of its registers with the code of a
state. -/
theorem z_view (hn : 1 ≤ n) {s : EdgeDetection n div}
    (hs : Legal s.regs.stateQ ∨ Legal s.regs.stateD) {data : ℕ → Bool}
    (hdata : PhasesAtLeast (n * 2 ^ div) data) {t : ℕ} (ht : (n + 1) * 2 ^ div ≤ t) :
    z (states s data t).regs = data (view n s.clockCnt t) := by
  have hsamples : samples s data = fun k => data (ClkDiv.tickClock s.clockCnt k) :=
    funext fun k => ClkDiv.sampled_eq hdiv s.clockCnt data k
  have hphases : PhasesAtLeast n (samples s data) := by
    rw [hsamples]
    exact hdata.sample (ClkDiv.firstTick_lt s.clockCnt)
  obtain ⟨k, hk⟩ := Nat.exists_eq_add_of_le' (lt_ticks (n := n) hdiv s.clockCnt ht)
  have hdelay := (debounces_legal hn hs (samples s data)).delay hn hphases k
  rw [Nat.max_eq_left (by omega)] at hdelay
  rw [z_states, view, hk, Nat.add_sub_cancel, ← Nat.add_assoc, hdelay, hsamples]

/-- **Every rise comes through.** -/
theorem risesIn_view (hn : 1 ≤ n) {s : EdgeDetection n div}
    (hs : Legal s.regs.stateQ ∨ Legal s.regs.stateD) {data : ℕ → Bool}
    (hdata : PhasesAtLeast (n * 2 ^ div) data) {start : ℕ} (hstart : (n + 1) * 2 ^ div ≤ start)
    (len : ℕ) :
    ∃ start' len', risesIn (fun t => z (states s data t).regs) start len =
        risesIn data start' len' ∧
      start ≤ start' + (n + 1) * 2 ^ div ∧ start' + len' < start + len ∧
      len < len' + 2 ^ div ∧ len' < len + 2 ^ div := by
  have hshown : risesIn (fun t => z (states s data t).regs) start len =
      risesIn (fun t => data (view n s.clockCnt t)) start len := by
    refine count_congr fun k _ => ?_
    rw [Rise, Rise, z_view hdiv hn hs hdata (by omega), z_view hdiv hn hs hdata (by omega)]
  have hphase : 2 ^ div ≤ n * 2 ^ div := Nat.le_mul_of_pos_left _ hn
  have hmono : ∀ t, start ≤ t → view n s.clockCnt t ≤ view n s.clockCnt (t + 1) :=
    fun t _ => (view_succ s.clockCnt n t).1
  have hjump : ∀ t, start ≤ t → view n s.clockCnt (t + 1) ≤ view n s.clockCnt t + n * 2 ^ div :=
    fun t _ => (view_succ s.clockCnt n t).2.trans (Nat.add_le_add_left hphase _)
  obtain ⟨hle, hrises⟩ := hdata.spaced.risesIn_comp hmono hjump len
  obtain ⟨hlt, hge⟩ := view_lag (n := n) hdiv s.clockCnt hstart
  obtain ⟨hlt', hge'⟩ := view_lag (n := n) hdiv s.clockCnt (t := start + len) (by omega)
  have hperiod : (n + 1) * 2 ^ div = n * 2 ^ div + 2 ^ div := Nat.succ_mul _ _
  exact ⟨_, _, hshown.trans hrises, by omega, by omega, by omega, by omega⟩

end View

end EdgeDetection

end BldcFpga
