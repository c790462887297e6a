import BldcFpga.Clocked.Debounce
import BldcFpga.EdgeDetect.EdgeDetection

/-!
# What the hall sensor filter does

* `EdgeDetection.debounces` — from a cleared start the filter obeys the hysteresis
  law, and `edgeDetection_debounces` reads off what that means on every stream;
* `edgeDetection_reset_iff` — a reset pulse leaves the registers behind the divided
  clock as they are, because the divider that clocks them is held at zero by the
  same reset; so the filter is cleared afterwards only if it was clear before;
* `edgeDetection_recovers_iff` — without a reset the filter finds its way to the
  input if and only if the state register or the latch holds the code of a state at
  power-up; from `00` in both it never leaves `z = 0`.
-/

namespace BldcFpga

open Clocked

namespace EdgeDetection

variable {n div : ℕ}

/-! ## The hysteresis law -/

/-- Until `n` ticks have passed a cleared filter shows 0. -/
theorem z_early (hn : 1 ≤ n) (stateD : BitVec 2) (d : ℕ → Bool) (t : ℕ) (ht : t ≤ n) :
    z (run (tick false) ⟨0#n, stateD, A⟩ d t) = false := by
  induction t with
  | zero => rfl
  | succ t ih =>
    have hlegal := legal_run (r := ⟨0#n, stateD, A⟩) (Or.inl rfl) d t
    -- bit 0 still is one of the zeros of the start
    have hbit : (run (tick false) ⟨0#n, stateD, A⟩ d t).Q.getLsbD 0 = false := by
      rw [Q_run _ d t (by omega), if_pos (by omega)]
      simp
    have h1 : ¬ ∀ i < n, (run (tick false) ⟨0#n, stateD, A⟩ d t).Q.getLsbD i = true := by
      intro h
      rw [h 0 (by omega)] at hbit
      exact Bool.noConfusion hbit
    rw [run_succ]
    by_cases h0 : ∀ i < n, (run (tick false) ⟨0#n, stateD, A⟩ d t).Q.getLsbD i = false
    · exact z_tick_zeros hn hlegal h0 _
    · rw [z_tick_mixed hn hlegal h1 h0]
      exact ih (by omega)

/-- Once `n` samples have been taken the register holds the last `n` of them. -/
theorem Q_all_iff (r : TickRegs n) (d : ℕ → Bool) (v : Bool) {t : ℕ} (ht : n ≤ t) :
    (∀ i < n, (run (tick false) r d t).Q.getLsbD i = v) ↔ Block n d v (t - n) := by
  refine forall₂_congr fun i hi => ?_
  rw [Q_run r d t hi, if_neg (by omega), show i + t - n = t - n + i by omega]

/-- **A cleared filter obeys the hysteresis law.** -/
theorem debounces (hn : 1 ≤ n) (stateD : BitVec 2) (d : ℕ → Bool) :
    Debounces n false d fun t => z (run (tick false) ⟨0#n, stateD, A⟩ d t) where
  zero := rfl
  take := by
    intro t v ht hblock
    have hlegal := legal_run (r := ⟨0#n, stateD, A⟩) (Or.inl rfl) d t
    have hall := (Q_all_iff ⟨0#n, stateD, A⟩ d v ht).2 hblock
    cases v with
    | true => exact z_tick_ones hn hlegal hall _
    | false => exact z_tick_zeros hn hlegal hall _
  hold := by
    intro t hnone
    have hlegal := legal_run (r := ⟨0#n, stateD, A⟩) (Or.inl rfl) d t
    rcases Nat.lt_or_ge t n with ht | ht
    · show z _ = z _
      rw [z_early hn stateD d (t + 1) (by omega), z_early hn stateD d t (by omega)]
    · have hmixed := fun v => mt (Q_all_iff ⟨0#n, stateD, A⟩ d v ht).1 (hnone v ht)
      exact z_tick_mixed hn hlegal (hmixed true) (hmixed false) _

/-- The output after `t` clocks is the output after the ticks there were. -/
theorem z_states (s : EdgeDetection n div) (data : ℕ → Bool) (t : ℕ) :
    z (states s data t).regs =
      z (run (tick false) s.regs (samples s data) (ClkDiv.ticks s.clockCnt t)) := by
  rw [regs_run]

/-- **The delay.**  A stream whose phases are at least `n` samples long appears on the
output of a cleared filter `n` ticks late. -/
theorem z_of_phases (hn : 1 ≤ n) (clockCnt : BitVec div) (stateD : BitVec 2) (data : ℕ → Bool)
    (hd : PhasesAtLeast n (samples (⟨clockCnt, ⟨0#n, stateD, A⟩⟩ : EdgeDetection n div) data))
    (j : ℕ) :
    z (states (⟨clockCnt, ⟨0#n, stateD, A⟩⟩ : EdgeDetection n div) data j).regs =
      if ClkDiv.ticks clockCnt j ≤ n then false
      else samples (⟨clockCnt, ⟨0#n, stateD, A⟩⟩ : EdgeDetection n div) data
        (ClkDiv.ticks clockCnt j - 1 - n) := by
  have hlaw := debounces hn stateD
    (samples (⟨clockCnt, ⟨0#n, stateD, A⟩⟩ : EdgeDetection n div) data)
  rw [z_states]
  split_ifs with hj
  · exact hlaw.before_delay hn hj
  · have := hlaw.delay hn hd (ClkDiv.ticks clockCnt j - 1 - n)
    rwa [show ClkDiv.ticks clockCnt j - 1 - n + n + 1 = ClkDiv.ticks clockCnt j by omega] at this

/-- The output changes on a tick only. -/
theorem tickAt_of_change (s : EdgeDetection n div) (data : ℕ → Bool) {t : ℕ}
    (hc : z (states s data t).regs ≠ z (states s data (t + 1)).regs) :
    ClkDiv.TickAt s.clockCnt t := by
  by_contra htick
  rw [regs_succ, if_neg htick] at hc
  exact hc rfl

theorem ticks_of_change (s : EdgeDetection n div) (data : ℕ → Bool) {t : ℕ}
    (hc : z (states s data t).regs ≠ z (states s data (t + 1)).regs) :
    ClkDiv.ticks s.clockCnt (t + 1) = ClkDiv.ticks s.clockCnt t + 1 := by
  rw [ClkDiv.ticks, Nat.count_succ, if_pos (tickAt_of_change s data hc), ClkDiv.ticks]

end EdgeDetection

open EdgeDetection in
/-- **The filter on every stream.**  Let the filter start in state `A` with a cleared
shift register and run with `reset` low, let `d` be the samples taken at the ticks
of the divided clock and `t j` the number of ticks in the first `j` clocks.  The
divided clock never stops; the output is the value of the latest block of `n` equal
samples complete one tick earlier, and 0 without one; it never shows a pulse shorter
than `n` ticks, and two changes are at least `n` ticks apart; and a stream whose
phases are all at least `n` samples long appears on it `n` ticks late. -/
theorem edgeDetection_debounces {n div : ℕ} (hn : 1 ≤ n) (hdiv : 1 ≤ div)
    (clockCnt : BitVec div) (stateD : BitVec 2) (data : ℕ → Bool) :
    let s : EdgeDetection n div := ⟨clockCnt, ⟨0#n, stateD, A⟩⟩
    let d := samples s data
    let t := ClkDiv.ticks clockCnt
    let zAt := fun j => z (states s data j).regs
    (∀ j, t (j + 2 ^ div) = t j + 1) ∧
    (∀ j v, LatestBlock n d (t j - 1) v → zAt j = v) ∧
    (∀ j, NoBlock n d (t j - 1) → zAt j = false) ∧
    (∀ i j, zAt i ≠ zAt (i + 1) → i < j → t j ≤ t i + n → zAt j = zAt (i + 1)) ∧
    (∀ i j, i < j → zAt i ≠ zAt (i + 1) → zAt j ≠ zAt (j + 1) → t i + n ≤ t j) ∧
    (PhasesAtLeast n d → ∀ j, zAt j = if t j ≤ n then false else d (t j - 1 - n)) := by
  intro s d t zAt
  have hlaw := debounces hn stateD d
  have hz : ∀ j, zAt j = z (run (tick false) ⟨0#n, stateD, A⟩ d (t j)) := z_states s data
  have htick : ∀ j, zAt j ≠ zAt (j + 1) → t (j + 1) = t j + 1 := fun j => ticks_of_change s data
  have hmono : ∀ {i j}, i ≤ j → t i ≤ t j := fun hij => Nat.count_monotone _ hij
  refine ⟨ClkDiv.ticks_add_period hdiv clockCnt, fun j v hv => ?_, fun j hno => ?_,
    fun i j hc hij hj => ?_, fun i j hij hc hc' => ?_, z_of_phases hn clockCnt stateD data⟩
  · rw [hz]
    exact (hlaw.latest hn (t j)).1 v hv
  · rw [hz]
    exact (hlaw.latest hn (t j)).2 hno
  · have hlt := htick i hc
    have hle : t (i + 1) ≤ t j := hmono (by omega)
    rw [hz, hz, hlt] at hc
    rw [hz j, hz (i + 1), hlt, show t j = t i + 1 + (t j - t i - 1) by omega]
    exact hlaw.holds hc (t j - t i - 1) (by omega)
  · have hlt := htick i hc
    have hlt' := htick j hc'
    have hle : t (i + 1) ≤ t j := hmono (by omega)
    rw [hz, hz, hlt] at hc
    rw [hz, hz, hlt'] at hc'
    exact hlaw.change_gap (by omega) hc hc'

open EdgeDetection in
/-- Three samples wide, dividing by two, with the input high from the start: the output
is 1 after sixteen clocks, which are eight ticks. -/
theorem edgeDetection_debounces_rising :
    z (states (⟨1#1, ⟨0#3, 0#2, A⟩⟩ : EdgeDetection 3 1) (fun _ => true) 16).regs = true := by
  have hticks : ClkDiv.ticks 1#1 16 = 8 := ClkDiv.ticks_mul_period (n := 1) le_rfl 1#1 8
  have hn : 1 ≤ 3 := by decide
  have h := (edgeDetection_debounces hn le_rfl 1#1 0#2 fun _ => true).2.2.2.2.2
    (fun _ _ _ _ => rfl) 16
  rw [hticks] at h
  exact h

/-! ## The reset pulse -/

namespace EdgeDetection

variable {n div : ℕ}

/-- The registers after `N` clock edges taken with `reset = 1`. -/
def pulsed (s : EdgeDetection n div) (data : ℕ → Bool) (N : ℕ) : EdgeDetection n div :=
  run step s (fun k => ⟨true, data k⟩) N

/-- An edge with `reset = 1` never ticks: the divider is at zero before and after it. -/
theorem regs_step_reset (d : Bool) (s : EdgeDetection n div) :
    (step ⟨true, d⟩ s).regs = s.regs := by
  simp [step, ClkDiv.settle, ClkDiv.step, ClkDiv.clockDiv]

/-- A reset pulse of any length leaves the filter as it was. -/
theorem regs_pulsed (s : EdgeDetection n div) (data : ℕ → Bool) (N : ℕ) :
    (pulsed s data N).regs = s.regs :=
  run_invariant (fun _ (x : EdgeDetection n div) => x.regs = s.regs) rfl
    (fun k x hx => (regs_step_reset (data k) x).trans hx) N

end EdgeDetection

open EdgeDetection in
/-- **When a reset pulse clears the filter.**  For every contents of the registers,
every data stream and every pulse length, shift register, state and output are
cleared when `reset` is released if and only if shift register and state were clear
before it. -/
theorem edgeDetection_reset_iff {n div : ℕ} (s : EdgeDetection n div) (data : ℕ → Bool) (N : ℕ) :
    ((pulsed s data N).regs.Q = 0#n ∧ (pulsed s data N).regs.stateQ = A ∧
      z (pulsed s data N).regs = false) ↔
      s.regs.Q = 0#n ∧ s.regs.stateQ = A := by
  rw [regs_pulsed]
  constructor
  · rintro ⟨hQ, hq, -⟩
    exact ⟨hQ, hq⟩
  · rintro ⟨hQ, hq⟩
    exact ⟨hQ, hq, by simp [z, hq, A, B]⟩

open EdgeDetection in
/-- The filter of the board with its register full, reset over one period of the
divider: nothing is cleared, and the output stays 1. -/
theorem edgeDetection_reset_ignored :
    let s : EdgeDetection 20 4 := ⟨0#4, ⟨BitVec.allOnes 20, B, B⟩⟩
    2 ^ 4 ≤ 16 ∧ (pulsed s (fun _ => false) 16).regs.Q ≠ 0#20 ∧
      (pulsed s (fun _ => false) 16).regs.stateQ ≠ A ∧
      z (pulsed s (fun _ => false) 16).regs = true := by
  intro s
  rw [regs_pulsed]
  decide

/-! ## Recovery without a reset -/

namespace EdgeDetection

variable {n div : ℕ}

/-- One tick after power-up the state register has a state, if it had one or the
latch held one. -/
theorem legal_run_of_latch {r : TickRegs n} (hr : Legal r.stateQ ∨ Legal r.stateD)
    (d : ℕ → Bool) {t : ℕ} (ht : 1 ≤ t) : Legal (run (tick false) r d t).stateQ := by
  induction t, ht using Nat.le_induction with
  | base =>
    show Legal (tick false (d 0) r).stateQ
    by_cases hq : Legal r.stateQ
    · exact legal_tick hq _
    · rw [(stateQ_tick_of_not_legal hq _).1]
      exact hr.resolve_left hq
  | succ t _ ih => exact legal_tick ih _

/-- Without one the register and the latch feed each other for ever. -/
theorem stuck_run {r : TickRegs n} (hq : ¬ Legal r.stateQ) (hd : ¬ Legal r.stateD)
    (d : ℕ → Bool) (t : ℕ) :
    ¬ Legal (run (tick false) r d t).stateQ ∧ ¬ Legal (run (tick false) r d t).stateD :=
  run_invariant (fun _ (x : TickRegs n) => ¬ Legal x.stateQ ∧ ¬ Legal x.stateD) ⟨hq, hd⟩
    (fun k x ⟨hxq, hxd⟩ => by
      obtain ⟨h1, h2⟩ := stateQ_tick_of_not_legal hxq (d k)
      rw [h1, h2]
      exact ⟨hxd, hxd⟩) t

theorem z_of_not_legal {r : TickRegs n} (hq : ¬ Legal r.stateQ) : z r = false :=
  if_neg fun h => hq (Or.inr h)

/-- The filter is stuck at 0. -/
theorem z_stuck {s : EdgeDetection n div} (hq : ¬ Legal s.regs.stateQ)
    (hd : ¬ Legal s.regs.stateD) (data : ℕ → Bool) (j : ℕ) :
    z (states s data j).regs = false := by
  rw [regs_run]
  exact z_of_not_legal (stuck_run hq hd _ _).1

/-- `data` has held `v` at the last `m` of `t` ticks. -/
def HeldFor (m : ℕ) (d : ℕ → Bool) (t : ℕ) (v : Bool) : Prop := m ≤ t ∧ Block m d v (t - m)

/-- A legal state follows an input held for `n + 2` ticks. -/
theorem z_of_heldFor (hn : 1 ≤ n) {r : TickRegs n} (hr : Legal r.stateQ ∨ Legal r.stateD)
    {d : ℕ → Bool} {t : ℕ} {v : Bool} (h : HeldFor (n + 2) d t v) :
    z (run (tick false) r d t) = v := by
  obtain ⟨ht, hheld⟩ := h
  obtain ⟨u, rfl⟩ : ∃ u, t = u + 1 := ⟨t - 1, by omega⟩
  have hlegal := legal_run_of_latch hr d (show 1 ≤ u by omega)
  -- one tick earlier the register is full of the held value
  have hall : ∀ i < n, (run (tick false) r d u).Q.getLsbD i = v := by
    rw [Q_all_iff r d v (by omega)]
    intro k hk
    have := hheld (k + 1) (by omega)
    rwa [show u + 1 - (n + 2) + (k + 1) = u - n + k by omega] at this
  rw [run_succ]
  cases v with
  | true => exact z_tick_ones hn hlegal hall _
  | false => exact z_tick_zeros hn hlegal hall _

/-- A constant input is held for as many ticks as there were. -/
theorem heldFor_const (hdiv : 1 ≤ div) (s : EdgeDetection n div) (m : ℕ) (v : Bool) :
    HeldFor m (samples s fun _ => v) (ClkDiv.ticks s.clockCnt (m * 2 ^ div)) v :=
  ⟨(ClkDiv.ticks_mul_period hdiv s.clockCnt m).ge, fun _ _ => rfl⟩

end EdgeDetection

open EdgeDetection in
/-- **When the filter recovers by itself.**  For every contents of the registers at
power-up: with `reset` low, on every data stream the output equals every value that
the input has held for `n + 2` ticks, if and only if `state_Q` or the latch `state_D`
holds the code of a state. -/
theorem edgeDetection_recovers_iff {n div : ℕ} (hn : 1 ≤ n) (hdiv : 1 ≤ div)
    (s : EdgeDetection n div) :
    (∀ (data : ℕ → Bool) (j : ℕ) (v : Bool),
      HeldFor (n + 2) (samples s data) (ClkDiv.ticks s.clockCnt j) v →
        z (states s data j).regs = v) ↔
      Legal s.regs.stateQ ∨ Legal s.regs.stateD := by
  constructor
  · intro h
    by_contra hno
    rw [not_or] at hno
    have hone := h (fun _ => true) _ true (heldFor_const hdiv s (n + 2) true)
    rw [z_stuck hno.1 hno.2] at hone
    exact Bool.noConfusion hone
  · intro hr data j v hheld
    rw [regs_run]
    exact z_of_heldFor hn hr hheld

open EdgeDetection in
/-- The filter of the board from state `B`. -/
theorem edgeDetection_recovers_iff_board :
    (∀ (data : ℕ → Bool) (j : ℕ) (v : Bool),
      HeldFor (20 + 2) (samples (⟨5#4, ⟨1#20, 0#2, B⟩⟩ : EdgeDetection 20 4) data)
        (ClkDiv.ticks 5#4 j) v →
        z (states (⟨5#4, ⟨1#20, 0#2, B⟩⟩ : EdgeDetection 20 4) data j).regs = v) ↔
      Legal B ∨ Legal 0#2 :=
  edgeDetection_recovers_iff (by decide) (by decide) ⟨5#4, ⟨1#20, 0#2, B⟩⟩

open EdgeDetection in
/-- The filter of the board, all registers 0 at power-up, with the input high for 22
ticks of the divided clock: the output is still 0. -/
theorem edgeDetection_stuck :
    let s : EdgeDetection 20 4 := ⟨0#4, ⟨0#20, 0#2, 0#2⟩⟩
    HeldFor (20 + 2) (samples s fun _ => true) (ClkDiv.ticks s.clockCnt ((20 + 2) * 2 ^ 4)) true ∧
      z (states s (fun _ => true) ((20 + 2) * 2 ^ 4)).regs ≠ true := by
  intro s
  refine ⟨heldFor_const (by decide) s (20 + 2) true, ?_⟩
  rw [z_stuck (by decide) (by decide)]
  decide

end BldcFpga
