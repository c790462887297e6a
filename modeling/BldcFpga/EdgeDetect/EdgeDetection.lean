import BldcFpga.Clocked.Run
import BldcFpga.Clocked.Counters
import BldcFpga.Clocked.Edges

/-!
# The hall sensor filter

`clk_div.v` and `edge_detection.v`: a divided clock shifts the sensor into a
register of `n` bits, and a two-state machine on the same clock moves only when all
bits agree.

* `ClkDiv` — the divider, cleared by `reset` without waiting for the clock;
* `shiftn` — the shift register, with its contents in closed form (`shiftn_run`);
* `EdgeDetection` — the filter.  The registers behind the divided clock are grouped
  in `TickRegs`; their `case` has an empty `default`, so `state_D` is a latch and
  `state_Q` may hold codes of no state;
* `EdgeDetection.regs_run` — with `reset` low those registers run over the samples
  taken at the rising edges of the divided clock (`tickAt_iff` says which those are).
-/

namespace BldcFpga

open Clocked

/-! ## `clk_div` -/

namespace ClkDiv

variable {n : ℕ}

/-- What `clock_cnt` shows before an edge: `reset` clears it at once. -/
def settle (reset : Bool) (clockCnt : BitVec n) : BitVec n := if reset then 0#n else clockCnt

/-- `clock_cnt` at a rising edge of `clk_sys`. -/
def step (reset : Bool) (clockCnt : BitVec n) : BitVec n :=
  if reset then 0#n else clockCnt + 1#n

/-- The output `clock_div` is the top bit of the counter. -/
def clockDiv (clockCnt : BitVec n) : Bool := clockCnt.msb

/-- The divided clock, cycle by cycle, with `reset` low. -/
def wave (clockCnt : BitVec n) (t : ℕ) : Bool :=
  clockDiv (run step clockCnt (fun _ => false) t)

/-- A tick: the divided clock rises at edge `t`. -/
def TickAt (clockCnt : BitVec n) (t : ℕ) : Prop := Rise (wave clockCnt) t

instance (clockCnt : BitVec n) : DecidablePred (TickAt clockCnt) :=
  inferInstanceAs (DecidablePred (Rise (wave clockCnt)))

/-- The number of ticks in the first `t` clocks. -/
def ticks (clockCnt : BitVec n) (t : ℕ) : ℕ := Nat.count (TickAt clockCnt) t

theorem run_toNat (clockCnt : BitVec n) (t : ℕ) :
    (run step clockCnt (fun _ => false) t).toNat = (clockCnt.toNat + t) % 2 ^ n :=
  wrapping_toNat (x := run step clockCnt fun _ => false) (fun _ => rfl) t

/-- The divided clock ticks when the counter steps to half of its range. -/
theorem tickAt_iff (hn : 1 ≤ n) (clockCnt : BitVec n) (t : ℕ) :
    TickAt clockCnt t ↔ (clockCnt.toNat + t + 1) % 2 ^ n = 2 ^ (n - 1) := by
  have h := msb_rise_iff hn (run step clockCnt (fun _ => false) t)
  rw [run_toNat, Nat.mod_add_mod] at h
  exact h

/-- A counter that takes every step is the run of the divider. -/
theorem run_step (cnt : ℕ → BitVec n) (hcnt : ∀ t, cnt (t + 1) = step false (cnt t)) (t : ℕ) :
    run step (cnt 0) (fun _ => false) t = cnt t := by
  induction t with
  | zero => rfl
  | succ t ih => rw [run_succ, ih, hcnt]

section Gated

variable {σ ι : Type*} {f : ι → σ → σ} {inp : ℕ → ι} (cnt : ℕ → BitVec n) {x : ℕ → σ}
  (hcnt : ∀ t, cnt (t + 1) = step false (cnt t))
  (hx : ∀ t, x (t + 1) =
    if clockDiv (cnt t) = false ∧ clockDiv (cnt (t + 1)) = true then f (inp t) (x t) else x t)

include hcnt hx

/-- Registers that take an edge whenever a divider next to them raises its output move on
the ticks only. -/
theorem gated_succ (t : ℕ) :
    x (t + 1) = if TickAt (cnt 0) t then f (inp t) (x t) else x t := by
  have htick : TickAt (cnt 0) t ↔ clockDiv (cnt t) = false ∧ clockDiv (cnt (t + 1)) = true := by
    rw [TickAt, Rise, wave, wave, run_step cnt hcnt, run_step cnt hcnt]
  rw [hx, if_congr htick rfl rfl]

/-- **Behind the divided clock.**  After `t` clocks such registers are those of a run over
the inputs at the ticks, as many steps long as there were ticks. -/
theorem gated_run (t : ℕ) :
    x t = run f (x 0) (sampled (TickAt (cnt 0)) inp) (ticks (cnt 0) t) :=
  run_gated (gated_succ cnt hcnt hx) t

end Gated

/-- There is one tick in every `2 ^ n` clocks. -/
theorem ticks_add_period (hn : 1 ≤ n) (clockCnt : BitVec n) (t : ℕ) :
    ticks clockCnt (t + 2 ^ n) = ticks clockCnt t + 1 := by
  have hhalf : 2 ^ (n - 1) < 2 ^ n := Nat.pow_lt_pow_right (by norm_num) (by omega)
  rw [ticks, Nat.count_add, ← count_residue_eq hhalf (clockCnt.toNat + t + 1)]
  congr 1
  refine count_congr fun k _ => ?_
  rw [tickAt_iff hn, show clockCnt.toNat + (t + k) + 1 = clockCnt.toNat + t + 1 + k by omega]

/-- The divided clock never stops. -/
theorem ticks_mul_period (hn : 1 ≤ n) (clockCnt : BitVec n) (k : ℕ) :
    ticks clockCnt (k * 2 ^ n) = k := by
  induction k with
  | zero => simp [ticks]
  | succ k ih => rw [Nat.succ_mul, ticks_add_period hn, ih]

/-- There is always another tick. -/
theorem infinite_ticks (hn : 1 ≤ n) (clockCnt : BitVec n) :
    (Set.ofPred (TickAt clockCnt)).Infinite := by
  refine Set.infinite_of_forall_exists_gt fun a => ?_
  by_contra hno
  have hnone : ∀ k < 2 ^ n, ¬ TickAt clockCnt (a + 1 + k) :=
    fun k _ hk => hno ⟨a + 1 + k, hk, by omega⟩
  have hperiod := ticks_add_period hn clockCnt (a + 1)
  rw [ticks, Nat.count_add, Nat.count_of_forall_not hnone, ← ticks] at hperiod
  omega

/-- The number of ticks from a cleared divider on. -/
theorem ticks_zero (hn : 1 ≤ n) (t : ℕ) : ticks 0#n t = (t + 2 ^ (n - 1)) / 2 ^ n := by
  obtain ⟨n, rfl⟩ : ∃ m, n = m + 1 := ⟨n - 1, by omega⟩
  have hP : 2 ^ (n + 1) = 2 * 2 ^ n := by ring
  have hH : 0 < 2 ^ n := Nat.two_pow_pos n
  rw [Nat.add_sub_cancel]
  induction t with
  | zero => rw [Nat.zero_add, Nat.div_eq_of_lt (by omega)]; rfl
  | succ t ih =>
    have htick : TickAt 0#(n + 1) t ↔ 2 ^ (n + 1) ∣ t + 2 ^ n + 1 := by
      rw [tickAt_iff hn, Nat.add_sub_cancel, BitVec.toNat_ofNat, Nat.zero_mod, Nat.zero_add,
        show t + 2 ^ n + 1 = t + 1 + 2 ^ n by omega, hP]
      exact mod_eq_half_iff hH (t + 1)
    rw [ticks, Nat.count_succ, ← ticks, ih, if_congr htick rfl rfl, ← Nat.succ_div,
      show t + 1 + 2 ^ n = t + 2 ^ n + 1 by omega]

/-- From a cleared divider on, sample `k` is taken in the middle of period `k`. -/
theorem sampled_zero {α : Type*} (hn : 1 ≤ n) (data : ℕ → α) (k : ℕ) :
    sampled (TickAt 0#n) data k = data (2 ^ n * k + (2 ^ (n - 1) - 1)) := by
  have hP : 2 ^ n = 2 * 2 ^ (n - 1) := by rw [← pow_succ', Nat.sub_add_cancel hn]
  have hH : 0 < 2 ^ (n - 1) := Nat.two_pow_pos _
  have htick : TickAt 0#n (2 ^ n * k + (2 ^ (n - 1) - 1)) := by
    rw [tickAt_iff hn, BitVec.toNat_ofNat, Nat.zero_mod, Nat.zero_add, Nat.add_assoc,
      Nat.mul_add_mod, Nat.sub_add_cancel hH, Nat.mod_eq_of_lt (by omega)]
  have hcount : ticks 0#n (2 ^ n * k + (2 ^ (n - 1) - 1)) = k := by
    rw [ticks_zero hn, Nat.add_assoc, Nat.mul_add_div (by omega), Nat.div_eq_of_lt (by omega),
      Nat.add_zero]
  rw [← sampled_count data htick]
  exact congrArg _ hcount.symm

end ClkDiv

/-! ## `shiftn` -/

section Shiftn

variable {k : ℕ}

/-- `shiftn` at a rising edge of its clock: every bit takes the next higher one, the
top bit takes `D`. -/
def shiftn (reset D : Bool) (Q : BitVec k) : BitVec k :=
  if reset then 0#k
  else BitVec.ofFnLE fun i : Fin k => if i.val + 1 < k then Q.getLsbD (i.val + 1) else D

theorem getLsbD_shiftn (D : Bool) (Q : BitVec k) {i : ℕ} (hi : i < k) :
    (shiftn false D Q).getLsbD i = if i + 1 < k then Q.getLsbD (i + 1) else D := by
  simp [shiftn, hi]

/-- **The register in closed form.**  After `t` shifts bit `i` is an old bit that has
moved down, or the sample taken `k - i` shifts ago. -/
theorem shiftn_run (Q : BitVec k) (d : ℕ → Bool) (t : ℕ) {i : ℕ} (hi : i < k) :
    (run (shiftn false) Q d t).getLsbD i =
      if i + t < k then Q.getLsbD (i + t) else d (i + t - k) := by
  induction t generalizing i with
  | zero => simp [hi]
  | succ t ih =>
    rw [run_succ, getLsbD_shiftn _ _ hi]
    by_cases hik : i + 1 < k
    · rw [if_pos hik, ih hik, show i + 1 + t = i + (t + 1) by omega]
    · rw [if_neg hik, if_neg (by omega), show i + (t + 1) - k = t by omega]

end Shiftn

/-! ## `edge_detection` -/

/-- The registers of `edge_detection` behind the divided clock: the shift register
`Q`, the state register `state_Q`, and the latch `state_D` in front of it. -/
structure TickRegs (n : ℕ) where
  Q : BitVec n
  stateD : BitVec 2
  stateQ : BitVec 2
  deriving DecidableEq, Repr

/-- The registers of `edge_detection`. -/
structure EdgeDetection (n div : ℕ) where
  clockCnt : BitVec div
  regs : TickRegs n
  deriving DecidableEq, Repr

namespace EdgeDetection

/-- The states of the filter. -/
def A : BitVec 2 := 0b01#2
def B : BitVec 2 := 0b10#2

/-- The codes of a state; `00` and `11` are codes of none. -/
def Legal (q : BitVec 2) : Prop := q = A ∨ q = B

instance : DecidablePred Legal := fun _ => inferInstanceAs (Decidable (_ ∨ _))

variable {n div : ℕ}

/-- The wires `w`: the AND and the OR of the shift register. -/
def w (Q : BitVec n) : BitVec 2 :=
  BitVec.ofBool (Q == BitVec.allOnes n) ++ BitVec.ofBool (Q != 0#n)

/-- The next-state block.  Its empty `default` leaves the latch as it is. -/
def nextState (s : TickRegs n) : BitVec 2 :=
  if s.stateQ = A then
    if w s.Q = 0b11#2 then B else A
  else if s.stateQ = B then
    if w s.Q = 0b00#2 then A else B
  else s.stateD

/-- A rising edge of the divided clock. -/
def tick (reset data : Bool) (s : TickRegs n) : TickRegs n :=
  let stateD := nextState s
  { Q := shiftn reset data s.Q
    stateD := stateD
    stateQ := if reset then A else stateD }

/-- The inputs of `edge_detection` at a clock edge. -/
structure Input where
  reset : Bool
  data : Bool
  deriving DecidableEq, Repr

/-- A rising edge of `clock`.  The divider counts; if that raises the divided clock,
the registers behind it take their own edge. -/
def step (i : Input) (s : EdgeDetection n div) : EdgeDetection n div :=
  let before := ClkDiv.settle i.reset s.clockCnt
  let clockCnt := ClkDiv.step i.reset before
  { clockCnt := clockCnt
    regs :=
      if ClkDiv.clockDiv before = false ∧ ClkDiv.clockDiv clockCnt = true then
        tick i.reset i.data s.regs
      else s.regs }

/-- The output `z`. -/
def z (s : TickRegs n) : Bool := if s.stateQ = B then true else false

/-! ### The shift register decides -/

theorem eq_allOnes_iff (Q : BitVec n) :
    Q = BitVec.allOnes n ↔ ∀ i < n, Q.getLsbD i = true := by
  constructor
  · rintro rfl i hi
    simp [hi]
  · intro h
    exact BitVec.eq_of_getLsbD_eq fun i hi => by simp [h i hi, hi]

theorem eq_zero_iff (Q : BitVec n) : Q = 0#n ↔ ∀ i < n, Q.getLsbD i = false := by
  constructor
  · rintro rfl i _
    simp
  · intro h
    exact BitVec.eq_of_getLsbD_eq fun i hi => by simp [h i hi]

theorem allOnes_ne_zero (hn : 1 ≤ n) : BitVec.allOnes n ≠ 0#n := by
  intro h
  have h0 := (eq_zero_iff _).1 h 0 (by omega)
  simp at h0
  omega

theorem w_eq_ones (hn : 1 ≤ n) (Q : BitVec n) :
    w Q = 0b11#2 ↔ ∀ i < n, Q.getLsbD i = true := by
  rw [← eq_allOnes_iff]
  by_cases h : Q = BitVec.allOnes n
  · subst h
    have hor : (BitVec.allOnes n != 0#n) = true := bne_iff_ne.2 (allOnes_ne_zero hn)
    simp only [w, beq_self_eq_true, hor, iff_true]
    rfl
  · simp only [w, beq_eq_false_iff_ne.2 h, h, iff_false]
    cases (Q != 0#n) <;> decide

theorem w_eq_zeros (hn : 1 ≤ n) (Q : BitVec n) :
    w Q = 0b00#2 ↔ ∀ i < n, Q.getLsbD i = false := by
  rw [← eq_zero_iff]
  by_cases h : Q = 0#n
  · subst h
    have hand : (0#n == BitVec.allOnes n) = false :=
      beq_eq_false_iff_ne.2 (allOnes_ne_zero hn).symm
    simp only [w, bne_self_eq_false, hand, iff_true]
    rfl
  · simp only [w, bne_iff_ne.2 h, h, iff_false]
    cases (Q == BitVec.allOnes n) <;> decide

/-- A tick keeps the state register in the two states. -/
theorem legal_tick {s : TickRegs n} (hs : Legal s.stateQ) (data : Bool) :
    Legal (tick false data s).stateQ := by
  show Legal (nextState s)
  unfold nextState
  rcases hs with hq | hq
  · rw [if_pos hq]
    split_ifs
    · exact Or.inr rfl
    · exact Or.inl rfl
  · have hne : s.stateQ ≠ A := by
      rw [hq]
      decide
    rw [if_neg hne, if_pos hq]
    split_ifs
    · exact Or.inl rfl
    · exact Or.inr rfl

/-- From a state of no code the register takes what the latch holds. -/
theorem stateQ_tick_of_not_legal {s : TickRegs n} (hs : ¬ Legal s.stateQ) (data : Bool) :
    (tick false data s).stateQ = s.stateD ∧ (tick false data s).stateD = s.stateD := by
  simp only [Legal, not_or] at hs
  simp [tick, nextState, hs.1, hs.2]

/-- The output rises when all bits are set. -/
theorem z_tick_ones (hn : 1 ≤ n) {s : TickRegs n} (hs : Legal s.stateQ)
    (hQ : ∀ i < n, s.Q.getLsbD i = true) (data : Bool) : z (tick false data s) = true := by
  have hw := (w_eq_ones hn s.Q).2 hQ
  rcases hs with hq | hq <;> simp [z, tick, nextState, hq, hw, A, B]

/-- It falls when all bits are clear. -/
theorem z_tick_zeros (hn : 1 ≤ n) {s : TickRegs n} (hs : Legal s.stateQ)
    (hQ : ∀ i < n, s.Q.getLsbD i = false) (data : Bool) : z (tick false data s) = false := by
  have hw := (w_eq_zeros hn s.Q).2 hQ
  rcases hs with hq | hq <;> simp [z, tick, nextState, hq, hw, A, B]

/-- Otherwise it stays. -/
theorem z_tick_mixed (hn : 1 ≤ n) {s : TickRegs n} (hs : Legal s.stateQ)
    (h1 : ¬ ∀ i < n, s.Q.getLsbD i = true) (h0 : ¬ ∀ i < n, s.Q.getLsbD i = false)
    (data : Bool) : z (tick false data s) = z s := by
  have hw1 := mt (w_eq_ones hn s.Q).1 h1
  have hw0 := mt (w_eq_zeros hn s.Q).1 h0
  rcases hs with hq | hq
  · simp [z, tick, nextState, hq, hw1, A, B]
  · simp [z, tick, nextState, hq, hw0, A, B]

/-! ### Runs with `reset` low -/

/-- The registers after `t` clock edges with `reset` low. -/
def states (s : EdgeDetection n div) (data : ℕ → Bool) (t : ℕ) : EdgeDetection n div :=
  run step s (fun k => ⟨false, data k⟩) t

/-- One clock: the registers behind the divided clock move on the ticks only. -/
theorem regs_succ (s : EdgeDetection n div) (data : ℕ → Bool) (t : ℕ) :
    (states s data (t + 1)).regs =
      if ClkDiv.TickAt s.clockCnt t then tick false (data t) (states s data t).regs
      else (states s data t).regs :=
  ClkDiv.gated_succ (fun k => (states s data k).clockCnt) (x := fun k => (states s data k).regs)
    (f := tick false) (fun _ => rfl) (fun _ => rfl) t

/-- The samples: the values of `data` at the ticks. -/
noncomputable def samples (s : EdgeDetection n div) (data : ℕ → Bool) : ℕ → Bool :=
  sampled (ClkDiv.TickAt s.clockCnt) data

/-- **Behind the divided clock.**  After `t` clocks the registers are those of a run
over the samples, as many ticks long as there were. -/
theorem regs_run (s : EdgeDetection n div) (data : ℕ → Bool) (t : ℕ) :
    (states s data t).regs =
      run (tick false) s.regs (samples s data) (ClkDiv.ticks s.clockCnt t) :=
  ClkDiv.gated_run (fun k => (states s data k).clockCnt) (x := fun k => (states s data k).regs)
    (fun _ => rfl) (fun _ => rfl) t

/-- The shift register after `t` ticks. -/
theorem Q_run (r : TickRegs n) (d : ℕ → Bool) (t : ℕ) {i : ℕ} (hi : i < n) :
    (run (tick false) r d t).Q.getLsbD i =
      if i + t < n then r.Q.getLsbD (i + t) else d (i + t - n) := by
  have hQ : (run (tick false) r d t).Q = run (shiftn false) r.Q d t :=
    run_map TickRegs.Q id (fun _ _ => rfl) r d t
  rw [hQ]
  exact shiftn_run r.Q d t hi

theorem legal_run {r : TickRegs n} (hr : Legal r.stateQ) (d : ℕ → Bool) (t : ℕ) :
    Legal (run (tick false) r d t).stateQ :=
  run_invariant (fun _ (x : TickRegs n) => Legal x.stateQ) hr (fun k _ hx => legal_tick hx (d k)) t

end EdgeDetection

end BldcFpga
