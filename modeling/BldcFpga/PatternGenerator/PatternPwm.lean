import BldcFpga.Clocked.Counters
import BldcFpga.PatternGenerator.Commutation

/-!
# The PWM of the high side

`pwm_generator.v` and `pattern_PWM.V`: a commutator selects the leg whose high
output is on, and three PWM generators, one per leg, chop it.

* `PwmGenerator`, `PatternPwm` — the two modules;
* `PatternPwm.locked_run` — with equal counters the three generators stay in lock
  step: from the first edge on they show one and the same PWM signal;
* `PatternPwm.on_of_locked` — in a sector the chopped output is that signal on exactly
  one leg, whichever leg it is;
* `patternPwm_onTime` — the time some winding is on in any window of one counter
  period lies between the extremes of the duty input, whatever the commutator does
  meanwhile.
-/

namespace BldcFpga

open Clocked

/-! ## `pwm_generator` -/

/-- The registers of `pwm_generator`: `PWM_out`, and `count_out` of its counter. -/
structure PwmGenerator (n : ℕ) where
  pwmOut : Bool
  countOut : BitVec n
  deriving DecidableEq, Repr

namespace PwmGenerator

variable {n : ℕ}

/-- What `counter_10bits` shows before an edge: `rst` clears it without waiting for
the clock. -/
def settle (rst : Bool) (countOut : BitVec n) : BitVec n := if rst then 0#n else countOut

/-- `counter_10bits` at a rising edge of `clk`. -/
def counter10bits (rst : Bool) (countOut : BitVec n) : BitVec n :=
  if rst then 0#n else countOut + 1#n

/-- A rising edge of `clk`.  The comparison sees the counter as it was before. -/
def step (rst : Bool) (potensioValue : BitVec n) (s : PwmGenerator n) : PwmGenerator n :=
  let countOut := settle rst s.countOut
  { pwmOut := decide (potensioValue > countOut)
    countOut := counter10bits rst countOut }

/-- The output `PWM`. -/
def pwm (enable : Bool) (s : PwmGenerator n) : Bool := if enable then s.pwmOut else false

end PwmGenerator

/-! ## `pattern_PWM` -/

/-- The registers of `pattern_PWM`: the commutator and one generator per leg. -/
structure PatternPwm (dwidth : ℕ) where
  U0 : StateRegs
  U1 : PwmGenerator dwidth
  U2 : PwmGenerator dwidth
  U3 : PwmGenerator dwidth
  deriving DecidableEq, Repr

namespace PatternPwm

variable {dwidth : ℕ}

/-- The inputs of `pattern_PWM` at a clock edge. -/
structure Input (dwidth : ℕ) where
  rst : Bool
  potensioValue : BitVec dwidth
  hall : Hall
  forward : Bool
  deriving DecidableEq, Repr

/-- A rising edge of `clk`; all four instances are clocked by it. -/
def step (i : Input dwidth) (s : PatternPwm dwidth) : PatternPwm dwidth :=
  { U0 := FwRvCommutation.step ⟨i.rst, i.forward, i.hall⟩ s.U0
    U1 := PwmGenerator.step i.rst i.potensioValue s.U1
    U2 := PwmGenerator.step i.rst i.potensioValue s.U2
    U3 := PwmGenerator.step i.rst i.potensioValue s.U3 }

/-- The gate outputs of `pattern_PWM`: the high side chopped, the low side as the
commutator drives it. -/
def out (forward : Bool) (s : PatternPwm dwidth) : Drive :=
  let d := FwRvCommutation.out forward s.U0
  { ha := s.U1.pwm d.ha
    hb := s.U2.pwm d.hb
    hc := s.U3.pwm d.hc
    la := d.la
    lb := d.lb
    lc := d.lc }

/-- The counters of the three generators agree. -/
def Aligned (s : PatternPwm dwidth) : Prop :=
  s.U1.countOut = s.U2.countOut ∧ s.U1.countOut = s.U3.countOut

/-- The three generators agree in the counter and in the PWM signal. -/
def Locked (s : PatternPwm dwidth) : Prop := s.U1 = s.U2 ∧ s.U1 = s.U3

/-- Any clock edge taken with `rst = 1` aligns the counters. -/
theorem aligned_of_rst {i : Input dwidth} (hr : i.rst = true) (s : PatternPwm dwidth) :
    (step i s).Aligned := by
  simp [Aligned, step, PwmGenerator.step, PwmGenerator.counter10bits, hr]

/-- And leads to sector `A`. -/
theorem stateQ_of_rst {i : Input dwidth} (hr : i.rst = true) (s : PatternPwm dwidth) :
    (step i s).U0.stateQ = Commutation.code .A := by
  simp [step, FwRvCommutation.step, hr, Commutation.code]

/-- Aligned counters lock the generators together at the next edge. -/
theorem locked_step (i : Input dwidth) {s : PatternPwm dwidth} (hs : s.Aligned) :
    (step i s).Locked := by
  obtain ⟨h12, h13⟩ := hs
  simp [Locked, step, PwmGenerator.step, ← h12, ← h13]

theorem Locked.aligned {s : PatternPwm dwidth} (hs : s.Locked) : s.Aligned :=
  ⟨congrArg PwmGenerator.countOut hs.1, congrArg PwmGenerator.countOut hs.2⟩

/-- In a sector, locked generators put the one PWM signal on exactly one leg. -/
theorem on_of_locked {s : PatternPwm dwidth} {m : Sector} (hq : s.U0.stateQ = Commutation.code m)
    (hs : s.Locked) (forward : Bool) :
    ∃ x : Leg, ∀ y : Leg, (out forward s).high y = (decide (y = x) && s.U1.pwmOut) := by
  obtain ⟨h12, h13⟩ := hs
  obtain ⟨x, -, -, hx, -⟩ := Sector.drive_oneEach forward m
  refine ⟨x, fun y => ?_⟩
  have hd : FwRvCommutation.out forward s.U0 = m.drive forward := FwRvCommutation.out_code forward hq
  have hy : (m.drive forward).high y = decide (y = x) := by
    rw [← Bool.coe_iff_coe, hx y, decide_eq_true_iff]
  rw [← hy]
  cases y <;> simp [out, Drive.high, hd, PwmGenerator.pwm, ← h12, ← h13]

/-! ## Runs with `rst` low -/

section Run

variable (s : PatternPwm dwidth) (p : ℕ → BitVec dwidth) (hall : ℕ → Hall) (forward : ℕ → Bool)

/-- The registers after `t` clock edges with `rst` low. -/
def regs (t : ℕ) : PatternPwm dwidth :=
  run step s (fun k => ⟨false, p k, hall k, forward k⟩) t

/-- The gate outputs in cycle `t` of such a run. -/
def outputs (t : ℕ) : Drive := out (forward t) (regs s p hall forward t)

variable {s}

/-- The commutator never leaves the sectors. -/
theorem sector_run (hq : ∃ m, s.U0.stateQ = Commutation.code m) (t : ℕ) :
    ∃ m, (regs s p hall forward t).U0.stateQ = Commutation.code m :=
  run_invariant (fun _ (x : PatternPwm dwidth) => ∃ m, x.U0.stateQ = Commutation.code m) hq
    (fun _ _ ⟨_, hm⟩ => ⟨_, FwRvCommutation.stateQ_step _ hm⟩) t

/-- **Lock step.**  From the first edge on the three generators are equal. -/
theorem locked_run (hs : s.Aligned) (t : ℕ) : (regs s p hall forward (t + 1)).Locked := by
  refine locked_step _ ?_
  induction t with
  | zero => exact hs
  | succ t ih => exact (locked_step _ ih).aligned

/-- The counter of the first generator, in closed form. -/
theorem countOut_run (t : ℕ) :
    (regs s p hall forward t).U1.countOut.toNat = (s.U1.countOut.toNat + t) % 2 ^ dwidth :=
  wrapping_toNat (x := fun k => (regs s p hall forward k).U1.countOut) (fun _ => rfl) t

/-- The common PWM signal compares the duty with the counter of the cycle before. -/
theorem pwmOut_run (t : ℕ) :
    (regs s p hall forward (t + 1)).U1.pwmOut = true ↔
      (s.U1.countOut.toNat + t) % 2 ^ dwidth < (p t).toNat := by
  rw [← countOut_run p hall forward t]
  simp [regs, run_succ, step, PwmGenerator.step, PwmGenerator.settle, BitVec.lt_def]

end Run

end PatternPwm

/-- Some high-side output is on. -/
def Drive.anyHigh (d : Drive) : Bool := d.ha || d.hb || d.hc

theorem Drive.anyHigh_iff (d : Drive) : d.anyHigh = true ↔ ∃ x, d.high x = true := by
  simp only [Drive.anyHigh, Bool.or_eq_true]
  constructor
  · rintro ((h | h) | h)
    · exact ⟨.a, h⟩
    · exact ⟨.b, h⟩
    · exact ⟨.c, h⟩
  · rintro ⟨x, hx⟩
    cases x
    · exact Or.inl (Or.inl hx)
    · exact Or.inl (Or.inr hx)
    · exact Or.inr hx

/-- The number of cycles, among `len` from cycle `start` on, in which some winding
is switched on. -/
def onTime (out : ℕ → Drive) (start len : ℕ) : ℕ :=
  Nat.count (fun k => (out (start + k)).anyHigh = true) len

namespace PatternPwm

variable {dwidth : ℕ}

/-- In every cycle after the first edge, some winding is on exactly when the common
PWM signal is. -/
theorem anyHigh_run {s : PatternPwm dwidth} (hq : ∃ m, s.U0.stateQ = Commutation.code m)
    (hs : s.Aligned) (p : ℕ → BitVec dwidth) (hall : ℕ → Hall) (forward : ℕ → Bool) (t : ℕ) :
    (outputs s p hall forward (t + 1)).anyHigh = true ↔
      (s.U1.countOut.toNat + t) % 2 ^ dwidth < (p t).toNat := by
  obtain ⟨m, hm⟩ := sector_run p hall forward hq (t + 1)
  obtain ⟨x, hx⟩ := on_of_locked hm (locked_run p hall forward hs t) (forward (t + 1))
  rw [← pwmOut_run p hall forward t, Drive.anyHigh_iff]
  constructor
  · rintro ⟨y, hy⟩
    rw [outputs, hx y, Bool.and_eq_true] at hy
    exact hy.2
  · intro hon
    exact ⟨x, by rw [outputs, hx x, hon]; simp⟩

end PatternPwm

/-- **The on-time of the inverter.**  Any edge taken with `rst = 1` aligns the counters
and puts the commutator in sector `A`.  For every width, every start with the
commutator in a sector and the counters aligned, and every run with `rst` low: after the first edge at most one high
output is on in any cycle, and in every window of one counter period the number of
cycles with a high output on is at least every lower bound and at most every upper
bound of the duty values sampled at the edges that produced the window, hence equal
to a duty that is held. -/
theorem patternPwm_onTime {dwidth : ℕ} (s : PatternPwm dwidth)
    (hq : ∃ m, s.U0.stateQ = Commutation.code m) (hs : s.Aligned) (p : ℕ → BitVec dwidth)
    (hall : ℕ → Hall) (forward : ℕ → Bool) :
    (∀ (i : PatternPwm.Input dwidth) (s' : PatternPwm dwidth), i.rst = true →
      (PatternPwm.step i s').Aligned ∧
        (PatternPwm.step i s').U0.stateQ = Commutation.code .A) ∧
    (∀ t x y, (PatternPwm.outputs s p hall forward (t + 1)).high x = true →
      (PatternPwm.outputs s p hall forward (t + 1)).high y = true → x = y) ∧
    ∀ t,
      (∀ lo, (∀ k < 2 ^ dwidth, lo ≤ (p (t + k)).toNat) →
        lo ≤ onTime (PatternPwm.outputs s p hall forward) (t + 1) (2 ^ dwidth)) ∧
      (∀ hi, (∀ k < 2 ^ dwidth, (p (t + k)).toNat ≤ hi) →
        onTime (PatternPwm.outputs s p hall forward) (t + 1) (2 ^ dwidth) ≤ hi) ∧
      ∀ c, (∀ k < 2 ^ dwidth, p (t + k) = c) →
        onTime (PatternPwm.outputs s p hall forward) (t + 1) (2 ^ dwidth) = c.toNat := by
  refine ⟨fun i s' hr => ⟨PatternPwm.aligned_of_rst hr s', PatternPwm.stateQ_of_rst hr s'⟩,
    fun t x y hx hy => ?_, fun t => ?_⟩
  · obtain ⟨m, hm⟩ := PatternPwm.sector_run p hall forward hq (t + 1)
    obtain ⟨z, hz⟩ :=
      PatternPwm.on_of_locked hm (PatternPwm.locked_run p hall forward hs t) (forward (t + 1))
    rw [PatternPwm.outputs, hz, Bool.and_eq_true, decide_eq_true_iff] at hx hy
    rw [hx.1, hy.1]
  · have hM : 0 < 2 ^ dwidth := Nat.two_pow_pos dwidth
    -- the window is a count of counter values below a moving threshold
    have hcount : onTime (PatternPwm.outputs s p hall forward) (t + 1) (2 ^ dwidth) =
        Nat.count (fun k => (s.U1.countOut.toNat + t + k) % 2 ^ dwidth < (p (t + k)).toNat)
          (2 ^ dwidth) := by
      refine count_congr fun k _ => ?_
      rw [show t + 1 + k = t + k + 1 by omega, Nat.add_assoc (_ : ℕ) t k]
      exact PatternPwm.anyHigh_run hq hs p hall forward (t + k)
    have hlo : ∀ lo, (∀ k < 2 ^ dwidth, lo ≤ (p (t + k)).toNat) →
        lo ≤ onTime (PatternPwm.outputs s p hall forward) (t + 1) (2 ^ dwidth) := by
      intro lo h
      rw [hcount]
      exact le_count_below ((h 0 hM).trans (p (t + 0)).isLt.le) h
    have hhi : ∀ hi, (∀ k < 2 ^ dwidth, (p (t + k)).toNat ≤ hi) →
        onTime (PatternPwm.outputs s p hall forward) (t + 1) (2 ^ dwidth) ≤ hi := by
      intro hi h
      rw [hcount]
      rcases le_total hi (2 ^ dwidth) with hle | hge
      · exact count_below_le hle h
      · exact (Nat.count_le _).trans hge
    refine ⟨hlo, hhi, fun c hc => le_antisymm (hhi _ ?_) (hlo _ ?_)⟩
    · exact fun k hk => by rw [hc k hk]
    · exact fun k hk => by rw [hc k hk]

/-- A duty of 100 out of 256, held while the codes change at every clock, every third one
is invalid, and the direction is thrown back and forth. -/
theorem patternPwm_onTime_held :
    onTime (PatternPwm.outputs ⟨⟨0#3, 0#3⟩, ⟨false, 0#8⟩, ⟨false, 0#8⟩, ⟨false, 0#8⟩⟩
      (fun _ => 100#8)
      (fun t => if t % 3 = 0 then ⟨true, true, true⟩ else (Sector.next^[t] .A).hall)
      fun t => decide (t % 2 = 0)) 8 (2 ^ 8) = (100#8).toNat :=
  ((patternPwm_onTime ⟨⟨0#3, 0#3⟩, ⟨false, 0#8⟩, ⟨false, 0#8⟩, ⟨false, 0#8⟩⟩ ⟨.A, rfl⟩ ⟨rfl, rfl⟩
    (fun _ => 100#8)
    (fun t => if t % 3 = 0 then ⟨true, true, true⟩ else (Sector.next^[t] .A).hall)
    fun t => decide (t % 2 = 0)).2.2 7).2.2 100#8 fun _ _ => rfl

end BldcFpga
