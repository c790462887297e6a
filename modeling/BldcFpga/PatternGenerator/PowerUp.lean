import BldcFpga.PatternGenerator.PatternPwm

/-!
# The commutator and the PWM without a reset

`DE0_NANO.v` ties the reset of `pattern_PWM` low, so what the registers hold at power-up is
never cleared.  This file says what that means for every contents.

* `Drive.Safe`, `PatternPwm.out_safe` — no contents and no input switch on both outputs of
  a leg, or two legs on one side;
* `fwRvCommutation_recovers_iff` — the commutator finds its way to the hall code exactly
  when the register or the latch holds the code of a sector, and is off for good otherwise;
* `patternPwm_onTime_iff` — a duty that is held is kept in every window of every run
  exactly when the three counters agree at power-up, and if they do not, they never will.
-/

namespace BldcFpga

open Clocked

/-! ## Interlocks -/

/-- At most one output is on on either side, and never both outputs of a leg. -/
structure Drive.Safe (d : Drive) : Prop where
  high_unique : ∀ x y, d.high x = true → d.high y = true → x = y
  low_unique : ∀ x y, d.low x = true → d.low y = true → x = y
  not_both : ∀ x, ¬ (d.high x = true ∧ d.low x = true)

theorem Drive.OneEach.safe {d : Drive} (h : d.OneEach) : d.Safe := by
  obtain ⟨x, y, hne, hhigh, hlow⟩ := h
  refine ⟨fun z w hz hw => ?_, fun z w hz hw => ?_, fun z hz => hne ?_⟩
  · rw [(hhigh z).1 hz, (hhigh w).1 hw]
  · rw [(hlow z).1 hz, (hlow w).1 hw]
  · rw [← (hhigh z).1 hz.1, ← (hlow z).1 hz.2]

/-- Chopping the high side does no harm. -/
theorem Drive.Safe.mono {d d' : Drive} (h : d.Safe)
    (hhigh : ∀ x, d'.high x = true → d.high x = true)
    (hlow : ∀ x, d'.low x = d.low x) : d'.Safe where
  high_unique := fun x y hx hy => h.high_unique x y (hhigh x hx) (hhigh y hy)
  low_unique := fun x y hx hy => h.low_unique x y (hlow x ▸ hx) (hlow y ▸ hy)
  not_both := fun x hx => h.not_both x ⟨hhigh x hx.1, hlow x ▸ hx.2⟩

/-- All six outputs off. -/
def Drive.off : Drive := ⟨false, false, false, false, false, false⟩

/-! ## The commutator -/

namespace FwRvCommutation

/-- The register holds the code of a sector. -/
def InSector (q : BitVec 3) : Prop := ∃ m, q = Commutation.code m

instance : DecidablePred InSector := fun _ => inferInstanceAs (Decidable (∃ _ : Sector, _))

/-- From a code of no sector the next state is what the latch holds. -/
theorem nextState_of_not_inSector :
    ∀ h d q : BitVec 3, ¬ InSector q → nextState h ⟨d, q⟩ = d := by
  decide +kernel

/-- No output is on there. -/
theorem out_of_not_inSector :
    ∀ (forward : Bool) (d q : BitVec 3), ¬ InSector q → out forward ⟨d, q⟩ = Drive.off := by
  decide +kernel

theorem step_of_not_inSector {i : Input} (hr : i.reset = false) {s : StateRegs}
    (hq : ¬ InSector s.stateQ) : step i s = ⟨s.stateD, s.stateD⟩ := by
  have hlatch : nextState i.hall.code s = s.stateD := nextState_of_not_inSector _ _ _ hq
  simp [step, hlatch, hr]

theorem out_safe (forward : Bool) (s : StateRegs) : (out forward s).Safe := by
  by_cases hq : InSector s.stateQ
  · obtain ⟨m, hm⟩ := hq
    rw [out_code forward hm]
    exact (Sector.drive_oneEach forward m).safe
  · rw [show out forward s = Drive.off from out_of_not_inSector forward _ _ hq]
    constructor <;> decide

/-- One edge keeps the register in the sectors. -/
theorem inSector_step (i : Input) {s : StateRegs} (hq : InSector s.stateQ) :
    InSector (step i s).stateQ := by
  obtain ⟨m, hm⟩ := hq
  exact ⟨_, stateQ_step i hm⟩

/-- One edge brings the sector of the latch into the register. -/
theorem inSector_of_step {i : Input} (hr : i.reset = false) {s : StateRegs}
    (hs : InSector s.stateQ ∨ InSector s.stateD) : InSector (step i s).stateQ := by
  by_cases hq : InSector s.stateQ
  · exact inSector_step _ hq
  · rw [step_of_not_inSector hr hq]
    exact hs.resolve_left hq

section Run

variable {s : StateRegs} {inp : ℕ → Input} (hr : ∀ t, (inp t).reset = false)

include hr

/-- After one edge there is a sector, if the register or the latch had one. -/
theorem inSector_run (hs : InSector s.stateQ ∨ InSector s.stateD) {t : ℕ} (ht : 1 ≤ t) :
    InSector (run step s inp t).stateQ := by
  induction t, ht using Nat.le_induction with
  | base => exact inSector_of_step (hr 0) hs
  | succ t _ ih => exact inSector_step _ ih

/-- Without one the register and the latch feed each other for ever. -/
theorem not_inSector_run (hq : ¬ InSector s.stateQ) (hd : ¬ InSector s.stateD) (t : ℕ) :
    ¬ InSector (run step s inp t).stateQ ∧ ¬ InSector (run step s inp t).stateD :=
  run_invariant (fun _ (x : StateRegs) => ¬ InSector x.stateQ ∧ ¬ InSector x.stateD) ⟨hq, hd⟩
    (fun k x ⟨hxq, hxd⟩ => by
      rw [step_of_not_inSector (hr k) hxq]
      exact ⟨hxd, hxd⟩) t

end Run

end FwRvCommutation

open FwRvCommutation in
/-- **When the commutator recovers by itself.**  For every contents of the registers at
power-up: with `reset` low, from the second edge on every valid hall code leads to its
sector in every run, if and only if `state_Q` or the latch `state_D` holds the code of a
sector.  Otherwise no output is ever on, whatever the sensors and `forward` do. -/
theorem fwRvCommutation_recovers_iff (s : StateRegs) :
    ((∀ inp : ℕ → Input, (∀ t, (inp t).reset = false) →
      ∀ t m, 1 ≤ t → Sector.ofHall (inp t).hall = some m →
        (run step s inp (t + 1)).stateQ = Commutation.code m) ↔
      InSector s.stateQ ∨ InSector s.stateD) ∧
    (¬ (InSector s.stateQ ∨ InSector s.stateD) →
      ∀ inp : ℕ → Input, (∀ t, (inp t).reset = false) →
        ∀ t forward, out forward (run step s inp t) = Drive.off) := by
  refine ⟨⟨fun h => ?_, fun hs inp hr t m ht hm => ?_⟩, fun hno inp hr t forward => ?_⟩
  · by_contra hno
    rw [not_or] at hno
    -- the code of sector `A` at every edge
    have hA := h (fun _ => ⟨false, false, Sector.A.hall⟩) (fun _ => rfl) 1 .A le_rfl rfl
    exact (not_inSector_run (fun _ => rfl) hno.1 hno.2 2).1 ⟨_, hA⟩
  · obtain ⟨m₀, hm₀⟩ := inSector_run hr hs ht
    rw [run_succ, stateQ_step (inp t) hm₀, track, hr t, hm]
    rfl
  · rw [not_or] at hno
    exact out_of_not_inSector forward _ _ (not_inSector_run hr hno.1 hno.2 t).1

/-! ## The PWM generators -/

namespace PatternPwm

variable {dwidth : ℕ}

/-- The generator of a leg. -/
def gen (s : PatternPwm dwidth) : Leg → PwmGenerator dwidth
  | .a => s.U1
  | .b => s.U2
  | .c => s.U3

theorem gen_step (i : Input dwidth) (s : PatternPwm dwidth) (x : Leg) :
    (step i s).gen x = PwmGenerator.step i.rst i.potensioValue (s.gen x) := by
  cases x <;> rfl

theorem high_out (forward : Bool) (s : PatternPwm dwidth) (x : Leg) :
    (out forward s).high x = ((FwRvCommutation.out forward s.U0).high x && (s.gen x).pwmOut) := by
  cases x <;> simp [out, Drive.high, gen, PwmGenerator.pwm]

theorem low_out (forward : Bool) (s : PatternPwm dwidth) (x : Leg) :
    (out forward s).low x = (FwRvCommutation.out forward s.U0).low x := by
  cases x <;> rfl

/-- **No contents of the registers is dangerous.** -/
theorem out_safe (forward : Bool) (s : PatternPwm dwidth) : (out forward s).Safe := by
  refine (FwRvCommutation.out_safe forward s.U0).mono (fun x hx => ?_) (low_out forward s)
  rw [high_out, Bool.and_eq_true] at hx
  exact hx.1

/-- Without a sector no gate is on. -/
theorem out_of_not_inSector (forward : Bool) {s : PatternPwm dwidth}
    (hq : ¬ FwRvCommutation.InSector s.U0.stateQ) : out forward s = Drive.off := by
  have hoff : FwRvCommutation.out forward s.U0 = Drive.off :=
    FwRvCommutation.out_of_not_inSector forward _ _ hq
  simp [out, hoff, Drive.off, PwmGenerator.pwm]

/-- A generator at an edge with `rst` low. -/
theorem pwmOut_step {i : Input dwidth} (hr : i.rst = false) (s : PatternPwm dwidth) (x : Leg) :
    ((step i s).gen x).pwmOut = true ↔ (s.gen x).countOut.toNat < i.potensioValue.toNat := by
  simp [gen_step, PwmGenerator.step, PwmGenerator.settle, hr, BitVec.lt_def]

theorem countOut_step {i : Input dwidth} (hr : i.rst = false) (s : PatternPwm dwidth) (x : Leg) :
    ((step i s).gen x).countOut = (s.gen x).countOut + BitVec.ofNat dwidth 1 := by
  simp [gen_step, PwmGenerator.step, PwmGenerator.settle, PwmGenerator.counter10bits, hr]

theorem aligned_iff (s : PatternPwm dwidth) :
    s.Aligned ↔ ∀ x y, (s.gen x).countOut = (s.gen y).countOut := by
  constructor
  · rintro ⟨h12, h13⟩ x y
    cases x <;> cases y <;> simp [gen, ← h12, ← h13]
  · intro h
    exact ⟨h .a .b, h .a .c⟩

/-- With the counters in step, some gate is on after an edge exactly when the duty was above
the counter, whatever `forward` is by then. -/
theorem anyHigh_step {i : Input dwidth} (hr : i.rst = false) {s : PatternPwm dwidth}
    (hq : FwRvCommutation.InSector s.U0.stateQ) (hs : s.Aligned) (forward : Bool) :
    (out forward (step i s)).anyHigh = true ↔ s.U1.countOut.toNat < i.potensioValue.toNat := by
  obtain ⟨m, hm⟩ := hq
  obtain ⟨x, hx⟩ := on_of_locked (FwRvCommutation.stateQ_step ⟨i.rst, i.forward, i.hall⟩ hm)
    (locked_step i hs) forward
  have hpwm : (step i s).U1.pwmOut = true ↔ s.U1.countOut.toNat < i.potensioValue.toNat :=
    pwmOut_step hr s .a
  rw [Drive.anyHigh_iff, ← hpwm]
  constructor
  · rintro ⟨y, hy⟩
    rw [hx y, Bool.and_eq_true] at hy
    exact hy.2
  · intro hon
    refine ⟨x, ?_⟩
    rw [hx x, Bool.and_eq_true]
    exact ⟨decide_eq_true rfl, hon⟩

section Run

variable (s : PatternPwm dwidth) (p : ℕ → BitVec dwidth) (hall : ℕ → Hall) (forward : ℕ → Bool)

/-- Every counter runs on from where it started. -/
theorem countOut_gen_run (x : Leg) (t : ℕ) :
    ((regs s p hall forward t).gen x).countOut.toNat =
      ((s.gen x).countOut.toNat + t) % 2 ^ dwidth :=
  wrapping_toNat (x := fun k => ((regs s p hall forward k).gen x).countOut)
    (fun _ => countOut_step rfl _ x) t

/-- The counters keep their distance. -/
theorem aligned_run_iff (t : ℕ) : (regs s p hall forward t).Aligned ↔ s.Aligned := by
  rw [aligned_iff, aligned_iff]
  refine forall₂_congr fun x y => ?_
  rw [← BitVec.toNat_inj, ← BitVec.toNat_inj, countOut_gen_run, countOut_gen_run]
  have hx := (s.gen x).countOut.isLt
  have hy := (s.gen y).countOut.isLt
  constructor
  · intro h
    have hmod : (s.gen x).countOut.toNat ≡ (s.gen y).countOut.toNat [MOD 2 ^ dwidth] :=
      Nat.ModEq.add_right_cancel' t h
    rwa [Nat.ModEq, Nat.mod_eq_of_lt hx, Nat.mod_eq_of_lt hy] at hmod
  · intro h
    rw [h]

/-- What a leg shows after an edge that sampled the code of a sector. -/
theorem high_run (hq : FwRvCommutation.InSector s.U0.stateQ) {t : ℕ} {m : Sector}
    (hm : Sector.ofHall (hall t) = some m) (x : Leg) :
    (outputs s p hall forward (t + 1)).high x = true ↔
      (m.drive (forward (t + 1))).high x = true ∧
        ((s.gen x).countOut.toNat + t) % 2 ^ dwidth < (p t).toNat := by
  obtain ⟨m₀, hm₀⟩ := sector_run p hall forward hq t
  have hnext : (regs s p hall forward (t + 1)).U0.stateQ = Commutation.code m := by
    have hstep := FwRvCommutation.stateQ_step ⟨false, forward t, hall t⟩ hm₀
    simp only [track, hm] at hstep
    exact hstep
  have hpwm : ((regs s p hall forward (t + 1)).gen x).pwmOut = true ↔
      ((regs s p hall forward t).gen x).countOut.toNat < (p t).toNat := pwmOut_step rfl _ x
  rw [outputs, high_out, Bool.and_eq_true, FwRvCommutation.out_code _ hnext, hpwm, countOut_gen_run]

end Run

/-- A sector in which the high output of a leg is on backwards. -/
def onSector : Leg → Sector
  | .a => .A
  | .b => .C
  | .c => .E

theorem high_onSector :
    ∀ x y : Leg, ((onSector x).drive false).high y = true ↔ y = x := by decide

/-- The codes that keep away from every pulse of legs `x` and `y`: that of `x` while leg `y`
has its pulse, and that of `y` otherwise. -/
def dodging (s : PatternPwm dwidth) (x y : Leg) (t : ℕ) : Hall :=
  if ((s.gen y).countOut.toNat + t) % 2 ^ dwidth = 0 then (onSector x).hall else (onSector y).hall

/-- With a duty of 1 and two counters that differ, no leg need ever be on. -/
theorem anyHigh_dodging {s : PatternPwm dwidth} (hq : FwRvCommutation.InSector s.U0.stateQ)
    {x y : Leg} (hne : (s.gen x).countOut ≠ (s.gen y).countOut) (t : ℕ) :
    (outputs s (fun _ => BitVec.ofNat dwidth 1) (dodging s x y) (fun _ => false)
      (t + 1)).anyHigh = false := by
  have hduty : (BitVec.ofNat dwidth 1).toNat ≤ 1 := by
    rw [BitVec.toNat_ofNat]
    exact Nat.mod_le _ _
  rw [← Bool.not_eq_true, Drive.anyHigh_iff]
  rintro ⟨z, hz⟩
  by_cases hpulse : ((s.gen y).countOut.toNat + t) % 2 ^ dwidth = 0
  · have hcode : Sector.ofHall (dodging s x y t) = some (onSector x) := by
      rw [dodging, if_pos hpulse, Sector.ofHall_hall]
    rw [high_run _ _ _ _ hq hcode, high_onSector] at hz
    obtain ⟨rfl, hlt⟩ := hz
    have hzero : ((s.gen z).countOut.toNat + t) % 2 ^ dwidth = 0 := by omega
    -- both counters would show zero
    refine hne (BitVec.eq_of_toNat_eq ?_)
    have hmod : (s.gen z).countOut.toNat ≡ (s.gen y).countOut.toNat [MOD 2 ^ dwidth] :=
      Nat.ModEq.add_right_cancel' t (hzero.trans hpulse.symm)
    rwa [Nat.ModEq, Nat.mod_eq_of_lt (s.gen z).countOut.isLt,
      Nat.mod_eq_of_lt (s.gen y).countOut.isLt] at hmod
  · have hcode : Sector.ofHall (dodging s x y t) = some (onSector y) := by
      rw [dodging, if_neg hpulse, Sector.ofHall_hall]
    rw [high_run _ _ _ _ hq hcode, high_onSector] at hz
    obtain ⟨rfl, hlt⟩ := hz
    omega

/-- A duty that is held, with the counters in step. -/
theorem onTime_held {s : PatternPwm dwidth} (hq : FwRvCommutation.InSector s.U0.stateQ)
    (hs : s.Aligned) (c : BitVec dwidth) (hall : ℕ → Hall) (forward : ℕ → Bool) (t : ℕ) :
    onTime (outputs s (fun _ => c) hall forward) (t + 1) (2 ^ dwidth) = c.toNat := by
  rw [← count_below c.isLt.le (s.U1.countOut.toNat + t)]
  refine count_congr fun k _ => ?_
  rw [show t + 1 + k = t + k + 1 by omega, Nat.add_assoc (_ : ℕ) t k]
  exact anyHigh_run hq hs _ hall forward (t + k)

end PatternPwm

open PatternPwm FwRvCommutation in
/-- **When a held duty is kept.**  For every width and every contents of the registers with
the commutator in a sector: with `rst` low, in every run with a duty that is held, every
window of one counter period from the first edge on has some high output on for exactly
that many cycles, if and only if the three counters agree at power-up.  They agree at some
moment of a run only if they do so then. -/
theorem patternPwm_onTime_iff {dwidth : ℕ} (s : PatternPwm dwidth)
    (hq : InSector s.U0.stateQ) :
    ((∀ (c : BitVec dwidth) (hall : ℕ → Hall) (forward : ℕ → Bool) (t : ℕ),
      onTime (outputs s (fun _ => c) hall forward) (t + 1) (2 ^ dwidth) = c.toNat) ↔
        s.Aligned) ∧
    ∀ p hall forward t, (regs s p hall forward t).Aligned → s.Aligned := by
  refine ⟨⟨fun h => ?_, fun hs => onTime_held hq hs⟩,
    fun p hall forward t => (aligned_run_iff s p hall forward t).1⟩
  rw [aligned_iff]
  intro x y
  by_contra hne
  have hwide : 1 < 2 ^ dwidth := by
    have hx := (s.gen x).countOut.isLt
    have hy := (s.gen y).countOut.isLt
    have : (s.gen x).countOut.toNat ≠ (s.gen y).countOut.toNat := fun heq =>
      hne (BitVec.eq_of_toNat_eq heq)
    omega
  have hone := h (BitVec.ofNat dwidth 1) (dodging s x y) (fun _ => false) 0
  have hnone : onTime (outputs s (fun _ => BitVec.ofNat dwidth 1) (dodging s x y)
      fun _ => false) (0 + 1) (2 ^ dwidth) = 0 := by
    refine Nat.count_of_forall_not fun k _ => ?_
    rw [show 0 + 1 + k = k + 1 by omega, anyHigh_dodging hq hne]
    exact Bool.false_ne_true
  rw [hnone, BitVec.toNat_ofNat, Nat.mod_eq_of_lt hwide] at hone
  exact Nat.zero_ne_one hone

/-- The board's width, with the second counter one ahead. -/
theorem patternPwm_onTime_iff_apart :
    ¬ ∀ (c : BitVec 8) (hall : ℕ → Hall) (forward : ℕ → Bool) (t : ℕ),
      onTime (PatternPwm.outputs ⟨⟨0#3, 0#3⟩, ⟨false, 0#8⟩, ⟨false, 1#8⟩, ⟨false, 0#8⟩⟩
        (fun _ => c) hall forward) (t + 1) (2 ^ 8) = c.toNat := fun h =>
  absurd (((patternPwm_onTime_iff ⟨⟨0#3, 0#3⟩, ⟨false, 0#8⟩, ⟨false, 1#8⟩, ⟨false, 0#8⟩⟩
    ⟨.A, rfl⟩).1.1 h).1) (by decide)

end BldcFpga
