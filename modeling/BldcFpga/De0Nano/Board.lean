import BldcFpga.Adc.Restart
import BldcFpga.Clocked.Interleaving
import BldcFpga.De0Nano.SpeedMeter
import BldcFpga.PatternGenerator.PowerUp

/-!
# The board

`DE0_NANO.v` wires the motor drive `U0`, the converter interface `U2` and the speed meter
`U4`, `U5` together.  They do not share a clock: the drive and the meter run on `CLOCK_50`,
the interface on the clocks of the converter and on the two keys, and switch and sensors
move when they like.  So a run of the board is a sequence of events in any order.

* `De0Nano`, `De0Nano.step` — the registers and what an event does to them;
* `De0Nano.U2_run`, `De0Nano.meter_run` — interface and meter see their own events only;
* `de0Nano_gates` — no order of events, from no contents at power-up, switches on both
  gates of a leg.
-/

namespace BldcFpga

open Clocked

/-- The pins that are read as levels: the sensors on `GPIO_1` and the switch `SW[0]`. -/
structure Pins where
  hall : Hall
  sw0 : Bool
  deriving DecidableEq, Repr

/-- What can happen next: `CLOCK_50` rises, sensors and switch take new levels, or one of
the lines of the converter interface has an edge, with `ADC_SDAT` at its level. -/
inductive Event
  | clock50
  | pins (p : Pins)
  | adc (edge : AdcEdge) (adcSdat : Bool)
  deriving DecidableEq, Repr

/-- The registers of the board, and the levels of the pins.  `meter` holds `U4` and `U5`. -/
structure De0Nano where
  pins : Pins
  U0 : PatternPwm 8
  U2 : AdcCtrl
  meter : SpeedMeter 20 4
  deriving DecidableEq, Repr

namespace De0Nano

/-- The wire `ADC_data`, which `LED` shows as well. -/
def adcData (s : De0Nano) : BitVec 8 := s.U2.oLED

/-- What an event does.  The wire `rst` is tied to `1'b0`, and `iCH` to `3'b000`. -/
def step (e : Event) (s : De0Nano) : De0Nano :=
  match e with
  | .clock50 =>
    { s with
      U0 := PatternPwm.step ⟨false, s.adcData, s.pins.hall, s.pins.sw0⟩ s.U0
      meter := SpeedMeter.step SpeedCalculation.maxValueDefault ⟨false, s.pins.hall⟩ s.meter }
  | .pins p => { s with pins := p }
  | .adc edge adcSdat => { s with U2 := AdcCtrl.step ⟨edge, adcSdat, 0#3⟩ s.U2 }

/-- The gates `pwm_ha` to `pwm_lc`.  The switch acts on them at once. -/
def gates (s : De0Nano) : Drive := PatternPwm.out s.pins.sw0 s.U0

/-- Every register at zero, and both keys up. -/
def powerUp : De0Nano where
  pins := ⟨⟨false, false, false⟩, false⟩
  U0 := ⟨⟨0#3, 0#3⟩, ⟨false, 0#8⟩, ⟨false, 0#8⟩, ⟨false, 0#8⟩⟩
  U2 := AdcCtrl.idle true
  meter := SpeedMeter.powerUp 20 4

/-- An edge of the converter interface, as the interface sees it. -/
def adcInput : Event → Option AdcInput
  | .adc edge adcSdat => some ⟨edge, adcSdat, 0#3⟩
  | _ => none

section Run

variable (s : De0Nano) (ev : ℕ → Event)

/-- The board after `t` events. -/
def states (t : ℕ) : De0Nano := run step s ev t

theorem states_succ (t : ℕ) : states s ev (t + 1) = step (ev t) (states s ev t) := rfl

/-- The inputs of the converter interface. -/
def toAdc (t : ℕ) : Option AdcInput := adcInput (ev t)

/-- The inputs of the speed meter: the code at every edge of `CLOCK_50`. -/
def toMeter (t : ℕ) : Option Hall :=
  if ev t = .clock50 then some (states s ev t).pins.hall else none

/-- The number of edges of `CLOCK_50` among the first `t` events. -/
def clocks (t : ℕ) : ℕ := Nat.count (fun k => ev k = .clock50) t

theorem fed_toMeter (t : ℕ) : fed (toMeter s ev) t = clocks ev t := by
  refine count_congr fun k _ => ?_
  unfold toMeter
  split_ifs with hk <;> simp [hk]

variable {s ev}

/-- The interface stands still at every edge but its own. -/
theorem U2_none {t : ℕ} (ht : toAdc ev t = none) :
    (states s ev (t + 1)).U2 = (states s ev t).U2 := by
  simp only [states_succ]
  cases hev : ev t with
  | adc edge adcSdat => simp [toAdc, adcInput, hev] at ht
  | clock50 => rfl
  | pins p => rfl

/-- **The interface runs on its own edges.** -/
theorem U2_run {adc : ℕ → AdcInput} (hadc : Feeds (toAdc ev) adc) (t : ℕ) :
    (states s ev t).U2 = AdcCtrl.states s.U2 adc (fed (toAdc ev) t) := by
  refine run_feeds (x := fun k => (states s ev k).U2) hadc (fun k i hi => ?_)
    (fun k hk => U2_none hk) t
  simp only [states_succ]
  cases hev : ev k with
  | adc edge adcSdat =>
    simp only [toAdc, adcInput, hev, Option.some.injEq] at hi
    rw [← hi]
    rfl
  | clock50 => simp [toAdc, adcInput, hev] at hi
  | pins p => simp [toAdc, adcInput, hev] at hi

/-- Without one it shows what it showed. -/
theorem adcData_kept {a b : ℕ} (hab : a ≤ b) (hno : ∀ k, a ≤ k → k < b → toAdc ev k = none) :
    (states s ev b).adcData = (states s ev a).adcData :=
  kept (x := fun k => (states s ev k).adcData) (P := fun k => toAdc ev k ≠ none)
    (fun _ hk => congrArg AdcCtrl.oLED (U2_none (not_not.1 hk))) hab
    fun k hak hkb => not_not.2 (hno k hak hkb)

/-- **The meter runs on the codes at its clock**, whatever the rest of the board does. -/
theorem meter_run {hall : ℕ → Hall} (hhall : Feeds (toMeter s ev) hall) (t : ℕ) :
    (states s ev t).meter =
      SpeedMeter.states SpeedCalculation.maxValueDefault s.meter hall (clocks ev t) := by
  rw [← fed_toMeter s]
  let clock (h : Hall) : SpeedMeter 20 4 → SpeedMeter 20 4 :=
    SpeedMeter.step SpeedCalculation.maxValueDefault ⟨false, h⟩
  have hrun : (states s ev t).meter = run clock s.meter hall (fed (toMeter s ev) t) := by
    refine run_feeds (x := fun k => (states s ev k).meter) hhall (fun k h hh => ?_)
      (fun k hk => ?_) t
    · simp only [states_succ]
      rw [toMeter] at hh
      split_ifs at hh with hev
      rw [hev, ← Option.some.inj hh]
      rfl
    · simp only [states_succ]
      rw [toMeter] at hk
      split_ifs at hk with hev
      cases hev' : ev k with
      | clock50 => exact absurd hev' hev
      | pins p => rfl
      | adc edge adcSdat => rfl
  exact hrun.trans (run_map id (fun h : Hall => (⟨false, h⟩ : EdgeDetectionWrapper.Input))
    (fun _ _ => rfl) s.meter hall _)

/-- The drive moves at the edges of `CLOCK_50` only. -/
theorem U0_kept {a b : ℕ} (hab : a ≤ b) (hno : ∀ k, a ≤ k → k < b → ev k ≠ .clock50) :
    (states s ev b).U0 = (states s ev a).U0 := by
  refine kept (x := fun k => (states s ev k).U0) (P := fun k => ev k = .clock50) ?_ hab hno
  intro k hk
  simp only [states_succ]
  cases hev : ev k with
  | clock50 => exact absurd hev hk
  | pins p => rfl
  | adc edge adcSdat => rfl

theorem U0_clock {t : ℕ} (hev : ev t = .clock50) :
    (states s ev (t + 1)).U0 = PatternPwm.step ⟨false, (states s ev t).adcData,
      (states s ev t).pins.hall, (states s ev t).pins.sw0⟩ (states s ev t).U0 := by
  rw [states_succ, hev]
  rfl

/-! ## The gates -/

/-- The commutator keeps a sector in the register or in the latch. -/
theorem sector_states (hs : FwRvCommutation.InSector s.U0.U0.stateQ ∨
    FwRvCommutation.InSector s.U0.U0.stateD) (t : ℕ) :
    FwRvCommutation.InSector (states s ev t).U0.U0.stateQ ∨
      FwRvCommutation.InSector (states s ev t).U0.U0.stateD := by
  induction t with
  | zero => exact hs
  | succ t ih =>
    by_cases hev : ev t = .clock50
    · rw [U0_clock hev]
      exact Or.inl (FwRvCommutation.inSector_of_step rfl ih)
    · rwa [U0_kept (Nat.le_succ t) fun k hk hkt => by rwa [show k = t by omega]]

/-- A sector in the register is never lost. -/
theorem sector_mono {a t : ℕ} (ha : FwRvCommutation.InSector (states s ev a).U0.U0.stateQ)
    (hat : a ≤ t) : FwRvCommutation.InSector (states s ev t).U0.U0.stateQ := by
  induction t, hat using Nat.le_induction with
  | base => exact ha
  | succ t _ ih =>
    by_cases hev : ev t = .clock50
    · rw [U0_clock hev]
      exact FwRvCommutation.inSector_step _ ih
    · rwa [U0_kept (Nat.le_succ t) fun k hk hkt => by rwa [show k = t by omega]]

/-- After an edge of `CLOCK_50` the register has one. -/
theorem sector_after (hs : FwRvCommutation.InSector s.U0.U0.stateQ ∨
    FwRvCommutation.InSector s.U0.U0.stateD) {i t : ℕ} (hi : ev i = .clock50) (hit : i < t) :
    FwRvCommutation.InSector (states s ev t).U0.U0.stateQ := by
  refine sector_mono ?_ (show i + 1 ≤ t from hit)
  rw [U0_clock hi]
  exact FwRvCommutation.inSector_of_step rfl (sector_states hs i)

/-- Without a sector in either, there will be none. -/
theorem no_sector_states (hq : ¬ FwRvCommutation.InSector s.U0.U0.stateQ)
    (hd : ¬ FwRvCommutation.InSector s.U0.U0.stateD) (t : ℕ) :
    ¬ FwRvCommutation.InSector (states s ev t).U0.U0.stateQ ∧
      ¬ FwRvCommutation.InSector (states s ev t).U0.U0.stateD := by
  induction t with
  | zero => exact ⟨hq, hd⟩
  | succ t ih =>
    by_cases hev : ev t = .clock50
    · rw [U0_clock hev]
      simp only [PatternPwm.step]
      rw [FwRvCommutation.step_of_not_inSector rfl ih.1]
      exact ⟨ih.2, ih.2⟩
    · rwa [U0_kept (Nat.le_succ t) fun k hk hkt => by rwa [show k = t by omega]]

end Run

end De0Nano

open De0Nano FwRvCommutation in
/-- **The gates of the board.**  For every contents of the registers at power-up and every
sequence of clock edges, edges of the converter interface and moves of switch and sensors:
at every moment no leg has both gates on and no two gates are on on one side.  If the
commutator's register or latch wakes up with the code of a sector, from the first edge of
`CLOCK_50` on exactly one low gate is on; if neither does, no gate is ever on. -/
theorem de0Nano_gates (s : De0Nano) (ev : ℕ → Event) :
    (∀ t, (gates (states s ev t)).Safe) ∧
    (InSector s.U0.U0.stateQ ∨ InSector s.U0.U0.stateD →
      ∀ i t, ev i = .clock50 → i < t →
        ∃ x, ∀ y, (gates (states s ev t)).low y = true ↔ y = x) ∧
    (¬ (InSector s.U0.U0.stateQ ∨ InSector s.U0.U0.stateD) →
      ∀ t, gates (states s ev t) = Drive.off) := by
  refine ⟨fun t => PatternPwm.out_safe _ _, fun hs i t hi hit => ?_, fun hno t => ?_⟩
  · obtain ⟨m, hm⟩ := sector_after hs hi hit
    obtain ⟨-, x, -, -, hx⟩ := Sector.drive_oneEach (states s ev t).pins.sw0 m
    refine ⟨x, fun y => ?_⟩
    rw [gates, PatternPwm.low_out, FwRvCommutation.out_code _ hm]
    exact hx y
  · rw [not_or] at hno
    exact PatternPwm.out_of_not_inSector _ (no_sector_states hno.1 hno.2 t).1

end BldcFpga
