import BldcFpga.EdgeDetect.Wrapper
import BldcFpga.SpeedCalculation.Channels

/-!
# From the hall sensors to the speed

The instances `U4` and `U5` of `DE0_NANO.v`: the three filters, and behind them the three
counters with their tables and the averaging.

* `SpeedMeter` — the two modules and the wires `hall_f_a`, `hall_f_b` and `hall_f_c`;
* `SpeedMeter.channel_counts` — every window counts the rises behind the filters;
* `SpeedMeter.rpm_window` — the speed shown is one rise of `a`, one of `b` and two of `c`
  per unit, less one when a row 123 of the table is read;
* `speedMeter_accuracy` — so it is two thirds of the steps of a turning motor, up to the
  length of one electrical revolution;
* `speedMeter_noDrift` — over any number of windows the speeds add up to the raw rises;
* `speedMeter_rest` — noise on the lines of a motor at rest adds up to four at most;
* `speedMeter_stuck` — filters that wake up in no state come to show a motor at rest for ever.
-/

namespace BldcFpga

open Clocked SpeedPath

/-- The instances `U4` and `U5` of the board. -/
structure SpeedMeter (n div : ℕ) where
  U4 : EdgeDetectionWrapper n div
  U5 : SpeedCalculationWrapper
  deriving DecidableEq, Repr

namespace SpeedMeter

variable {n div : ℕ}

/-- A rising edge of `CLOCK_50`. -/
def step (maxValue : ℕ) (i : EdgeDetectionWrapper.Input) (s : SpeedMeter n div) :
    SpeedMeter n div :=
  let U4 := EdgeDetectionWrapper.step i s.U4
  { U4 := U4
    U5 := SpeedCalculationWrapper.step maxValue
      ⟨i.reset, U4.hallF.a, U4.hallF.b, U4.hallF.c⟩ s.U5 }

/-- The wire `rpm`. -/
def rpm (s : SpeedMeter n div) : BitVec 10 := SpeedCalculationWrapper.rpm s.U5

section Run

variable (maxValue : ℕ) (s : SpeedMeter n div) (hall : ℕ → Hall)

/-- The registers after `t` clocks with `rst` low. -/
def states (t : ℕ) : SpeedMeter n div := run (step maxValue) s (fun k => ⟨false, hall k⟩) t

/-- The debounced code. -/
def hallF (t : ℕ) : Hall := (EdgeDetectionWrapper.states s.U4 hall t).hallF

/-- The filtered lines as the counters see them, after each edge. -/
def sensors : SpeedCalculationWrapper.Sensors where
  a := fun k => (hallF s hall (k + 1)).a
  b := fun k => (hallF s hall (k + 1)).b
  c := fun k => (hallF s hall (k + 1)).c

theorem U4_run (t : ℕ) : (states maxValue s hall t).U4 = EdgeDetectionWrapper.states s.U4 hall t :=
  run_map U4 id (fun _ _ => rfl) s _ t

theorem U5_run (t : ℕ) :
    (states maxValue s hall t).U5 =
      SpeedCalculationWrapper.states maxValue s.U5 (sensors s hall) t := by
  induction t with
  | zero => rfl
  | succ t ih =>
    have hU4 := U4_run maxValue s hall (t + 1)
    rw [SpeedCalculationWrapper.states, run_succ, ← SpeedCalculationWrapper.states, ← ih]
    simp only [sensors, hallF, ← hU4]
    rfl

end Run

/-- Filters cleared and in state `A`; both counters of every channel cleared.  What the
latches, the tables and the dividers hold does not matter. -/
structure Ready (s : SpeedMeter n div) : Prop where
  filters : ∃ stateD, s.U4 = EdgeDetectionWrapper.start n div stateD
  count_eq : ∀ x, (s.U5.channel x).speed.count = 0#26
  mecCycles_eq : ∀ x, (s.U5.channel x).speed.mecCycles = 0#8
  hallSensor_eq : ∀ x, (s.U5.channel x).speed.hallSensor = false

/-! ## Windows -/

section Windows

variable {maxValue : ℕ} {s : SpeedMeter n div} (hs : s.Ready) (hall : ℕ → Hall)

/-- The rises of a filtered line in window `q`. -/
def count (maxValue : ℕ) (s : SpeedMeter n div) (hall : ℕ → Hall) (x : Leg) (q : ℕ) : ℕ :=
  risesIn (fun t => (hallF s hall t).line x) (q * (maxValue + 1)) (maxValue + 1)

/-- A window that is a multiple of the divider's period is no single clock. -/
theorem pos_of_dvd (hdiv : 2 ≤ div) (hP : 2 ^ div ∣ maxValue + 1) : 1 ≤ maxValue := by
  have hle := Nat.le_of_dvd (Nat.succ_pos _) hP
  have hperiod : 2 ^ 1 ≤ 2 ^ div := Nat.pow_le_pow_right (by norm_num) (by omega)
  omega

/-- The waveform of a channel is the filtered line. -/
theorem wave_channel (hlow : ∀ x, (hallF s hall 0).line x = (s.U5.channel x).speed.hallSensor)
    (x : Leg) :
    SpeedCalculation.wave (s.U5.channel x).speed (fun k => (hallF s hall (k + 1)).line x) =
      fun t => (hallF s hall t).line x := by
  funext t
  cases t with
  | zero => exact (hlow x).symm
  | succ t => rfl

include hs

/-- The lines are the debounced waveforms of the single channels. -/
theorem line_hallF : ∃ stateD : Leg → BitVec 2, ∀ x,
    (fun t => (hallF s hall t).line x) = hallWave (stateD x) (fun k => (hall k).line x) n div := by
  obtain ⟨stateD, hU4⟩ := hs.filters
  refine ⟨stateD, fun x => funext fun t => ?_⟩
  rw [hallF, hU4]
  exact EdgeDetectionWrapper.line_start hall stateD x t

/-- **Every window counts its rises**, the one at its last edge included: there is none. -/
theorem channel_counts (hM : maxValue < 2 ^ 26) (hdiv : 2 ≤ div) (hP : 2 ^ div ∣ maxValue + 1)
    (q : ℕ) (x : Leg) :
    Channel.Counts maxValue (s.U5.channel x) (fun k => (hallF s hall (k + 1)).line x)
      (q * (maxValue + 1)) (count maxValue s hall x q) := by
  have hpos := pos_of_dvd hdiv hP
  obtain ⟨stateD, hline⟩ := line_hallF hs hall
  have hlow : ∀ x, (hallF s hall 0).line x = (s.U5.channel x).speed.hallSensor := fun x =>
    (congrFun (hline x) 0).trans (hs.hallSensor_eq x).symm
  have hcounts : Channel.Counts maxValue (s.U5.channel x)
      (fun k => (hallF s hall (k + 1)).line x) (q * (maxValue + 1)) _ :=
    Channel.counts_window hM hpos (hs.count_eq x) (hs.mecCycles_eq x) q
  have hlast : ¬ Rise (fun t => (hallF s hall t).line x) (q * (maxValue + 1) + maxValue) := by
    rw [hline]
    intro hr
    refine (rise_off_boundary hdiv hP (stateD x) _ hr).1 ?_
    rw [Nat.mul_add_mod', Nat.mod_eq_of_lt (Nat.lt_succ_self _)]
  rw [wave_channel hall hlow] at hcounts
  rw [count, risesIn_succ, if_neg hlast]
  exact hcounts

/-- **The speed shown** from two clocks after a window until the next one ends.  A count
of 123 in any channel costs one unit. -/
theorem rpm_window (hM : maxValue < 2 ^ 26) (hdiv : 2 ≤ div) (hP : 2 ^ div ∣ maxValue + 1)
    (q : ℕ) (hrow : ∀ x, count maxValue s hall x q ≤ 200) {m : ℕ} (hm : 2 ≤ m)
    (hle : m ≤ maxValue + 1) :
    (states maxValue s hall ((q + 1) * (maxValue + 1) + m)).rpm.toNat +
        (if ∃ x, count maxValue s hall x q = 123 then 1 else 0) =
      count maxValue s hall .a q + count maxValue s hall .b q + 2 * count maxValue s hall .c q := by
  have hcounts : SpeedCalculationWrapper.Counts maxValue s.U5 (sensors s hall)
      (q * (maxValue + 1)) (count maxValue s hall .a q) (count maxValue s hall .b q)
      (count maxValue s hall .c q) :=
    ⟨channel_counts hs hall hM hdiv hP q .a, channel_counts hs hall hM hdiv hP q .b,
      channel_counts hs hall hM hdiv hP q .c⟩
  have htime : (q + 1) * (maxValue + 1) + m = q * (maxValue + 1) + maxValue + 1 + m := by ring
  rw [htime, rpm, U5_run, if_congr Leg.exists_iff rfl rfl]
  exact hcounts.rpm_add hM (pos_of_dvd hdiv hP) (hrow .a) (hrow .b) (hrow .c) hm hle

/-! ## Turning motors -/

/-- **The speed is that of the motor.**  Three times the speed shown is twice the number of
steps in view during the window, up to ten, and three more for a row 123. -/
theorem rpm_steps (hn : 1 ≤ n) (hdiv : 2 ≤ div) (hM : maxValue < 2 ^ 26)
    (hP : 2 ^ div ∣ maxValue + 1) {m : ℕ → Sector}
    (hm : ∀ t, Sector.ofHall (hall t) = some (m t)) (hturn : Turns m)
    (hphase : ∀ x, PhasesAtLeast (n * 2 ^ div) fun t => (hall t).line x) {q : ℕ}
    (hq : EdgeDetectionWrapper.shown n div ≤ q * (maxValue + 1)) :
    let start := seen n div (q * (maxValue + 1)) - 1
    let len := seen n div ((q + 1) * (maxValue + 1)) - seen n div (q * (maxValue + 1))
    changesIn m start len ≤ 1195 → ∀ k, 2 ≤ k → k ≤ maxValue + 1 →
      3 * (states maxValue s hall ((q + 1) * (maxValue + 1) + k)).rpm.toNat ≤
          2 * changesIn m start len + 10 ∧
        2 * changesIn m start len ≤
          3 * (states maxValue s hall ((q + 1) * (maxValue + 1) + k)).rpm.toNat + 13 := by
  intro start len hsteps k hk hle
  obtain ⟨stateD, hline⟩ := line_hallF hs hall
  have hraw : ∀ x, (fun t => (hall t).line x) = fun t => (m t).hall.line x := fun x =>
    funext fun t => congrArg (Hall.line · x) (Sector.hall_of_ofHall (hm t))
  -- a channel counts the rises of its sensor in the stretch in view
  have hcount : ∀ x, count maxValue s hall x q =
      risesIn (fun t => (m t).hall.line x) start len := by
    intro x
    have hsucc : (q + 1) * (maxValue + 1) = q * (maxValue + 1) + (maxValue + 1) := by ring
    rw [count, hline, EdgeDetectionWrapper.risesIn_line hn (by omega) (stateD x) (hphase x) hq,
      hraw, ← hsucc]
  have hbounds : ∀ x, 6 * count maxValue s hall x q ≤ changesIn m start len + 5 ∧
      changesIn m start len ≤ 6 * count maxValue s hall x q + 5 := by
    intro x
    rw [hcount]
    exact hturn.risesIn_bounds x start len
  have hshown := rpm_window hs hall hM hdiv hP q
    (fun x => by have := (hbounds x).1; omega) hk hle
  have ha := hbounds .a
  have hb := hbounds .b
  have hc := hbounds .c
  split_ifs at hshown <;> omega

/-! ## Sums of speeds -/

end Windows

/-- Everything cleared, with the filters in state `A`. -/
def cleared (n div : ℕ) : SpeedMeter n div :=
  ⟨EdgeDetectionWrapper.start n div fun _ => EdgeDetection.A, SpeedCalculationWrapper.powerUp⟩

/-- Every register at zero, so the filters are in no state. -/
def powerUp (n div : ℕ) : SpeedMeter n div :=
  let filter : EdgeDetection n div := ⟨BitVec.ofNat div 0, ⟨BitVec.ofNat n 0, 0#2, 0#2⟩⟩
  ⟨⟨filter, filter, filter⟩, SpeedCalculationWrapper.powerUp⟩

theorem ready_cleared (n div : ℕ) : (cleared n div).Ready where
  filters := ⟨fun _ => EdgeDetection.A, rfl⟩
  count_eq := by intro x; cases x <;> rfl
  mecCycles_eq := by intro x; cases x <;> rfl
  hallSensor_eq := by intro x; cases x <;> rfl

end SpeedMeter

/-! ## The board -/

open SpeedCalculation SpeedMeter in
/-- **The speed on the board.**  From cleared filters and counters, with `rst` low, for a
motor that turns in one direction and whose sensors each keep their level for at least 320
clocks: the speed shown after every window but the first belongs to a stretch of clocks
that begins and ends at most 641 clocks before the window does.  If the motor makes at most
1195 steps in it, three times the speed is twice their number, at most 10 above and at most
13 below, from two clocks after the window until the next one ends. -/
theorem speedMeter_accuracy (s : SpeedMeter 20 4) (hs : s.Ready) (hall : ℕ → Hall)
    (m : ℕ → Sector) (hm : ∀ t, Sector.ofHall (hall t) = some (m t)) (hturn : Turns m)
    (hphase : ∀ x, PhasesAtLeast 320 fun t => (hall t).line x) (q : ℕ) :
    let window := maxValueDefault + 1
    let rpm := fun k => (states maxValueDefault s hall ((q + 2) * window + k)).rpm.toNat
    ∃ start len, start < (q + 1) * window ∧ (q + 1) * window ≤ start + 641 ∧
      start + len < (q + 2) * window ∧ (q + 2) * window ≤ start + len + 641 ∧
      (changesIn m start len ≤ 1195 → ∀ k, 2 ≤ k → k ≤ window →
        3 * rpm k ≤ 2 * changesIn m start len + 10 ∧
          2 * changesIn m start len ≤ 3 * rpm k + 13) := by
  intro window rpm
  have hn : 1 ≤ 20 := by decide
  have hdiv : 1 ≤ 4 := by decide
  have hwide : 513 ≤ window := Nat.succ_le_succ le_maxValueDefault
  have hfirst : EdgeDetectionWrapper.shown 20 4 ≤ (q + 1) * window :=
    calc EdgeDetectionWrapper.shown 20 4 ≤ 1 * 513 := by decide
      _ ≤ (q + 1) * window := Nat.mul_le_mul (by omega) hwide
  have hlater : (q + 1) * window ≤ (q + 2) * window := Nat.mul_le_mul_right _ (by omega)
  have hpos := (EdgeDetectionWrapper.seen_pos_iff (n := 20) hdiv _).2 hfirst
  have hmono : seen 20 4 ((q + 1) * window) ≤ seen 20 4 ((q + 2) * window) :=
    monotone_nat_of_le_succ (fun j => (seen_succ hn hdiv j).1) hlater
  obtain ⟨hle, hge⟩ := seen_lag hn hdiv ((q + 1) * window)
  obtain ⟨hle', hge'⟩ := seen_lag hn hdiv ((q + 2) * window)
  refine ⟨seen 20 4 ((q + 1) * window) - 1,
    seen 20 4 ((q + 2) * window) - seen 20 4 ((q + 1) * window), by omega, by omega, by omega,
    by omega, ?_⟩
  exact rpm_steps hs hall hn (by decide) maxValueDefault_lt (by decide) hm hturn hphase hfirst

open SpeedCalculation SpeedMeter in
/-- A motor that takes 400 000 clocks for each sector turns at 83 revolutions per minute; the
speed shown after the second window is 79 to 87. -/
theorem speedMeter_accuracy_turning :
    let rpm := (states maxValueDefault (cleared 20 4) (fun t => (rotating 400000 t).hall)
      ((0 + 2) * (maxValueDefault + 1) + 2)).rpm.toNat
    79 ≤ rpm ∧ rpm ≤ 87 := by
  intro rpm
  have hphase : ∀ x, PhasesAtLeast 320 fun t => (rotating 400000 t).hall.line x := fun x =>
    ((phasesAtLeast_rotating 400000).map fun m => m.hall.line x).mono (by omega)
  have hM : maxValueDefault = 49999999 := rfl
  obtain ⟨start, len, h1, h2, h3, h4, hshown⟩ := speedMeter_accuracy (cleared 20 4)
    (ready_cleared 20 4) (fun t => (rotating 400000 t).hall) (rotating 400000)
    (fun _ => Sector.ofHall_hall _) (Or.inl (turnsForward_rotating 400000)) hphase 0
  have hsum := changes_add (rotating 400000) start len
  rw [changes_rotating, changes_rotating] at hsum
  obtain ⟨hle, hge⟩ : 3 * rpm ≤ 2 * changesIn (rotating 400000) start len + 10 ∧
      2 * changesIn (rotating 400000) start len ≤ 3 * rpm + 13 :=
    hshown (by omega) 2 le_rfl (by omega)
  exact ⟨by omega, by omega⟩

open SpeedMeter in
/-- **A meter that never starts.**  If no filter holds a state, neither in the register nor
in the latch, and all counters are cleared: with `rst` low the speed shown is 0 from two
clocks after the end of the first window on, whatever the motor does. -/
theorem speedMeter_stuck {n div maxValue : ℕ} (hM : maxValue < 2 ^ 26) (hpos : 1 ≤ maxValue)
    (s : SpeedMeter n div) (hq : ∀ x, ¬ EdgeDetection.Legal (s.U4.filter x).regs.stateQ)
    (hd : ∀ x, ¬ EdgeDetection.Legal (s.U4.filter x).regs.stateD)
    (hcount : ∀ x, (s.U5.channel x).speed.count = 0#26)
    (hmec : ∀ x, (s.U5.channel x).speed.mecCycles = 0#8)
    (hlow : ∀ x, (s.U5.channel x).speed.hallSensor = false) (hall : ℕ → Hall) (t : ℕ)
    (ht : maxValue + 3 ≤ t) : (states maxValue s hall t).rpm = 0#10 := by
  have hline : ∀ x j, (hallF s hall j).line x = false := fun x j =>
    (EdgeDetectionWrapper.line_run s.U4 hall x j).trans (EdgeDetection.z_stuck (hq x) (hd x) _ j)
  have hcounts : ∀ q x, Channel.Counts maxValue (s.U5.channel x)
      (fun k => (hallF s hall (k + 1)).line x) (q * (maxValue + 1)) 0 := by
    intro q x
    have hwindow : Channel.Counts maxValue (s.U5.channel x)
        (fun k => (hallF s hall (k + 1)).line x) (q * (maxValue + 1)) _ :=
      Channel.counts_window hM hpos (hcount x) (hmec x) q
    rw [wave_channel hall (fun y => (hline y 0).trans (hlow y).symm)] at hwindow
    have hnone : risesIn (fun t => (hallF s hall t).line x) (q * (maxValue + 1)) maxValue = 0 :=
      Nat.count_of_forall_not fun k _ hr => by simp [Rise, hline] at hr
    rwa [hnone] at hwindow
  -- from the end of the first window on every table shows the row of zero
  have hzero : ∀ x u, maxValue + 1 ≤ u → (Channel.states maxValue (s.U5.channel x)
      (fun k => (hallF s hall (k + 1)).line x) u).rpm = 0#10 := by
    intro x u hu
    obtain ⟨q, hq⟩ : ∃ q, u / (maxValue + 1) = q + 1 :=
      ⟨u / (maxValue + 1) - 1, by have := Nat.div_pos hu (Nat.succ_pos maxValue); omega⟩
    have hmod : u % (maxValue + 1) < maxValue + 1 := Nat.mod_lt _ (Nat.succ_pos maxValue)
    have htime : u = q * (maxValue + 1) + maxValue + 1 + u % (maxValue + 1) := by
      have hsplit := Nat.div_add_mod' u (maxValue + 1)
      rw [hq, Nat.succ_mul] at hsplit
      omega
    rw [htime, ((hcounts q x).loads hM hpos).rpm_hold hM (Nat.lt_succ_iff.1 hmod)]
    rfl
  obtain ⟨u, rfl⟩ : ∃ u, t = u + 2 := ⟨t - 2, by omega⟩
  have ha := hzero .a u (by omega)
  have hb := hzero .b u (by omega)
  have hc := hzero .c (u + 1) (by omega)
  rw [rpm, U5_run, SpeedCalculationWrapper.rpm_run]
  exact congr (congrArg₂ Averager.average ha hb) hc

open SpeedCalculation SpeedMeter in
/-- The board with all registers zero at power-up, and a motor at speed. -/
theorem speedMeter_stuck_powerUp :
    (states maxValueDefault (powerUp 20 4) (fun t => (rotating 400000 t).hall)
      (3 * (maxValueDefault + 1))).rpm = 0#10 := by
  have hM : maxValueDefault = 49999999 := rfl
  exact speedMeter_stuck maxValueDefault_lt (by omega) (powerUp 20 4)
    (by decide) (by decide) (by decide) (by decide) (by decide) (fun t => (rotating 400000 t).hall)
    (3 * (maxValueDefault + 1)) (by omega)

end BldcFpga
