import BldcFpga.De0Nano.SpeedMeter
import BldcFpga.EdgeDetect.PowerUp
import BldcFpga.SpeedCalculation.PowerUp

/-!
# The speed meter from power-up

On the board `rst` is tied low, so nothing brings the three channels into step: their filters
sample at clocks of their own, and their windows begin at clocks of their own.

* `SpeedMeter.channel_settled`, `SpeedMeter.rpm_settled` — every channel counts the steps of a
  stretch of its own, and so the speed is that of all three;
* `speedMeter_stabilises` — so from every contents with a state in each filter the speed comes
  to be that of the motor, and stays so at every clock.
-/

namespace BldcFpga

open Clocked

namespace SpeedMeter

variable {n div maxValue : ℕ} {s : SpeedMeter n div} {hall : ℕ → Hall} {m : ℕ → Sector}

/-- The number of steps in every stretch that a channel may have counted by clock `t`. -/
def StepsBetween (n div maxValue : ℕ) (m : ℕ → Sector) (t lo hi : ℕ) : Prop :=
  ∀ start len, t ≤ start + 2 * maxValue + (n + 1) * 2 ^ div + 3 → start + len < t →
    maxValue < len + 2 ^ div → len < maxValue + 2 ^ div →
      lo ≤ changesIn m start len ∧ changesIn m start len ≤ hi

/-- **One channel**, one or two clocks before the display. -/
theorem channel_settled (hn : 1 ≤ n) (hdiv : 1 ≤ div) (hM : maxValue < 2 ^ 26)
    (hpos : 1 ≤ maxValue) {x : Leg}
    (hs : EdgeDetection.Legal (s.U4.filter x).regs.stateQ ∨
      EdgeDetection.Legal (s.U4.filter x).regs.stateD)
    (hm : ∀ t, Sector.ofHall (hall t) = some (m t)) (hturn : Turns m)
    (hphase : PhasesAtLeast (n * 2 ^ div) fun t => (hall t).line x) {t lo hi : ℕ}
    (hsteps : StepsBetween n div maxValue m t lo hi) {u : ℕ} (hu : u < t) (htu : t ≤ u + 2)
    (hlate : 2 ^ 26 + 2 * maxValue + (n + 1) * 2 ^ div + 1 ≤ u) :
    ∃ count y, lo ≤ 6 * count + 5 ∧ 6 * count ≤ hi + 5 ∧
      (Channel.states maxValue (s.U5.channel x) (fun k => (hallF s hall (k + 1)).line x) u).rpm =
        rpmLut (BitVec.ofNat 8 count) y := by
  obtain ⟨W, y, h1, hend, hstart, hshown⟩ := Channel.rpm_settled hM hpos (s.U5.channel x)
    (fun k => (hallF s hall (k + 1)).line x) (t := u) (by omega)
  have hline : (fun t => (hallF s hall t).line x) = fun t =>
      EdgeDetection.z (EdgeDetection.states (s.U4.filter x) (fun k => (hall k).line x) t).regs :=
    funext (EdgeDetectionWrapper.line_run s.U4 hall x)
  have hraw : (fun t => (hall t).line x) = fun t => (m t).hall.line x :=
    funext fun t => congrArg (Hall.line · x) (Sector.hall_of_ofHall (hm t))
  -- from the first clock on the counter sees the filtered line
  have hwave : risesIn (SpeedCalculation.wave (s.U5.channel x).speed
      fun k => (hallF s hall (k + 1)).line x) W maxValue =
        risesIn (fun t => (hallF s hall t).line x) W maxValue := by
    obtain ⟨V, rfl⟩ : ∃ V, W = V + 1 := ⟨W - 1, by omega⟩
    refine count_congr fun k _ => ?_
    rw [show V + 1 + k = V + k + 1 by omega]
    rfl
  obtain ⟨start, len, hrises, hlag, hbefore, hlong, hshort⟩ :=
    EdgeDetection.risesIn_view hdiv hn hs hphase (show (n + 1) * 2 ^ div ≤ W by omega) maxValue
  obtain ⟨hle, hge⟩ := hturn.risesIn_bounds x start len
  obtain ⟨hlo, hhi⟩ := hsteps start len (by omega) (by omega) hlong hshort
  rw [← hraw, ← hrises, ← hline, ← hwave] at hle hge
  exact ⟨_, y, by omega, by omega, hshown⟩

/-- **The three channels together.** -/
theorem rpm_settled (hn : 1 ≤ n) (hdiv : 1 ≤ div) (hM : maxValue < 2 ^ 26) (hpos : 1 ≤ maxValue)
    (hs : ∀ x, EdgeDetection.Legal (s.U4.filter x).regs.stateQ ∨
      EdgeDetection.Legal (s.U4.filter x).regs.stateD)
    (hm : ∀ t, Sector.ofHall (hall t) = some (m t)) (hturn : Turns m)
    (hphase : ∀ x, PhasesAtLeast (n * 2 ^ div) fun t => (hall t).line x) {t lo hi : ℕ}
    (ht : 2 ^ 26 + 2 * maxValue + (n + 1) * 2 ^ div + 3 ≤ t)
    (hsteps : StepsBetween n div maxValue m t lo hi) (hhi : hi ≤ 1195) :
    3 * (states maxValue s hall t).rpm.toNat ≤ 2 * hi + 10 ∧
      2 * lo ≤ 3 * (states maxValue s hall t).rpm.toNat + 13 := by
  obtain ⟨u, rfl⟩ : ∃ u, t = u + 2 := ⟨t - 2, by omega⟩
  obtain ⟨a, x, ha, ha', hA⟩ := channel_settled hn hdiv hM hpos (hs .a) hm hturn (hphase .a)
    hsteps (u := u) (by omega) (by omega) (by omega)
  obtain ⟨b, y, hb, hb', hB⟩ := channel_settled hn hdiv hM hpos (hs .b) hm hturn (hphase .b)
    hsteps (u := u) (by omega) (by omega) (by omega)
  obtain ⟨c, z, hc, hc', hC⟩ := channel_settled hn hdiv hM hpos (hs .c) hm hturn (hphase .c)
    hsteps (u := u + 1) (by omega) (by omega) (by omega)
  have hrpm : (states maxValue s hall (u + 2)).rpm = Averager.average
      (rpmLut (BitVec.ofNat 8 a) x) (rpmLut (BitVec.ofNat 8 b) y)
      (rpmLut (BitVec.ofNat 8 c) z) := by
    rw [rpm, U5_run, SpeedCalculationWrapper.rpm_run]
    exact congr (congrArg₂ Averager.average hA hB) hC
  have hrows := Averager.average_rows (show a ≤ 200 by omega) (show b ≤ 200 by omega)
    (show c ≤ 200 by omega) x y z
  rw [← hrpm] at hrows
  split_ifs at hrows <;> omega

/-- Filters in different states, the first one in its latch only, with dividers and windows
out of step and counts left over. -/
def scattered (n div : ℕ) : SpeedMeter n div where
  U4 :=
    { HA := ⟨BitVec.ofNat div 0, ⟨BitVec.ofNat n 1, EdgeDetection.B, 0#2⟩⟩
      HB := ⟨BitVec.ofNat div 1, ⟨BitVec.ofNat n 0, 3#2, EdgeDetection.B⟩⟩
      HC := ⟨BitVec.ofNat div 1, ⟨BitVec.ofNat n 1, 0#2, EdgeDetection.A⟩⟩ }
  U5 := ⟨⟨⟨5#26, 7#8, 9#8, true⟩, 1#10⟩, ⟨⟨0#26, 3#8, 250#8, false⟩, 2#10⟩,
    ⟨⟨60000000#26, 0#8, 1#8, false⟩, 3#10⟩, ⟨17#11, 4#11⟩⟩

end SpeedMeter

open SpeedMeter in
/-- **The meter stabilises.**  For every contents of the registers at power-up in which each
filter has the code of a state, with `rst` low, for a motor that turns in one direction and
whose sensors each keep their level for at least `n` periods of the divider: after one turn of
the window counter, two windows and the delay of the filters, at every clock three times the
speed is at most 10 above twice the most steps, and at most 13 below twice the fewest, that
the motor has lately made in stretches of a window's length up to a period, as long as these
are at most 1195. -/
theorem speedMeter_stabilises {n div maxValue : ℕ} (hn : 1 ≤ n) (hdiv : 1 ≤ div)
    (hM : maxValue < 2 ^ 26) (hpos : 1 ≤ maxValue) (s : SpeedMeter n div)
    (hs : ∀ x, EdgeDetection.Legal (s.U4.filter x).regs.stateQ ∨
      EdgeDetection.Legal (s.U4.filter x).regs.stateD)
    (hall : ℕ → Hall) (m : ℕ → Sector) (hm : ∀ t, Sector.ofHall (hall t) = some (m t))
    (hturn : Turns m) (hphase : ∀ x, PhasesAtLeast (n * 2 ^ div) fun t => (hall t).line x)
    (t lo hi : ℕ) (ht : 2 ^ 26 + 2 * maxValue + (n + 1) * 2 ^ div + 3 ≤ t)
    (hsteps : StepsBetween n div maxValue m t lo hi) (hhi : hi ≤ 1195) :
    3 * (states maxValue s hall t).rpm.toNat ≤ 2 * hi + 10 ∧
      2 * lo ≤ 3 * (states maxValue s hall t).rpm.toNat + 13 :=
  rpm_settled hn hdiv hM hpos hs hm hturn hphase ht hsteps hhi

open SpeedMeter in
/-- Windows of eight clocks, and a motor that takes two for each sector. -/
theorem speedMeter_stabilises_scattered :
    let rpm := (states 7 (scattered 1 1) (fun t => (rotating 2 t).hall) (2 ^ 26 + 100)).rpm.toNat
    3 * rpm ≤ 2 * 4 + 10 ∧ 2 * 3 ≤ 3 * rpm + 13 := by
  intro rpm
  refine speedMeter_stabilises (n := 1) (by decide) (by decide) (by decide) (by decide)
    (scattered 1 1) (by decide) (fun t => (rotating 2 t).hall) (rotating 2)
    (fun t => Sector.ofHall_hall _) (Or.inl (turnsForward_rotating 2))
    (fun x => (phasesAtLeast_rotating 2).map fun m => m.hall.line x) (2 ^ 26 + 100) 3 4
    (by decide) (fun start len _ _ hlong hshort => ?_) (by decide)
  have hsum := changes_add (rotating 2) start len
  rw [changes_rotating, changes_rotating] at hsum
  omega

end BldcFpga
