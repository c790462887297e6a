import BldcFpga.De0Nano.Board
import BldcFpga.De0Nano.PowerUp
import BldcFpga.Lcd.Port

/-!
# From the motor to the display

The wire `rpm` is the input of the port `speed_ref`, whose register the event loop of the
processor reads at moments of its own.

* `readdata`, `Reads`, `readings` — the register, when the bus reads it, and what the event
  loop gets;
* `de0Nano_display` — every line on the display is the decimal numeral of the speed one clock
  before it was read, which comes to be that of the motor, with the errors of the meter.
-/

namespace BldcFpga

open Clocked

namespace De0Nano

/-- The register `readdata` after `t` events, where `bus k` is what the bus shows the port at
event `k`.  A low `reset_n` clears it at once. -/
def readdata (s : De0Nano) (ev : ℕ → Event) (bus : ℕ → Lcd.ReadCycle) (word : BitVec 32) :
    ℕ → BitVec 32
  | 0 => word
  | t + 1 =>
    if ev t = .clock50 ∨ (bus t).resetN = false then
      Lcd.speedRef (bus t) (states s ev t).meter.rpm
    else readdata s ev bus word t

/-- After `t` events the register can be read: at the latest edge of `CLOCK_50` the bus had its
address, and `reset_n` has been high since. -/
def Reads (ev : ℕ → Event) (bus : ℕ → Lcd.ReadCycle) (t : ℕ) : Prop :=
  ∃ T < t, ev T = .clock50 ∧ (bus T).address = 0#2 ∧ (bus T).resetN = true ∧
    ∀ k, T < k → k < t → ev k ≠ .clock50 ∧ (bus k).resetN = true

/-- What the event loop reads, if turn `i` reads after `τ i` events. -/
def readings (s : De0Nano) (ev : ℕ → Event) (bus : ℕ → Lcd.ReadCycle) (word : BitVec 32)
    (τ : ℕ → ℕ) (i : ℕ) : BitVec 32 := readdata s ev bus word (τ i)

variable {s : De0Nano} {ev : ℕ → Event} {bus : ℕ → Lcd.ReadCycle}

/-- **One clock late.**  The word read is the speed before the latest edge of `CLOCK_50`. -/
theorem toInt_readdata {hall : ℕ → Hall} (hhall : Feeds (toMeter s ev) hall) {t : ℕ}
    (h : Reads ev bus t) (word : BitVec 32) : ∃ c, clocks ev t = c + 1 ∧
      (readdata s ev bus word t).toInt =
        (SpeedMeter.states SpeedCalculation.maxValueDefault s.meter hall c).rpm.toNat := by
  obtain ⟨T, hlt, hclk, haddress, hreset, hno⟩ := h
  have hclocks : clocks ev t = clocks ev (T + 1) :=
    kept (x := clocks ev) (P := fun k => ev k = .clock50)
      (fun k hk => by rw [clocks, Nat.count_succ, if_neg hk, clocks, Nat.add_zero])
      (show T + 1 ≤ t from hlt) fun k hk hkt => (hno k hk hkt).1
  have hword : readdata s ev bus word t = readdata s ev bus word (T + 1) :=
    kept (x := readdata s ev bus word) (P := fun k => ev k = .clock50 ∨ (bus k).resetN = false)
      (fun k hk => if_neg hk) (show T + 1 ≤ t from hlt) fun k hk hkt hor => by
        obtain ⟨hnoclk, hhigh⟩ := hno k hk hkt
        simp [hnoclk, hhigh] at hor
  refine ⟨clocks ev T, ?_, ?_⟩
  · rw [hclocks, clocks, Nat.count_succ, if_pos hclk, clocks]
  · rw [hword, readdata, if_pos (Or.inl hclk), Lcd.toInt_speedRef hreset haddress, meter_run hhall]

/-- Ten bits fit into the array, and the numeral is that of the speed. -/
theorem line_of_toInt {v : BitVec 32} {rpm : BitVec 10} (h : v.toInt = rpm.toNat) :
    Lcd.Fits v ∧ Lcd.line v = Lcd.label ++ Lcd.numeral rpm.toNat := by
  have hlt := rpm.isLt
  refine ⟨by rw [Lcd.Fits, h]; omega, ?_⟩
  rw [Lcd.line, h, Lcd.percentD, if_neg (by omega), Int.natAbs_natCast]

end De0Nano

open De0Nano SpeedCalculation SpeedMeter in
/-- **The speed on the display.**  For every contents of the registers at power-up in which
each hall filter has the code of a state, for every order of the events on the board, for a
motor that turns in one direction and whose sensors each keep their level for at least 320
edges of `CLOCK_50`, and for any moments of reading at which the bus has addressed the port:
the event loop runs for ever, and the line of turn `i` is complete when the display is cleared.
It is `RPM: ` and the number that the meter showed just before the latest edge of `CLOCK_50`.
From `2 ^ 26 + 2 * maxValueDefault + 339` edges on three times this number is at most 10 above
twice the most steps, and at most 13 below twice the fewest, that the motor has lately made in
stretches of a window's length up to 16 clocks, as long as these are at most 1195. -/
theorem de0Nano_display (s : De0Nano)
    (hs : ∀ x, EdgeDetection.Legal (s.meter.U4.filter x).regs.stateQ ∨
      EdgeDetection.Legal (s.meter.U4.filter x).regs.stateD)
    (ev : ℕ → Event) (hall : ℕ → Hall) (hhall : Feeds (toMeter s ev) hall) (m : ℕ → Sector)
    (hm : ∀ t, Sector.ofHall (hall t) = some (m t)) (hturn : Turns m)
    (hphase : ∀ x, PhasesAtLeast 320 fun t => (hall t).line x) (bus : ℕ → Lcd.ReadCycle)
    (word : BitVec 32) (τ : ℕ → ℕ) (w : BitVec 11) (n : ℕ) (hreads : ∀ i < n, Reads ev bus (τ i)) :
    ∃ str ws, Lcd.main (readings s ev bus word τ) n = some (str, ws) ∧
      (Lcd.taken w ws ws.length).count Lcd.clear = n + 1 ∧
      ∀ k i, Lcd.taken w ws k ++ [Lcd.clear] <+: Lcd.taken w ws ws.length →
        (Lcd.taken w ws k).count Lcd.clear = i + 1 →
        ∃ c v : ℕ, clocks ev (τ i) = c + 1 ∧
          v = (SpeedMeter.states maxValueDefault s.meter hall c).rpm.toNat ∧
          Lcd.screen (Lcd.taken w ws k) = Lcd.label ++ Lcd.numeral v ∧
          ∀ lo hi, 2 ^ 26 + 2 * maxValueDefault + 339 ≤ c →
            StepsBetween 20 4 maxValueDefault m c lo hi → hi ≤ 1195 →
              3 * v ≤ 2 * hi + 10 ∧ 2 * lo ≤ 3 * v + 13 := by
  have hfit : ∀ i < n, Lcd.Fits (readings s ev bus word τ i) := by
    intro i hi
    obtain ⟨c, -, hread⟩ := toInt_readdata hhall (hreads i hi) word
    exact (line_of_toInt hread).1
  obtain ⟨str, ws, -, hmain, -⟩ := Lcd.main_of_fits hfit
  refine ⟨str, ws, hmain, ?_, fun k i hk hi => ?_⟩
  · rw [Lcd.taken_length hmain, Lcd.count_turns]
  · rw [Lcd.taken_length hmain] at hk
    obtain ⟨hin, hline⟩ := Lcd.screen_of_clear hk (by omega)
    rw [hi, Nat.add_sub_cancel] at hin hline
    obtain ⟨c, hclocks, hread⟩ := toInt_readdata hhall (hreads i hin) word
    refine ⟨c, _, hclocks, rfl, hline.trans (line_of_toInt hread).2, fun lo hi hc hsteps hle => ?_⟩
    exact rpm_settled (by decide) (by decide) maxValueDefault_lt
      ((show 1 ≤ 512 by decide).trans le_maxValueDefault) hs hm hturn hphase hc hsteps hle

namespace De0Nano

/-- Two events for each clock: the pins follow a motor, then `CLOCK_50` rises. -/
def turning (k : ℕ) : Event :=
  if k % 2 = 0 then .pins ⟨(rotating 400000 (k / 2)).hall, false⟩ else .clock50

theorem feeds_turning (s : De0Nano) :
    Feeds (toMeter s turning) (fun t => (rotating 400000 t).hall) ∧
      ∀ j, clocks turning (2 * j) = j := by
  have hpins : ∀ j, turning (2 * j) = .pins ⟨(rotating 400000 j).hall, false⟩ := fun j => by
    rw [turning, if_pos (by omega), show 2 * j / 2 = j by omega]
  have hclock : ∀ j, turning (2 * j + 1) = .clock50 := fun j => by
    rw [turning, if_neg (by omega)]
  have hnone : ∀ j, toMeter s turning (2 * j) = none := fun j => by
    rw [toMeter, hpins, if_neg (by simp)]
  have hsome : ∀ j, toMeter s turning (2 * j + 1) = some (rotating 400000 j).hall := fun j => by
    rw [toMeter, if_pos (hclock j), states_succ, hpins]
    rfl
  obtain ⟨hfeeds, hfed⟩ := feeds_alternate hnone hsome
  exact ⟨hfeeds, fun j => by rw [← fed_toMeter s, hfed]⟩

end De0Nano

open De0Nano SpeedCalculation SpeedMeter in
/-- A motor that takes 400 000 clocks for each sector turns at 83 revolutions per minute; with
the meter out of step at power-up, a speed read 67108864 clocks and two windows later is shown
as 79 to 87. -/
theorem de0Nano_display_turning :
    let s := { De0Nano.powerUp with meter := scattered 20 4 }
    let τ : ℕ → ℕ := fun _ => 2 * (2 ^ 26 + 2 * maxValueDefault + 340)
    let bus : ℕ → Lcd.ReadCycle := fun _ => ⟨true, 0#2⟩
    ∃ str ws, Lcd.main (readings s turning bus 0#32 τ) 1 = some (str, ws) ∧
      ∀ k, Lcd.taken 0#11 ws k ++ [Lcd.clear] <+: Lcd.taken 0#11 ws ws.length →
        (Lcd.taken 0#11 ws k).count Lcd.clear = 1 →
        ∃ v : ℕ, Lcd.screen (Lcd.taken 0#11 ws k) = Lcd.label ++ Lcd.numeral v ∧
          79 ≤ v ∧ v ≤ 87 := by
  intro s τ bus
  have hphase : ∀ x, PhasesAtLeast 320 fun t => (rotating 400000 t).hall.line x := fun x =>
    ((phasesAtLeast_rotating 400000).map fun m => m.hall.line x).mono (by omega)
  have hM : maxValueDefault = 49999999 := rfl
  obtain ⟨hfeeds, hclocks⟩ := feeds_turning s
  have hreads : ∀ i < 1, Reads turning bus (τ i) := fun i _ =>
    ⟨2 * (2 ^ 26 + 2 * maxValueDefault + 339) + 1, by simp only [τ]; omega,
      if_neg (by omega), rfl, rfl, fun k hk hkt => by simp only [τ] at hkt; omega⟩
  obtain ⟨str, ws, hmain, -, hlines⟩ := de0Nano_display s (by decide)
    turning (fun t => (rotating 400000 t).hall) hfeeds (rotating 400000)
    (fun _ => Sector.ofHall_hall _) (Or.inl (turnsForward_rotating 400000)) hphase bus 0#32 τ
    0#11 1 hreads
  refine ⟨str, ws, hmain, fun k hk hone => ?_⟩
  obtain ⟨c, v, hc, -, hscreen, hspeed⟩ := hlines k 0 hk hone
  rw [hclocks] at hc
  obtain ⟨hle, hge⟩ := hspeed 124 126 (by omega) (fun start len _ _ hlong hshort => by
    have hsum := changes_add (rotating 400000) start len
    rw [changes_rotating, changes_rotating] at hsum
    omega) (by decide)
  exact ⟨v, hscreen, by omega, by omega⟩

end BldcFpga
