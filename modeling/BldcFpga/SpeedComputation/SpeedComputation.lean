import BldcFpga.Clocked.Run
import BldcFpga.Clocked.Counters

/-!
# Counting revolutions

`speed_computation.v`: a hall sensor line clocks two counters, and a counter of `clk_sys`
says when their result is published and cleared.  The two clocks are unrelated, so the model
takes one *edge* at a time, in any order.

* `CycleCounters` — the two counters on `Hall_sensor`, with `CycleCounters.hallEdge`;
* `SpeedComputation` — the whole module, with `SpeedComputation.step`;
* `CycleCounters.counterUp_after`, `CycleCounters.mecCycleCount_after` — the counters in
  closed form: the enable comes at every seventeenth edge;
* `SpeedComputation.cycles_states` — while `rst_to_zero` is low the module's counters are
  those;
* `speedComputation_division_iff` — for which numbers of edges that is a division by 16.
-/

namespace BldcFpga

open Clocked

/-- `electrical_cycle_counter_upto_16` at a rising edge of `clk`. -/
def electricalCycleCounterUpto16 (counterUp : BitVec 5) : BitVec 5 :=
  if counterUp = 0b10000#5 then 0b00000#5 else counterUp + 0b00001#5

/-- Its output `en_mechanical_cycle`. -/
def enMechanicalCycle (counterUp : BitVec 5) : Bool :=
  if counterUp = 0b10000#5 then true else false

/-- `mechanical_cycle_counter` at a rising edge of `clk` or of `rst_to_zero`. -/
def mechanicalCycleCounter (rstToZero enable : Bool) (mecCycleCount : BitVec 7) : BitVec 7 :=
  if rstToZero then 0#7
  else if enable then mecCycleCount + 1#7 else mecCycleCount

/-- `general_counter` at a rising edge of `clk_sys`. -/
def generalCounter (rst : Bool) (sysCounterUp : BitVec 26) : BitVec 26 :=
  if rst then 0#26
  else if sysCounterUp = 0x2faf080#26 then 0#26 else sysCounterUp + 1#26

/-- The wire `rst_to_zero`. -/
def rstToZero (sysCount : BitVec 26) : Bool := if sysCount = 0x2faf080#26 then true else false

/-- The registers clocked by `Hall_sensor`. -/
structure CycleCounters where
  counterUp : BitVec 5
  mecCycleCount : BitVec 7
  deriving DecidableEq, Repr

/-- A rising edge of `Hall_sensor`: both counters see the enable from before the edge. -/
def CycleCounters.hallEdge (rstToZero : Bool) (c : CycleCounters) : CycleCounters :=
  { counterUp := electricalCycleCounterUpto16 c.counterUp
    mecCycleCount :=
      mechanicalCycleCounter rstToZero (enMechanicalCycle c.counterUp) c.mecCycleCount }

/-- The registers of `speed_computation`. -/
structure SpeedComputation where
  cycles : CycleCounters
  sysCounterUp : BitVec 26
  rpsOut : BitVec 7
  deriving DecidableEq, Repr

namespace SpeedComputation

/-- The lines whose rising edges clock something. -/
inductive Edge
  | clkSys
  | hallSensor
  deriving DecidableEq, Repr

/-- An edge, with the level of `rst` at that moment. -/
structure Input where
  edge : Edge
  rst : Bool
  deriving DecidableEq, Repr

/-- A rising edge of `clk_sys`.  The count before the edge decides what is published; a
count that raises `rst_to_zero` clears `mec_cycle_count` at once. -/
def clkEdge (rst : Bool) (s : SpeedComputation) : SpeedComputation :=
  let sysCounterUp := generalCounter rst s.sysCounterUp
  { cycles :=
      if rstToZero s.sysCounterUp = false ∧ rstToZero sysCounterUp = true then
        { s.cycles with
          mecCycleCount := mechanicalCycleCounter true (enMechanicalCycle s.cycles.counterUp)
            s.cycles.mecCycleCount }
      else s.cycles
    sysCounterUp := sysCounterUp
    rpsOut := if s.sysCounterUp = 0x2faf07f#26 then s.cycles.mecCycleCount else s.rpsOut }

/-- What an edge does. -/
def step (i : Input) (s : SpeedComputation) : SpeedComputation :=
  match i.edge with
  | .clkSys => clkEdge i.rst s
  | .hallSensor => { s with cycles := s.cycles.hallEdge (rstToZero s.sysCounterUp) }

/-- The output `RPM_out`. -/
def rpmOut (s : SpeedComputation) : BitVec 13 := s.rpsOut.setWidth 13 * 0x3c#13

/-- Thirteen bits are enough: the product never wraps. -/
theorem rpmOut_toNat (s : SpeedComputation) : s.rpmOut.toNat = s.rpsOut.toNat * 60 := by
  have hlt := s.rpsOut.isLt
  rw [rpmOut, BitVec.toNat_mul, BitVec.toNat_setWidth, BitVec.toNat_ofNat]
  omega

end SpeedComputation

/-! ## The counters on `Hall_sensor` -/

theorem enMechanicalCycle_iff (counterUp : BitVec 5) :
    enMechanicalCycle counterUp = true ↔ counterUp.toNat = 16 := by
  simp [enMechanicalCycle, ← BitVec.toNat_inj]

theorem electricalCycleCounterUpto16_eq (counterUp : BitVec 5) :
    electricalCycleCounterUpto16 counterUp =
      if counterUp.toNat = 16 then 0#5 else counterUp + 1#5 := by
  unfold electricalCycleCounterUpto16
  simp only [← BitVec.toNat_inj]
  rfl

namespace CycleCounters

/-- The counters at power-up. -/
def powerUp : CycleCounters := ⟨0#5, 0#7⟩

/-- The counters after `N` rising edges of `Hall_sensor` with `rst_to_zero` low. -/
def after (c : CycleCounters) (N : ℕ) : CycleCounters := run hallEdge c (fun _ => false) N

theorem counterUp_after {c : CycleCounters} (hc : c.counterUp = 0#5) (N : ℕ) :
    (after c N).counterUp.toNat = N % 17 :=
  terminal_toNat (by decide) (x := fun k => (after c k).counterUp) hc
    (fun _ => electricalCycleCounterUpto16_eq _) N

/-- **The enable** comes at every seventeenth edge. -/
theorem enMechanicalCycle_after {c : CycleCounters} (hc : c.counterUp = 0#5) (N : ℕ) :
    enMechanicalCycle (after c N).counterUp = true ↔ N % 17 = 16 := by
  rw [enMechanicalCycle_iff, counterUp_after hc]

/-- **The count** is the number of edges divided by 17. -/
theorem mecCycleCount_after {c : CycleCounters} (hc : c.counterUp = 0#5) (N : ℕ) :
    (after c N).mecCycleCount.toNat = (c.mecCycleCount.toNat + N / 17) % 128 := by
  refine prescaled_toNat (y := fun k => (after c k).mecCycleCount) (fun k => ?_) N
  rw [← if_congr (enMechanicalCycle_after hc k) rfl rfl]
  rfl

end CycleCounters

/-! ## The counters in the module -/

namespace SpeedComputation

variable (s : SpeedComputation) (inp : ℕ → Edge)

/-- The registers after `t` edges with `rst` low. -/
def states (t : ℕ) : SpeedComputation := run step s (fun k => ⟨inp k, false⟩) t

/-- The number of rising edges of `Hall_sensor` among the first `t`. -/
def hallEdges (t : ℕ) : ℕ := Nat.count (fun i => inp i = .hallSensor) t

variable {s inp}

theorem hallEdges_succ (t : ℕ) :
    hallEdges inp (t + 1) = hallEdges inp t + if inp t = .hallSensor then 1 else 0 :=
  Nat.count_succ _ _

theorem states_hallSensor {t : ℕ} (ht : inp t = .hallSensor) :
    states s inp (t + 1) =
      { states s inp t with
        cycles := (states s inp t).cycles.hallEdge (rstToZero (states s inp t).sysCounterUp) } := by
  simp only [states, run_succ, step, ht]

theorem states_clkSys {t : ℕ} (ht : inp t = .clkSys) :
    states s inp (t + 1) = clkEdge false (states s inp t) := by
  simp only [states, run_succ, step, ht]

/-- **Between two clears** the module counts the edges of `Hall_sensor` alone. -/
theorem cycles_states {t : ℕ}
    (hlow : ∀ i ≤ t, rstToZero (states s inp i).sysCounterUp = false) :
    (states s inp t).cycles = s.cycles.after (hallEdges inp t) := by
  induction t with
  | zero => rfl
  | succ t ih =>
    have ht := ih fun i hi => hlow i (by omega)
    rw [hallEdges_succ]
    cases he : inp t with
    | clkSys =>
      have hnext := hlow (t + 1) le_rfl
      rw [states_clkSys he] at hnext ⊢
      have hno : ¬ (rstToZero (states s inp t).sysCounterUp = false ∧
          rstToZero (generalCounter false (states s inp t).sysCounterUp) = true) := by
        rintro ⟨-, hrise⟩
        exact Bool.noConfusion (hrise.symm.trans hnext)
      simpa [clkEdge, hno] using ht
    | hallSensor =>
      rw [states_hallSensor he, hlow t (by omega), ht]
      rfl

/-- In particular it divides them by 17. -/
theorem mecCycleCount_states {t : ℕ} (hs : s.cycles = .powerUp)
    (hlow : ∀ i ≤ t, rstToZero (states s inp i).sysCounterUp = false) :
    (states s inp t).cycles.mecCycleCount.toNat = hallEdges inp t / 17 % 128 := by
  rw [cycles_states hlow, hs, CycleCounters.mecCycleCount_after rfl]
  simp [CycleCounters.powerUp]

end SpeedComputation

open CycleCounters in
/-- **When the division is one by 16.**  From power-up and with `rst_to_zero` low:
`mec_cycle_count` is the number `N` of edges divided by 16, modulo 128, if and only if
`N / 17 + N % 17` is below 16 modulo 2048; and of the sixteen edges from the `M`-th on exactly
one is enabled if and only if 17 does not divide `M`. -/
theorem speedComputation_division_iff (N M : ℕ) :
    ((after powerUp N).mecCycleCount.toNat = N / 16 % 128 ↔ (N / 17 + N % 17) % 2048 < 16) ∧
    (Nat.count (fun i => enMechanicalCycle (after powerUp (M + i)).counterUp = true) 16 = 1 ↔
      ¬ 17 ∣ M) := by
  constructor
  · rw [mecCycleCount_after rfl]
    simp only [powerUp, BitVec.toNat_ofNat]
    -- `N / 16` runs ahead of `N / 17` by one for every 16 of `N / 17 + N % 17`
    have hdiv : N / 16 = N / 17 + (N / 17 + N % 17) / 16 := by omega
    omega
  · have hcount : M / 17 + Nat.count (fun i => (M + i) % 17 = 16) 16 = (M + 16) / 17 :=
      count_terminal_add 16 M 16
    rw [count_congr fun i _ => enMechanicalCycle_after (c := powerUp) rfl (M + i)]
    omega

open CycleCounters in
/-- Sixteen edges after power-up nothing has been counted. -/
theorem speedComputation_sixteen :
    (after powerUp 16).mecCycleCount.toNat = 0 ∧ 16 / 16 % 128 = 1 ∧
      Nat.count (fun i => enMechanicalCycle (after powerUp (0 + i)).counterUp = true) 16 = 0 := by
  decide

end BldcFpga
