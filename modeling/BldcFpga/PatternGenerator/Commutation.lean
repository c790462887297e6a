import BldcFpga.PatternGenerator.Sector

/-!
# The three commutation circuits

Translations of `pattern_generator.v`, `commutation.v` and `fw_rv_commutation.v`.

* `patternGenerator` — the combinational six-step table;
* `Commutation` — the registered one: `state_Q`, and the latch that the incomplete
  `case` of the next-state block infers for `state_D`;
* `FwRvCommutation` — the same with the high and low outputs exchanged by `forward`.

Both registered circuits refine the abstract commutator `track`: started by a
reset they hold the register code of its sector in every cycle
(`Commutation.stateQ_run`, `FwRvCommutation.stateQ_run`), and in that state their
outputs are those of the sector (`patternGenerator_hall`, `Commutation.out_code`,
`FwRvCommutation.out_code`).
-/

namespace BldcFpga

/-! ## `pattern_generator` -/

namespace PatternGenerator

/-- The parameters `A` to `F` of `pattern_generator` are hall codes. -/
def A : BitVec 3 := 0b101#3
def B : BitVec 3 := 0b100#3
def C : BitVec 3 := 0b110#3
def D : BitVec 3 := 0b010#3
def E : BitVec 3 := 0b011#3
def F : BitVec 3 := 0b001#3

end PatternGenerator

open PatternGenerator in
/-- `pattern_generator`: six comparisons of `state`, which is the hall code itself. -/
def patternGenerator (hall : Hall) : Drive :=
  let state := hall.code
  { ha := state == A || state == B
    hb := state == C || state == D
    hc := state == E || state == F
    la := state == D || state == E
    lb := state == A || state == F
    lc := state == B || state == C }

/-- The table gives every sector its outputs. -/
theorem patternGenerator_hall : ∀ m : Sector, patternGenerator m.hall = m.drive false := by decide

/-! ## `commutation` -/

/-- The register `state_Q` of a commutator and the latch `state_D` in front of it. -/
structure StateRegs where
  stateD : BitVec 3
  stateQ : BitVec 3
  deriving DecidableEq, Repr

namespace Commutation

/-- The parameters `A` to `F` of `commutation` and `fw_rv_commutation` are the codes
of `state_Q`; `110` and `111` are not used. -/
def A : BitVec 3 := 0b000#3
def B : BitVec 3 := 0b001#3
def C : BitVec 3 := 0b010#3
def D : BitVec 3 := 0b011#3
def E : BitVec 3 := 0b100#3
def F : BitVec 3 := 0b101#3

/-- One branch of the next-state `case`: six tests of `hall_sensor`, and the state
that is kept when none of them succeeds. -/
def branch (keep hallSensor : BitVec 3) : BitVec 3 :=
  if hallSensor = 0b101#3 then A
  else if hallSensor = 0b100#3 then B
  else if hallSensor = 0b110#3 then C
  else if hallSensor = 0b010#3 then D
  else if hallSensor = 0b011#3 then E
  else if hallSensor = 0b001#3 then F
  else keep

/-- The next-state block of `commutation`.  Its `default` assigns nothing, so the
latch `state_D` keeps what it holds. -/
def nextState (hallSensor : BitVec 3) (s : StateRegs) : BitVec 3 :=
  if s.stateQ = A then branch A hallSensor
  else if s.stateQ = B then branch B hallSensor
  else if s.stateQ = C then branch C hallSensor
  else if s.stateQ = D then branch D hallSensor
  else if s.stateQ = E then branch E hallSensor
  else if s.stateQ = F then branch F hallSensor
  else s.stateD

/-- The inputs of `commutation` at a clock edge. -/
structure Input where
  reset : Bool
  hall : Hall
  deriving DecidableEq, Repr

/-- A rising edge of `clock`: the next-state block has settled before it. -/
def step (i : Input) (s : StateRegs) : StateRegs :=
  let stateD := nextState i.hall.code s
  { stateD := stateD
    stateQ := if i.reset then A else stateD }

/-- The outputs of `commutation`. -/
def out (s : StateRegs) : Drive :=
  { ha := s.stateQ == A || s.stateQ == B
    hb := s.stateQ == C || s.stateQ == D
    hc := s.stateQ == E || s.stateQ == F
    la := s.stateQ == D || s.stateQ == E
    lb := s.stateQ == A || s.stateQ == F
    lc := s.stateQ == B || s.stateQ == C }

/-- The register code of a sector. -/
def code : Sector → BitVec 3
  | .A => A
  | .B => B
  | .C => C
  | .D => D
  | .E => E
  | .F => F

theorem code_injective : Function.Injective code := by
  intro m m'
  cases m <;> cases m' <;> decide

/-- A branch is the sector of a valid code, and the kept state otherwise. -/
theorem branch_code (keep : BitVec 3) (h : Hall) :
    branch keep h.code = ((Sector.ofHall h).map code).getD keep := by
  obtain ⟨a, b, c⟩ := h
  cases a <;> cases b <;> cases c <;> rfl

/-- In a state of the table the next-state block computes the abstract step. -/
theorem nextState_code (h : Hall) (m : Sector) (d : BitVec 3) :
    nextState h.code ⟨d, code m⟩ = code ((Sector.ofHall h).getD m) := by
  have hrow : nextState h.code ⟨d, code m⟩ = branch (code m) h.code := by cases m <;> rfl
  rw [hrow, branch_code]
  cases Sector.ofHall h <;> rfl

/-- One edge keeps the register on the abstract commutator. -/
theorem stateQ_step (i : Input) {s : StateRegs} {m : Sector} (hs : s.stateQ = code m) :
    (step i s).stateQ = code (track i.reset i.hall m) := by
  obtain ⟨d, q⟩ := s
  subst hs
  cases hr : i.reset with
  | true => simp [step, track, hr, code]
  | false => simpa [step, track, hr] using nextState_code i.hall m d

/-- A reset edge leads to sector `A` from any contents. -/
theorem stateQ_step_reset {i : Input} (hr : i.reset = true) (s : StateRegs) (m : Sector) :
    (step i s).stateQ = code (track i.reset i.hall m) := by
  simp [step, track, hr, code]

theorem out_code {s : StateRegs} {m : Sector} (hs : s.stateQ = code m) :
    out s = m.drive false := by
  obtain ⟨d, q⟩ := s
  subst hs
  cases m <;> rfl

end Commutation

/-! ## `fw_rv_commutation` -/

namespace FwRvCommutation

open Commutation (A B C D E F branch code)

/-- The next-state block of `fw_rv_commutation`. -/
def nextState (hallSensor : BitVec 3) (s : StateRegs) : BitVec 3 :=
  if s.stateQ = A then branch A hallSensor
  else if s.stateQ = B then branch B hallSensor
  else if s.stateQ = C then branch C hallSensor
  else if s.stateQ = D then branch D hallSensor
  else if s.stateQ = E then branch E hallSensor
  else if s.stateQ = F then branch F hallSensor
  else s.stateD

/-- The inputs of `fw_rv_commutation` at a clock edge.  `forward` reaches the
outputs only. -/
structure Input where
  reset : Bool
  forward : Bool
  hall : Hall
  deriving DecidableEq, Repr

/-- A rising edge of `clock`. -/
def step (i : Input) (s : StateRegs) : StateRegs :=
  let stateD := nextState i.hall.code s
  { stateD := stateD
    stateQ := if i.reset then A else stateD }

/-- The outputs of `fw_rv_commutation` while `forward` has the given level. -/
def out (forward : Bool) (s : StateRegs) : Drive :=
  { ha := if forward then s.stateQ == D || s.stateQ == E else s.stateQ == A || s.stateQ == B
    hb := if forward then s.stateQ == A || s.stateQ == F else s.stateQ == C || s.stateQ == D
    hc := if forward then s.stateQ == B || s.stateQ == C else s.stateQ == E || s.stateQ == F
    la := if forward then s.stateQ == A || s.stateQ == B else s.stateQ == D || s.stateQ == E
    lb := if forward then s.stateQ == C || s.stateQ == D else s.stateQ == A || s.stateQ == F
    lc := if forward then s.stateQ == E || s.stateQ == F else s.stateQ == B || s.stateQ == C }

/-- Apart from `forward` an edge is one of `commutation`. -/
theorem step_eq (i : Input) (s : StateRegs) :
    step i s = Commutation.step ⟨i.reset, i.hall⟩ s := rfl

theorem stateQ_step (i : Input) {s : StateRegs} {m : Sector} (hs : s.stateQ = code m) :
    (step i s).stateQ = code (track i.reset i.hall m) := by
  rw [step_eq]
  exact Commutation.stateQ_step _ hs

theorem out_code (forward : Bool) {s : StateRegs} {m : Sector} (hs : s.stateQ = code m) :
    out forward s = m.drive forward := by
  obtain ⟨d, q⟩ := s
  subst hs
  cases forward <;> cases m <;> rfl

end FwRvCommutation

/-! ## Refinement of the abstract commutator -/

/-- The sector in which the abstract commutator is after `t` edges. -/
def sectorAt (reset : ℕ → Bool) (hall : ℕ → Hall) (m₀ : Sector) (t : ℕ) : Sector :=
  Clocked.run (fun i : Bool × Hall => track i.1 i.2) m₀ (fun k => (reset k, hall k)) t

/-- **Refinement from a known sector.**  `fw_rv_commutation` started in the state of
a sector holds the code of the abstract commutator's sector in every cycle. -/
theorem FwRvCommutation.stateQ_run {s : StateRegs} {m₀ : Sector}
    (hs : s.stateQ = Commutation.code m₀) (inp : ℕ → Input) (t : ℕ) :
    (Clocked.run step s inp t).stateQ =
      Commutation.code (sectorAt (fun k => (inp k).reset) (fun k => (inp k).hall) m₀ t) :=
  Clocked.run_simulation (fun (x : StateRegs) (m : Sector) => x.stateQ = Commutation.code m) hs
    (fun k _ _ hx => stateQ_step (inp k) hx) t

/-- **Refinement after a reset.**  A run of `commutation` that begins with a reset
edge holds the code of the abstract commutator's sector from then on. -/
theorem Commutation.stateQ_run {inp : ℕ → Input} (h0 : (inp 0).reset = true) (s : StateRegs)
    (m₀ : Sector) {t : ℕ} (ht : 1 ≤ t) :
    (Clocked.run step s inp t).stateQ =
      code (sectorAt (fun k => (inp k).reset) (fun k => (inp k).hall) m₀ t) := by
  induction t, ht using Nat.le_induction with
  | base => exact stateQ_step_reset h0 s m₀
  | succ t ht ih => exact stateQ_step (inp t) ih

end BldcFpga
