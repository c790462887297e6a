import BldcFpga.PatternGenerator.Commutation

/-!
# The commutator with a toggle output

`commutation1.v` is a copy of `commutation.v` with one output more: in each state the
test for the state's own code also sets the latch `toggle`.  Apart from that the two
modules should be interchangeable.

* `Commutation1` — the module, with both latches of its next-state block;
* `Commutation1.slip` — the abstract commutator it refines (`Commutation1.stateQ_run`),
  which differs from `track` in one entry: an invalid code in sector `E` leads to `C`;
* `commutation1_agrees_iff` — the inputs on which the two modules show the same.
-/

namespace BldcFpga

open Clocked

/-- The register `state_Q` of `commutation1`, and the latches `state_D` and `toggle` of the
block in front of it. -/
structure Commutation1 where
  stateD : BitVec 3
  stateQ : BitVec 3
  toggle : Bool
  deriving DecidableEq, Repr

namespace Commutation1

open Commutation (A B C D E F branch code branch_code Input)

/-- One branch of the next-state `case`: the tests of `commutation`, with `toggle` set to
`level` in the test for the state's own code. -/
def row (keep own : BitVec 3) (level : Bool) (hallSensor : BitVec 3) (s : Commutation1) :
    Commutation1 :=
  { s with
    stateD := branch keep hallSensor
    toggle := if hallSensor = own then level else s.toggle }

/-- The next-state block.  Branch `E` keeps `C`, unlike its model and its neighbours. -/
def settle (hallSensor : BitVec 3) (s : Commutation1) : Commutation1 :=
  if s.stateQ = A then row A 0b101#3 true hallSensor s
  else if s.stateQ = B then row B 0b100#3 false hallSensor s
  else if s.stateQ = C then row C 0b110#3 true hallSensor s
  else if s.stateQ = D then row D 0b010#3 false hallSensor s
  else if s.stateQ = E then row C 0b011#3 true hallSensor s
  else if s.stateQ = F then row F 0b001#3 false hallSensor s
  else s

/-- A rising edge of `clock`.  The block has settled on the codes before the edge, and
follows the new state after it. -/
def step (i : Input) (s : Commutation1) : Commutation1 :=
  let before := settle i.hall.code s
  settle i.hall.code { before with stateQ := if i.reset then A else before.stateD }

/-- The outputs of `commutation1` apart from `toggle`. -/
def out (s : Commutation1) : Drive :=
  { ha := s.stateQ == A || s.stateQ == B
    hb := s.stateQ == C || s.stateQ == D
    hc := s.stateQ == E || s.stateQ == F
    la := s.stateQ == D || s.stateQ == E
    lb := s.stateQ == A || s.stateQ == F
    lc := s.stateQ == B || s.stateQ == C }

theorem out_code {s : Commutation1} {m : Sector} (hs : s.stateQ = code m) :
    out s = m.drive false := by
  obtain ⟨d, q, g⟩ := s
  subst hs
  cases m <;> rfl

/-! ## The commutator it refines -/

/-- What an invalid code leaves of a sector. -/
def keep (m : Sector) : Sector := if m = .E then .C else m

/-- One edge of the abstract commutator with the slip. -/
def slip (reset : Bool) (h : Hall) (m : Sector) : Sector :=
  if reset then .A else (Sector.ofHall h).getD (keep m)

/-- The block moves no register. -/
@[simp] theorem stateQ_settle (hallSensor : BitVec 3) (s : Commutation1) :
    (settle hallSensor s).stateQ = s.stateQ := by
  unfold settle
  split_ifs <;> rfl

/-- In a state of the table the block computes the abstract step. -/
theorem stateD_settle (h : Hall) {s : Commutation1} {m : Sector} (hs : s.stateQ = code m) :
    (settle h.code s).stateD = code ((Sector.ofHall h).getD (keep m)) := by
  have hrow : (settle h.code s).stateD = branch (code (keep m)) h.code := by
    obtain ⟨d, q, g⟩ := s
    subst hs
    cases m <;> rfl
  rw [hrow, branch_code]
  cases Sector.ofHall h <;> rfl

theorem stateQ_step (i : Input) {s : Commutation1} {m : Sector} (hs : s.stateQ = code m) :
    (step i s).stateQ = code (slip i.reset i.hall m) := by
  cases hr : i.reset with
  | true => simp [step, slip, hr, code]
  | false => simp [step, slip, hr, stateD_settle i.hall hs]

/-- A reset edge leads to sector `A` from any contents. -/
theorem stateQ_step_reset {i : Input} (hr : i.reset = true) (s : Commutation1) (m : Sector) :
    (step i s).stateQ = code (slip i.reset i.hall m) := by
  simp [step, slip, hr, code]

/-- The sector in which the abstract commutator with the slip is after `t` edges. -/
def slipAt (reset : ℕ → Bool) (hall : ℕ → Hall) (m₀ : Sector) (t : ℕ) : Sector :=
  run (fun i : Bool × Hall => slip i.1 i.2) m₀ (fun k => (reset k, hall k)) t

/-- **Refinement after a reset.** -/
theorem stateQ_run {inp : ℕ → Input} (h0 : (inp 0).reset = true) (s : Commutation1) (m₀ : Sector)
    {t : ℕ} (ht : 1 ≤ t) :
    (run step s inp t).stateQ =
      code (slipAt (fun k => (inp k).reset) (fun k => (inp k).hall) m₀ t) := by
  induction t, ht using Nat.le_induction with
  | base => exact stateQ_step_reset h0 s m₀
  | succ t ht ih => exact stateQ_step (inp t) ih

/-! ## Where the slip shows -/

/-- The two abstract commutators part on an invalid code in sector `E` only. -/
theorem slip_eq_track_iff (reset : Bool) (h : Hall) (m : Sector) :
    slip reset h m = track reset h m ↔
      ¬ (reset = false ∧ Sector.ofHall h = none ∧ m = .E) := by
  cases reset with
  | true => simp [slip, track]
  | false =>
    cases hv : Sector.ofHall h with
    | some m' => simp [slip, track, hv]
    | none => cases m <;> simp [slip, track, keep, hv]

/-- They agree for a whole run when no edge of it meets the slip, and for no run with such
an edge: if they have not parted before, they do then. -/
theorem slipAt_eq_sectorAt_iff {reset : ℕ → Bool} {hall : ℕ → Hall} (h0 : reset 0 = true)
    (m₀ : Sector) :
    (∀ t, 1 ≤ t → slipAt reset hall m₀ t = sectorAt reset hall m₀ t) ↔
      ∀ t, 1 ≤ t → reset t = false → Sector.ofHall (hall t) = none →
        sectorAt reset hall m₀ t ≠ .E := by
  have hstep : ∀ t, slipAt reset hall m₀ t = sectorAt reset hall m₀ t →
      (slipAt reset hall m₀ (t + 1) = sectorAt reset hall m₀ (t + 1) ↔
        ¬ (reset t = false ∧ Sector.ofHall (hall t) = none ∧ sectorAt reset hall m₀ t = .E)) := by
    intro t heq
    rw [slipAt, sectorAt, run_succ, run_succ, ← slipAt, ← sectorAt, heq]
    exact slip_eq_track_iff (reset t) (hall t) _
  constructor
  · intro hagree t ht hr hv hE
    exact (hstep t (hagree t ht)).1 (hagree (t + 1) (by omega)) ⟨hr, hv, hE⟩
  · intro hsafe t ht
    induction t, ht using Nat.le_induction with
    | base => exact (hstep 0 rfl).2 fun h => by simp [h0] at h
    | succ t ht ih => exact (hstep t ih).2 fun h => hsafe t ht h.1 h.2.1 h.2.2

end Commutation1

/-- **When the two commutators are interchangeable.**  For every sequence of inputs that
begins with a reset edge, and whatever the registers of both modules held before it: they
show the same outputs in every cycle if and only if no edge with `reset` low samples one
of the codes `000` and `111` while the most recent valid code since the last reset is
that of sector `E`. -/
theorem commutation1_agrees_iff (s : Commutation1) (s' : StateRegs) (inp : ℕ → Commutation.Input)
    (h0 : (inp 0).reset = true) :
    (∀ t, 1 ≤ t → Commutation1.out (run Commutation1.step s inp t) =
        Commutation.out (run Commutation.step s' inp t)) ↔
      ∀ t, 1 ≤ t → (inp t).reset = false → Sector.ofHall (inp t).hall = none →
        ¬ MostRecent (fun k => (inp k).reset) (fun k => (inp k).hall) t .E := by
  have hout : ∀ t, 1 ≤ t →
      (Commutation1.out (run Commutation1.step s inp t) =
          Commutation.out (run Commutation.step s' inp t) ↔
        Commutation1.slipAt (fun k => (inp k).reset) (fun k => (inp k).hall) .A t =
          sectorAt (fun k => (inp k).reset) (fun k => (inp k).hall) .A t) := by
    intro t ht
    rw [Commutation1.out_code (Commutation1.stateQ_run h0 s .A ht),
      Commutation.out_code (Commutation.stateQ_run h0 s' .A ht)]
    exact (Sector.drive_injective false).eq_iff
  have hrecent : ∀ t, 1 ≤ t →
      (MostRecent (fun k => (inp k).reset) (fun k => (inp k).hall) t .E ↔
        sectorAt (fun k => (inp k).reset) (fun k => (inp k).hall) .A t = .E) := by
    intro t ht
    have htrack : MostRecent (fun k => (inp k).reset) (fun k => (inp k).hall) t
        (sectorAt (fun k => (inp k).reset) (fun k => (inp k).hall) .A t) :=
      track_mostRecent h0 .A ht
    exact ⟨fun h => htrack.unique h, fun h => h ▸ htrack⟩
  rw [forall₂_congr hout, Commutation1.slipAt_eq_sectorAt_iff h0 .A]
  refine forall₂_congr fun t ht => ?_
  rw [hrecent t ht]

/-- A motor that stands in sector `B` with a sensor cable that fails in every other cycle. -/
theorem commutation1_agrees_glitches :
    let inp : ℕ → Commutation.Input := fun t =>
      ⟨decide (t = 0), if t % 2 = 0 then ⟨true, true, true⟩ else Sector.B.hall⟩
    ∀ t, 1 ≤ t → Commutation1.out (run Commutation1.step ⟨0#3, 7#3, false⟩ inp t) =
      Commutation.out (run Commutation.step ⟨0#3, 7#3⟩ inp t) := by
  intro inp
  refine (commutation1_agrees_iff ⟨0#3, 7#3, false⟩ ⟨0#3, 7#3⟩ inp rfl).2 ?_
  rintro t - - - ⟨j, -, ⟨-, hE⟩ | ⟨-, hE⟩, -⟩
  · cases hE
  · rcases Nat.mod_two_eq_zero_or_one j with hj | hj <;>
      simp [inp, hj, Sector.hall, Sector.ofHall] at hE

/-- Reset, then the code of sector `E`, then `111`: `commutation` stays in sector `E` and
drives legs C and A, `commutation1` goes to `C` and drives B and C. -/
theorem commutation1_slip :
    let inp : ℕ → Commutation.Input := fun t =>
      ⟨decide (t = 0), if t = 1 then Sector.E.hall else ⟨true, true, true⟩⟩
    (inp 0).reset = true ∧
      Commutation.out (run Commutation.step ⟨0#3, 0#3⟩ inp 3) = Sector.E.drive false ∧
      Commutation1.out (run Commutation1.step ⟨0#3, 0#3, false⟩ inp 3) = Sector.C.drive false ∧
      Sector.E.drive false ≠ Sector.C.drive false := by
  decide

end BldcFpga
