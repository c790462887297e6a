import BldcFpga.PatternGenerator.Commutation

/-!
# The hall code follower

`speed_measurement.v`: the state register `Tstep_Q` takes the hall code itself, and
`mac_out` is high while the two differ.  The `default` of its `case` assigns unknown
values, so the model carries them along.

* `SpeedMeasurement.nextState` — the combinational block, `SpeedMeasurement.step` the
  register;
* `SpeedMeasurement.tstepQ_run` — as long as only valid codes are sampled, the register
  holds the code of the abstract commutator's sector;
* `SpeedMeasurement.macOut_eq_none_iff` — the output is unknown outside the six states;
* `SpeedMeasurement.tstepQ_unknown` — the edge after an invalid code makes it unknown, until
  the next reset;
* `speedMeasurement_recovers_iff` — so it keeps to the six codes exactly when no invalid one
  is sampled.
-/

namespace BldcFpga

open Clocked

namespace SpeedMeasurement

/-- The parameters `A` to `F` of `speed_measurement` are hall codes. -/
def A : BitVec 3 := 0b101#3
def B : BitVec 3 := 0b100#3
def C : BitVec 3 := 0b110#3
def D : BitVec 3 := 0b010#3
def E : BitVec 3 := 0b011#3
def F : BitVec 3 := 0b001#3

/-- One branch of the `case`: the values of `Tstep_D` and `mac_out` in state `q`. -/
def branch (q hallEffect : BitVec 3) : Option (BitVec 3) × Option Bool :=
  if hallEffect ≠ q then (some hallEffect, some true) else (some q, some false)

/-- The combinational block.  `none` is the unknown value, `3'bx` or `1'bx`; the `default`
assigns it to both. -/
def nextState (tstepQ : Option (BitVec 3)) (hallEffect : BitVec 3) :
    Option (BitVec 3) × Option Bool :=
  if tstepQ = some A then branch A hallEffect
  else if tstepQ = some B then branch B hallEffect
  else if tstepQ = some C then branch C hallEffect
  else if tstepQ = some D then branch D hallEffect
  else if tstepQ = some E then branch E hallEffect
  else if tstepQ = some F then branch F hallEffect
  else (none, none)

/-- The output `mac_out`. -/
def macOut (tstepQ : Option (BitVec 3)) (hallEffect : BitVec 3) : Option Bool :=
  (nextState tstepQ hallEffect).2

/-- The inputs of `speed_measurement` at a clock edge. -/
structure Input where
  reset : Bool
  hallEffect : Hall
  deriving DecidableEq, Repr

/-- A rising edge of `clock`. -/
def step (i : Input) (tstepQ : Option (BitVec 3)) : Option (BitVec 3) :=
  if i.reset then some A else (nextState tstepQ i.hallEffect.code).1

/-- `Tstep_Q` holds one of the six state codes. -/
def IsState (tstepQ : Option (BitVec 3)) : Prop :=
  tstepQ = some A ∨ tstepQ = some B ∨ tstepQ = some C ∨ tstepQ = some D ∨ tstepQ = some E ∨
    tstepQ = some F

instance : DecidablePred IsState := fun _ => inferInstanceAs (Decidable (_ ∨ _))

/-! ## The two kinds of contents -/

theorem isState_hall : ∀ m : Sector, IsState (some m.hall.code) := by decide

theorem exists_hall {q : Option (BitVec 3)} (hq : IsState q) :
    ∃ m : Sector, q = some m.hall.code := by
  rcases hq with rfl | rfl | rfl | rfl | rfl | rfl
  · exact ⟨.A, rfl⟩
  · exact ⟨.B, rfl⟩
  · exact ⟨.C, rfl⟩
  · exact ⟨.D, rfl⟩
  · exact ⟨.E, rfl⟩
  · exact ⟨.F, rfl⟩

/-- A hall code is a state code if and only if it belongs to a sector. -/
theorem isState_code (h : Hall) : IsState (some h.code) ↔ (Sector.ofHall h).isSome = true := by
  revert h
  decide

/-- Different sensor levels have different codes. -/
theorem code_injective : Function.Injective Hall.code := by
  intro h h'
  revert h h'
  decide

/-- **In a state** the next one is the raw input, and `mac_out` tells the two apart. -/
theorem nextState_hall (m : Sector) (h : Hall) :
    nextState (some m.hall.code) h.code = (some h.code, some (decide (h ≠ m.hall))) := by
  revert m h
  decide

theorem macOut_hall (m : Sector) (h : Hall) :
    macOut (some m.hall.code) h.code = some (decide (h ≠ m.hall)) := by
  rw [macOut, nextState_hall]

/-- Once the register has taken a valid code the output is low. -/
theorem macOut_self {h : Hall} (hh : (Sector.ofHall h).isSome = true) :
    macOut (some h.code) h.code = some false := by
  obtain ⟨m, hm⟩ := Option.isSome_iff_exists.1 hh
  rw [Sector.hall_of_ofHall hm, macOut_hall]
  simp

/-- **In no state** everything is unknown. -/
theorem nextState_of_not_isState {q : Option (BitVec 3)} (hq : ¬ IsState q) (code : BitVec 3) :
    nextState q code = (none, none) := by
  simp only [IsState, not_or] at hq
  obtain ⟨hA, hB, hC, hD, hE, hF⟩ := hq
  simp [nextState, hA, hB, hC, hD, hE, hF]

/-- The output is known in the six states only. -/
theorem macOut_eq_none_iff (q : Option (BitVec 3)) (h : Hall) :
    macOut q h.code = none ↔ ¬ IsState q := by
  by_cases hq : IsState q
  · obtain ⟨m, rfl⟩ := exists_hall hq
    simp [macOut, nextState_hall, isState_hall]
  · simp [macOut, nextState_of_not_isState hq, hq]

/-! ## Runs -/

section Run

variable (q : Option (BitVec 3)) (inp : ℕ → Input)

/-- `Tstep_Q` after `t` clock edges. -/
def tstepQ (t : ℕ) : Option (BitVec 3) := run step q inp t

variable {q inp}

theorem tstepQ_reset {t : ℕ} (hr : (inp t).reset = true) : tstepQ q inp (t + 1) = some A := by
  simp [tstepQ, run_succ, step, hr]

/-- From a state the register takes the raw input. -/
theorem tstepQ_succ {t : ℕ} (hq : IsState (tstepQ q inp t)) (hr : (inp t).reset = false) :
    tstepQ q inp (t + 1) = some (inp t).hallEffect.code := by
  obtain ⟨m, hm⟩ := exists_hall hq
  rw [tstepQ] at hm ⊢
  simp [run_succ, hm, step, hr, nextState_hall]

/-- **Unknown for good.**  Without a state the register is unknown after the next edge, and
stays so until a reset. -/
theorem tstepQ_unknown {t : ℕ} (hq : ¬ IsState (tstepQ q inp t)) (k : ℕ)
    (hr : ∀ i ≤ k, (inp (t + i)).reset = false) : tstepQ q inp (t + k + 1) = none := by
  have hstep : ∀ {i}, ¬ IsState (tstepQ q inp i) → (inp i).reset = false →
      tstepQ q inp (i + 1) = none := by
    intro i hi hri
    rw [tstepQ] at hi ⊢
    simp [run_succ, step, hri, nextState_of_not_isState hi]
  induction k with
  | zero => exact hstep hq (hr 0 le_rfl)
  | succ k ih =>
    have hnone := ih fun i hi => hr i (by omega)
    apply hstep
    · rw [← Nat.add_assoc, hnone]
      decide
    · exact hr (k + 1) le_rfl

/-- **Refinement.**  After a reset edge, and as long as only valid codes are sampled, the
register holds the code of the abstract commutator's sector. -/
theorem tstepQ_run (h0 : (inp 0).reset = true)
    (hvalid : ∀ t, 1 ≤ t → (inp t).reset = false →
      (Sector.ofHall (inp t).hallEffect).isSome = true) (m₀ : Sector) {t : ℕ} (ht : 1 ≤ t) :
    tstepQ q inp t = some
      (sectorAt (fun k => (inp k).reset) (fun k => (inp k).hallEffect) m₀ t).hall.code := by
  induction t, ht using Nat.le_induction with
  | base =>
    rw [tstepQ_reset h0, sectorAt, run_succ, track, if_pos h0]
    rfl
  | succ t ht ih =>
    have hstate : IsState (tstepQ q inp t) := by
      rw [ih]
      exact isState_hall _
    rw [sectorAt, run_succ, track]
    cases hr : (inp t).reset with
    | true =>
      rw [tstepQ_reset hr, if_pos rfl]
      rfl
    | false =>
      obtain ⟨m, hm⟩ := Option.isSome_iff_exists.1 (hvalid t ht hr)
      rw [tstepQ_succ hstate hr, hm, Sector.hall_of_ofHall hm]
      rfl

end Run

end SpeedMeasurement

open SpeedMeasurement in
/-- **When the follower survives.**  For every contents of the register and every stream of
inputs that begins with a reset edge: the register keeps to the six state codes, and it shows
every valid code that was there at two edges in a row with `reset` low, if and only if no
invalid code is ever sampled. -/
theorem speedMeasurement_recovers_iff (q : Option (BitVec 3)) (inp : ℕ → Input)
    (h0 : (inp 0).reset = true) :
    ((∀ t, 1 ≤ t → IsState (tstepQ q inp t)) ∧
      ∀ (t : ℕ) (m : Sector), 1 ≤ t →
        (inp t).reset = false → (inp t).hallEffect = m.hall →
        (inp (t + 1)).reset = false → (inp (t + 1)).hallEffect = m.hall →
        tstepQ q inp (t + 2) = some m.hall.code) ↔
      ∀ t, 1 ≤ t → (inp t).reset = false →
        (Sector.ofHall (inp t).hallEffect).isSome = true := by
  constructor
  · rintro ⟨hstate, -⟩ t ht hr
    have hnext := hstate (t + 1) (by omega)
    rwa [tstepQ_succ (hstate t ht) hr, isState_code] at hnext
  · intro hvalid
    have hstate : ∀ t, 1 ≤ t → IsState (tstepQ q inp t) := by
      intro t ht
      rw [tstepQ_run h0 hvalid .A ht]
      exact isState_hall _
    refine ⟨hstate, fun t m ht _ _ hr hm => ?_⟩
    rw [tstepQ_succ (hstate (t + 1) (by omega)) hr, hm]

open SpeedMeasurement in
/-- A reset edge, then `B` held for ever. -/
theorem speedMeasurement_recovers_iff_clean :
    let inp : ℕ → Input := fun t => ⟨decide (t = 0), Sector.B.hall⟩
    tstepQ none inp 3 = some B := by
  intro inp
  exact ((speedMeasurement_recovers_iff none inp rfl).2 fun _ _ _ => rfl).2 1 .B le_rfl rfl rfl
    rfl rfl

open SpeedMeasurement in
/-- A reset edge, `000` at the next one, then `B` held for ever: the register takes `000` and
is unknown from then on. -/
theorem speedMeasurement_glitch :
    let inp : ℕ → Input := fun t =>
      ⟨decide (t = 0), if t ≤ 1 then ⟨false, false, false⟩ else Sector.B.hall⟩
    ¬ IsState (tstepQ none inp 2) ∧
      ∀ t, 2 ≤ t → (inp t).hallEffect = Sector.B.hall ∧ (inp t).reset = false ∧
        tstepQ none inp (t + 1) = none := by
  intro inp
  have hglitch : ¬ IsState (tstepQ none inp 2) := by decide
  have hreset : ∀ t, 2 ≤ t → (inp t).reset = false := by
    intro t ht
    simp [inp, show t ≠ 0 by omega]
  refine ⟨hglitch, fun t ht => ⟨if_neg (by omega), hreset t ht, ?_⟩⟩
  obtain ⟨k, rfl⟩ := Nat.exists_eq_add_of_le ht
  exact tstepQ_unknown hglitch k fun i _ => hreset (2 + i) (by omega)

end BldcFpga
