import BldcFpga.Clocked.Run

/-!
# Six-step commutation: sectors, hall codes and half-bridges

The purpose of the commutation modules, stated without any registers.  A brushless
motor with three hall sensors has six *sectors*; each sector has one valid hall
code, and the codes `000` and `111` belong to none.  In each sector one leg of the
bridge is switched high and another one low.

* `Hall`, `Sector` — the three sensor wires and the six sectors, with
  `Sector.ofHall` and `Sector.hall` going back and forth;
* `Drive` — the six gate outputs; `Drive.OneEach` says that exactly one high and
  one low output are on and that they belong to different legs;
* `Sector.drive` — the outputs of a sector for either direction of rotation;
* `track` — the abstract commutator, which follows the valid codes, and
  `track_mostRecent`, what it has arrived at after any history;
* `HasDeadTime` — no leg is handed from its high to its low output, or back,
  without a cycle in which both are off.
-/

namespace BldcFpga

/-! ## Hall codes and sectors -/

/-- The three hall sensor wires. -/
structure Hall where
  a : Bool
  b : Bool
  c : Bool
  deriving DecidableEq, Repr, Fintype

/-- The concatenation `{halla, hallb, hallc}`. -/
def Hall.code (h : Hall) : BitVec 3 := BitVec.ofBool h.a ++ BitVec.ofBool h.b ++ BitVec.ofBool h.c

/-- Two codes differ in exactly one wire. -/
def Hall.OneBit (h h' : Hall) : Prop :=
  (h.a ^^ h'.a).toNat + (h.b ^^ h'.b).toNat + (h.c ^^ h'.c).toNat = 1

instance (h h' : Hall) : Decidable (h.OneBit h') := inferInstanceAs (Decidable (_ = _))

/-- The six sectors of one electrical revolution, in order. -/
inductive Sector where
  | A | B | C | D | E | F
  deriving DecidableEq, Repr

instance : Fintype Sector :=
  ⟨{.A, .B, .C, .D, .E, .F}, fun m => by cases m <;> decide⟩

namespace Sector

/-- The hall code of a sector. -/
def hall : Sector → Hall
  | A => ⟨true, false, true⟩
  | B => ⟨true, false, false⟩
  | C => ⟨true, true, false⟩
  | D => ⟨false, true, false⟩
  | E => ⟨false, true, true⟩
  | F => ⟨false, false, true⟩

/-- The sector of a hall code; `000` and `111` have none. -/
def ofHall : Hall → Option Sector
  | ⟨true, false, true⟩ => some A
  | ⟨true, false, false⟩ => some B
  | ⟨true, true, false⟩ => some C
  | ⟨false, true, false⟩ => some D
  | ⟨false, true, true⟩ => some E
  | ⟨false, false, true⟩ => some F
  | ⟨false, false, false⟩ => none
  | ⟨true, true, true⟩ => none

@[simp] theorem ofHall_hall (m : Sector) : ofHall m.hall = some m := by cases m <;> rfl

theorem hall_of_ofHall {h : Hall} {m : Sector} (hm : ofHall h = some m) : h = m.hall := by
  obtain ⟨a, b, c⟩ := h
  cases a <;> cases b <;> cases c <;> simp [ofHall] at hm <;> subst hm <;> rfl

/-- The neighbour in the order of rotation. -/
def next : Sector → Sector
  | A => B
  | B => C
  | C => D
  | D => E
  | E => F
  | F => A

/-- Codes that differ in one wire belong to neighbouring sectors. -/
theorem oneBit_hall : ∀ m m' : Sector, m.hall.OneBit m'.hall ↔ m' = m.next ∨ m = m'.next := by
  decide

end Sector

/-! ## Half-bridges -/

/-- The three legs of the inverter. -/
inductive Leg where
  | a | b | c
  deriving DecidableEq, Repr

instance : Fintype Leg := ⟨{.a, .b, .c}, fun x => by cases x <;> decide⟩

/-- The six gate outputs. -/
structure Drive where
  ha : Bool
  hb : Bool
  hc : Bool
  la : Bool
  lb : Bool
  lc : Bool
  deriving DecidableEq, Repr

namespace Drive

/-- The high-side output of a leg. -/
def high (d : Drive) : Leg → Bool
  | .a => d.ha
  | .b => d.hb
  | .c => d.hc

/-- The low-side output of a leg. -/
def low (d : Drive) : Leg → Bool
  | .a => d.la
  | .b => d.lb
  | .c => d.lc

/-- The high and the low output of each leg exchanged. -/
def swap (d : Drive) : Drive := ⟨d.la, d.lb, d.lc, d.ha, d.hb, d.hc⟩

/-- Exactly one high and exactly one low output are on, on different legs. -/
def OneEach (d : Drive) : Prop :=
  ∃ x y : Leg, x ≠ y ∧ (∀ z, d.high z = true ↔ z = x) ∧ ∀ z, d.low z = true ↔ z = y

instance (d : Drive) : Decidable d.OneEach :=
  inferInstanceAs (Decidable (∃ _ _ : Leg, _ ∧ (∀ _, _) ∧ ∀ _, _))

/-- Some leg goes straight from its high to its low output, or back. -/
def DirectSwitch (d d' : Drive) : Prop :=
  ∃ x : Leg, d.high x = true ∧ d'.low x = true ∨ d.low x = true ∧ d'.high x = true

instance (d d' : Drive) : Decidable (d.DirectSwitch d') :=
  inferInstanceAs (Decidable (∃ _ : Leg, _ ∨ _))

end Drive

/-- The outputs of a sector.  Backward rotation exchanges high and low. -/
def Sector.drive (forward : Bool) (m : Sector) : Drive :=
  let d : Drive := match m with
    | .A => ⟨true, false, false, false, true, false⟩
    | .B => ⟨true, false, false, false, false, true⟩
    | .C => ⟨false, true, false, false, false, true⟩
    | .D => ⟨false, true, false, true, false, false⟩
    | .E => ⟨false, false, true, true, false, false⟩
    | .F => ⟨false, false, true, false, true, false⟩
  if forward then d.swap else d

theorem Sector.drive_oneEach : ∀ (f : Bool) (m : Sector), (m.drive f).OneEach := by decide

/-- The outputs give the sector away. -/
theorem Sector.drive_injective (f : Bool) : Function.Injective (Sector.drive f) := by
  intro m m' h
  revert f m m'
  decide

theorem Sector.drive_true (m : Sector) : m.drive true = (m.drive false).swap := rfl

/-- In one direction of rotation neither a sector nor a step to a neighbour
switches a leg over directly. -/
theorem Sector.no_directSwitch :
    ∀ (f : Bool) (m m' : Sector), m' = m ∨ m' = m.next ∨ m = m'.next →
      ¬ (m.drive f).DirectSwitch (m'.drive f) := by
  decide

/-- A change of direction always switches a leg over directly, in the same sector
and in both neighbours. -/
theorem Sector.directSwitch_of_reverse :
    ∀ (f : Bool) (m m' : Sector), m' = m ∨ m' = m.next ∨ m = m'.next →
      (m.drive f).DirectSwitch (m'.drive !f) := by
  decide

/-! ## Dead time -/

/-- Between the high and the low output of a leg, in either order, there is always
a cycle with both off; in particular no leg is switched over in one step. -/
def HasDeadTime (out : ℕ → Drive) : Prop :=
  (∀ t, ¬ (out t).DirectSwitch (out (t + 1))) ∧
    ∀ (x : Leg) (t u : ℕ), t < u →
      ((out t).high x = true ∧ (out u).low x = true ∨
        (out t).low x = true ∧ (out u).high x = true) →
      ∃ v, t < v ∧ v < u ∧ (out v).high x = false ∧ (out v).low x = false

/-- If `P` is never followed by `Q` at once, then it is never followed by `Q` through
cycles that all satisfy one of the two. -/
theorem not_of_no_handover {P Q : ℕ → Prop} (h : ∀ t, P t → ¬ Q (t + 1)) {t u : ℕ} (htu : t < u)
    (ht : P t) (hon : ∀ v, t < v → v < u → P v ∨ Q v) : ¬ Q u := by
  have hP : ∀ k, t + k < u → P (t + k) := by
    intro k
    induction k with
    | zero => exact fun _ => ht
    | succ k ih =>
      intro hk
      exact (hon (t + (k + 1)) (by omega) hk).resolve_right (h _ (ih (by omega)))
  have := h _ (hP (u - 1 - t) (by omega))
  rwa [show t + (u - 1 - t) + 1 = u by omega] at this

/-- It is enough to look at consecutive cycles. -/
theorem hasDeadTime_iff {out : ℕ → Drive} :
    HasDeadTime out ↔ ∀ t, ¬ (out t).DirectSwitch (out (t + 1)) := by
  refine ⟨fun h => h.1, fun h => ⟨h, fun x t u htu hends => ?_⟩⟩
  by_contra hno
  have hon : ∀ v, t < v → v < u → (out v).high x = true ∨ (out v).low x = true := by
    intro v h1 h2
    by_contra hoff
    simp only [not_or, Bool.not_eq_true] at hoff
    exact hno ⟨v, h1, h2, hoff.1, hoff.2⟩
  rcases hends with ⟨ht, hu⟩ | ⟨ht, hu⟩
  · exact not_of_no_handover (fun v hv hv' => h v ⟨x, Or.inl ⟨hv, hv'⟩⟩) htu ht hon hu
  · exact not_of_no_handover (fun v hv hv' => h v ⟨x, Or.inr ⟨hv, hv'⟩⟩) htu ht
      (fun v h1 h2 => (hon v h1 h2).symm) hu

/-! ## The abstract commutator -/

/-- One edge of the abstract commutator: a reset leads to sector `A`, a valid code
to its sector, and an invalid code changes nothing. -/
def track (reset : Bool) (h : Hall) (m : Sector) : Sector :=
  if reset then .A else (Sector.ofHall h).getD m

/-- `m` is the sector of the most recent valid code sampled at an edge after the
last reset edge below `t`, or `A` if there was none: after edge `j`, which was that
reset or sampled that code, there were only invalid codes and no reset. -/
def MostRecent (reset : ℕ → Bool) (hall : ℕ → Hall) (t : ℕ) (m : Sector) : Prop :=
  ∃ j < t,
    (reset j = true ∧ m = .A ∨ reset j = false ∧ Sector.ofHall (hall j) = some m) ∧
    ∀ i, j < i → i < t → reset i = false ∧ Sector.ofHall (hall i) = none

/-- A run of the abstract commutator that begins with a reset has arrived at the
sector of the most recent valid code. -/
theorem track_mostRecent {reset : ℕ → Bool} {hall : ℕ → Hall} (h0 : reset 0 = true) (m₀ : Sector)
    {t : ℕ} (ht : 1 ≤ t) :
    MostRecent reset hall t
      (Clocked.run (fun i : Bool × Hall => track i.1 i.2) m₀ (fun k => (reset k, hall k)) t) := by
  induction t, ht using Nat.le_induction with
  | base => exact ⟨0, by omega, Or.inl ⟨h0, by simp [Clocked.run, track, h0]⟩, by omega⟩
  | succ t ht ih =>
    rw [Clocked.run_succ]
    set m := Clocked.run (fun i : Bool × Hall => track i.1 i.2) m₀ (fun k => (reset k, hall k)) t
    cases hr : reset t with
    | true => exact ⟨t, by omega, Or.inl ⟨hr, by simp [track]⟩, by omega⟩
    | false =>
      cases hv : Sector.ofHall (hall t) with
      | some m' => exact ⟨t, by omega, Or.inr ⟨hr, by simp [track, hv]⟩, by omega⟩
      | none =>
        obtain ⟨j, hj, hjm, hlast⟩ := ih
        refine ⟨j, by omega, by simpa [track, hr, hv] using hjm, fun i hji hit => ?_⟩
        rcases Nat.lt_succ_iff_lt_or_eq.1 hit with hit | rfl
        · exact hlast i hji hit
        · exact ⟨hr, hv⟩

/-- There is only one such sector. -/
theorem MostRecent.unique {reset : ℕ → Bool} {hall : ℕ → Hall} {t : ℕ} {m m' : Sector}
    (h : MostRecent reset hall t m) (h' : MostRecent reset hall t m') : m = m' := by
  obtain ⟨j, hj, hm, hlast⟩ := h
  obtain ⟨j', hj', hm', hlast'⟩ := h'
  rcases Nat.lt_trichotomy j j' with hlt | rfl | hlt
  · have hno := hlast j' hlt hj'
    simp [hno.1, hno.2] at hm'
  · rcases hm with ⟨hr, rfl⟩ | ⟨hr, hv⟩
    · rcases hm' with ⟨-, rfl⟩ | ⟨hr', -⟩
      · rfl
      · simp [hr] at hr'
    · rcases hm' with ⟨hr', -⟩ | ⟨-, hv'⟩
      · simp [hr] at hr'
      · exact Option.some.inj (hv.symm.trans hv')
  · have hno := hlast' j hlt hj
    simp [hno.1, hno.2] at hm

end BldcFpga
