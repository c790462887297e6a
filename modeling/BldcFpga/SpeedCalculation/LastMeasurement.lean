import BldcFpga.SpeedCalculation.Wrapper

/-!
# What the displayed speed depends on

The display should show the last measurement and nothing older.  A count without a
row in `rpm_lut` lets an older reading through, since the table's latch then keeps
what it held.

* `LastMeasurementOnly` — the two-run property: the same three counts loaded, the same
  speed shown while they stand;
* `lastMeasurementOnly_of_le` — it holds of counts which all have a row;
* `lastMeasurement_iff` — and of no others: two histories from power-up which differ
  in the window before already tell them apart.
-/

namespace BldcFpga

open Clocked

namespace SpeedCalculationWrapper

variable {maxValue : ℕ}

/-- At edge `T` a window ends, in all three channels, and the counts `a`, `b` and `c`
are loaded. -/
structure Loads (maxValue : ℕ) (s : SpeedCalculationWrapper) (h : Sensors) (T : ℕ)
    (a b c : BitVec 8) : Prop where
  HA : Channel.Loads maxValue s.HA h.a T a
  HB : Channel.Loads maxValue s.HB h.b T b
  HC : Channel.Loads maxValue s.HC h.c T c

/-- Two runs from `start` which load the counts `a`, `b` and `c`, each after a history of
its own, show the same speed from two clocks after that until the next window ends. -/
def LastMeasurementOnly (maxValue : ℕ) (start : Set SpeedCalculationWrapper)
    (a b c : BitVec 8) : Prop :=
  ∀ s ∈ start, ∀ s' ∈ start, ∀ (h h' : Sensors) (T T' : ℕ),
    Loads maxValue s h T a b c → Loads maxValue s' h' T' a b c →
      ∀ m, 2 ≤ m → m ≤ maxValue + 1 →
        rpm (states maxValue s h (T + 1 + m)) = rpm (states maxValue s' h' (T' + 1 + m))

/-! ## Counts with a row -/

/-- What is shown after a window: the average of what the counts find in the tables,
or of what the latches held before. -/
theorem Loads.rpm_eq (hM : maxValue < 2 ^ 26) {s : SpeedCalculationWrapper} {h : Sensors} {T : ℕ}
    {a b c : BitVec 8} (hl : Loads maxValue s h T a b c) {m : ℕ} (hm : 2 ≤ m)
    (hle : m ≤ maxValue + 1) :
    rpm (states maxValue s h (T + 1 + m)) =
      Averager.average (rpmLut a (Channel.states maxValue s.HA h.a T).rpm)
        (rpmLut b (Channel.states maxValue s.HB h.b T).rpm)
        (rpmLut c (Channel.states maxValue s.HC h.c T).rpm) := by
  obtain ⟨m, rfl⟩ : ∃ k, m = k + 2 := ⟨m - 2, by omega⟩
  have hA := hl.HA.rpm_hold hM (show m ≤ maxValue by omega)
  have hB := hl.HB.rpm_hold hM (show m ≤ maxValue by omega)
  have hC := hl.HC.rpm_hold hM (show m + 1 ≤ maxValue by omega)
  rw [← Nat.add_assoc, rpm_run, hA, hB, Nat.add_assoc (T + 1), hC]

theorem lastMeasurementOnly_mono {start start' : Set SpeedCalculationWrapper} {a b c : BitVec 8}
    (hsub : start ⊆ start') (h : LastMeasurementOnly maxValue start' a b c) :
    LastMeasurementOnly maxValue start a b c :=
  fun s hs s' hs' => h s (hsub hs) s' (hsub hs')

/-- With a row for every count the history does not matter, whatever the registers held
at the start. -/
theorem lastMeasurementOnly_of_le (hM : maxValue < 2 ^ 26) {a b c : BitVec 8}
    (ha : a.toNat ≤ 200) (hb : b.toNat ≤ 200) (hc : c.toNat ≤ 200) :
    LastMeasurementOnly maxValue Set.univ a b c := by
  intro s _ s' _ h h' T T' hl hl' m hm hle
  rw [hl.rpm_eq hM hm hle, hl'.rpm_eq hM hm hle]
  congr 1
  · exact rpmLut_of_le ha _ _
  · exact rpmLut_of_le hb _ _
  · exact rpmLut_of_le hc _ _

end SpeedCalculationWrapper

/-! ## Counts without a row -/

namespace Channel

/-- Every register at zero. -/
def powerUp : Channel where
  speed := ⟨0#26, 0#8, 0#8, false⟩
  rpm := 0#10

/-- A sensor that is low at power-up and then follows bursts has their waveform. -/
theorem wave_powerUp {maxValue : ℕ} (cnt : ℕ → ℕ) :
    SpeedCalculation.wave powerUp.speed (fun k => bursts (maxValue + 1) cnt (k + 1)) =
      bursts (maxValue + 1) cnt := by
  funext t
  cases t with
  | zero => simp [SpeedCalculation.wave, bursts, powerUp]
  | succ t => rfl

/-- A sensor that turns `first` times in the first window and `n` times in every later
one. -/
def bursting (maxValue : ℕ) (first n : BitVec 8) (k : ℕ) : Bool :=
  bursts (maxValue + 1) (fun q => if q = 0 then first.toNat else n.toNat) (k + 1)

section Bursting

variable {maxValue : ℕ} (hM : maxValue < 2 ^ 26) (hwide : 510 ≤ maxValue) (first n : BitVec 8)

include hM hwide

/-- The counter loads the length of the burst. -/
theorem bursting_loads (q : ℕ) :
    Loads maxValue powerUp (bursting maxValue first n) (q * (maxValue + 1) + maxValue)
      (if q = 0 then first else n) := by
  have hpos : 1 ≤ maxValue := by omega
  have hrises : risesIn (SpeedCalculation.wave powerUp.speed (bursting maxValue first n))
      (q * (maxValue + 1)) maxValue = if q = 0 then first.toNat else n.toNat := by
    have hfirst := first.isLt
    have hn := n.isLt
    have hwave : SpeedCalculation.wave powerUp.speed (bursting maxValue first n) =
        bursts (maxValue + 1) fun q => if q = 0 then first.toNat else n.toNat :=
      wave_powerUp _
    rw [hwave, risesIn_bursts _ _ (Nat.lt_succ_self maxValue)]
    exact Nat.min_eq_right (by split_ifs <;> omega)
  have hcounts : Counts maxValue powerUp (bursting maxValue first n) (q * (maxValue + 1)) _ :=
    counts_window hM hpos rfl rfl q
  have hloads := hcounts.loads hM hpos
  rw [hrises] at hloads
  split_ifs at hloads ⊢
  · simpa using hloads
  · simpa using hloads

/-- After the second window the table has been asked for both counts. -/
theorem rpm_bursting (hfirst : first.toNat ≤ 200) :
    rpmLut n (states maxValue powerUp (bursting maxValue first n)
      (1 * (maxValue + 1) + maxValue)).rpm = rpmLut n (rpmLut first 0#10) := by
  have hold := (bursting_loads hM hwide first n 0).rpm_hold hM (le_refl maxValue)
  rw [show 0 * (maxValue + 1) + maxValue + 1 + maxValue = 1 * (maxValue + 1) + maxValue by ring,
    if_pos rfl] at hold
  rw [hold, rpmLut_of_le hfirst _ 0#10]

end Bursting

end Channel

namespace SpeedCalculationWrapper

open Averager

variable {maxValue : ℕ}

/-- Every register at zero. -/
def powerUp : SpeedCalculationWrapper where
  HA := Channel.powerUp
  HB := Channel.powerUp
  HC := Channel.powerUp
  dividers := ⟨0#11, 0#11⟩

/-- Three sensors that turn `first` times in the first window, and `a`, `b` and `c` times
in every later one. -/
def bursting (maxValue : ℕ) (first a b c : BitVec 8) : Sensors where
  a := Channel.bursting maxValue first a
  b := Channel.bursting maxValue first b
  c := Channel.bursting maxValue first c

section Bursting

variable (hM : maxValue < 2 ^ 26) (hwide : 510 ≤ maxValue) (first a b c : BitVec 8)

include hM hwide

theorem bursting_loads :
    Loads maxValue powerUp (bursting maxValue first a b c) (1 * (maxValue + 1) + maxValue)
      a b c where
  HA := Channel.bursting_loads hM hwide first a 1
  HB := Channel.bursting_loads hM hwide first b 1
  HC := Channel.bursting_loads hM hwide first c 1

/-- What is shown after the second window. -/
theorem rpm_bursting (hfirst : first.toNat ≤ 200) {m : ℕ} (hm : 2 ≤ m) (hle : m ≤ maxValue + 1) :
    rpm (states maxValue powerUp (bursting maxValue first a b c)
        (1 * (maxValue + 1) + maxValue + 1 + m)) =
      average (rpmLut a (rpmLut first 0#10)) (rpmLut b (rpmLut first 0#10))
        (rpmLut c (rpmLut first 0#10)) := by
  rw [(bursting_loads hM hwide first a b c).rpm_eq hM hm hle]
  congr 1 <;> exact Channel.rpm_bursting hM hwide first _ hfirst

end Bursting

/-- A latch that held 0 and one that held 800 agree after a count with a row, and are
still apart after one without. -/
theorem rpmLut_apart (d : BitVec 8) :
    (rpmLut d 0#10).toNat ≤ (rpmLut d 800#10).toNat ∧ (rpmLut d 800#10).toNat ≤ 800 ∧
      (200 < d.toNat → (rpmLut d 0#10).toNat + 800 = (rpmLut d 800#10).toNat) := by
  have hle : (rpmLut d 800#10).toNat ≤ 800 := rpmLut_le d (by decide)
  rcases Nat.lt_or_ge 200 d.toNat with h | h
  · rw [rpmLut_of_gt h, rpmLut_of_gt h]
    exact ⟨by decide, by decide, fun _ => by decide⟩
  · rw [rpmLut_of_le h 0#10 800#10]
    exact ⟨le_rfl, hle, fun hgt => absurd hgt (by omega)⟩

/-- The average shows it. -/
theorem average_lt {a b c : BitVec 8}
    (hbad : 200 < a.toNat ∨ 200 < b.toNat ∨ 200 < c.toNat) :
    (average (rpmLut a 0#10) (rpmLut b 0#10) (rpmLut c 0#10)).toNat <
      (average (rpmLut a 800#10) (rpmLut b 800#10) (rpmLut c 800#10)).toNat := by
  obtain ⟨hA, hA', hAgt⟩ := rpmLut_apart a
  obtain ⟨hB, hB', hBgt⟩ := rpmLut_apart b
  obtain ⟨hC, hC', hCgt⟩ := rpmLut_apart c
  rw [average_toNat, average_toNat]
  rcases hbad with h | h | h
  · have := hAgt h
    omega
  · have := hBgt h
    omega
  · have := hCgt h
    omega

/-- The two histories tell the counts apart. -/
theorem not_lastMeasurementOnly (hM : maxValue < 2 ^ 26) (hwide : 510 ≤ maxValue)
    {a b c : BitVec 8} (hbad : 200 < a.toNat ∨ 200 < b.toNat ∨ 200 < c.toNat) :
    ¬ LastMeasurementOnly maxValue {powerUp} a b c := by
  intro honly
  have h := bursting_loads hM hwide 0#8 a b c
  have h' := bursting_loads hM hwide 200#8 a b c
  have hshown := honly powerUp rfl powerUp rfl _ _ _ _ h h' 2 le_rfl (by omega)
  rw [rpm_bursting hM hwide 0#8 a b c (by decide) le_rfl (by omega),
    rpm_bursting hM hwide 200#8 a b c (by decide) le_rfl (by omega),
    show rpmLut 0#8 0#10 = 0#10 by decide, show rpmLut 200#8 0#10 = 800#10 by decide] at hshown
  exact absurd (congrArg BitVec.toNat hshown) (average_lt hbad).ne

end SpeedCalculationWrapper

open SpeedCalculation SpeedCalculationWrapper in
/-- **When the display shows the last measurement only.**  For all counts `a`, `b` and
`c`: every two runs of the board's module that load them show the same speed while they
stand, if and only if each of them has a row in `rpm_lut`.  It makes no difference
whether the runs may start with anything in the registers or start at power-up. -/
theorem lastMeasurement_iff (a b c : BitVec 8) :
    (LastMeasurementOnly maxValueDefault Set.univ a b c ↔
      a.toNat ≤ 200 ∧ b.toNat ≤ 200 ∧ c.toNat ≤ 200) ∧
    (LastMeasurementOnly maxValueDefault {powerUp} a b c ↔
      a.toNat ≤ 200 ∧ b.toNat ≤ 200 ∧ c.toNat ≤ 200) := by
  have hM : maxValueDefault < 2 ^ 26 := maxValueDefault_lt
  have hwide : 510 ≤ maxValueDefault := le_trans (by omega) le_maxValueDefault
  have hrow : a.toNat ≤ 200 ∧ b.toNat ≤ 200 ∧ c.toNat ≤ 200 →
      LastMeasurementOnly maxValueDefault Set.univ a b c :=
    fun ⟨ha, hb, hc⟩ => lastMeasurementOnly_of_le hM ha hb hc
  have hbad : LastMeasurementOnly maxValueDefault {powerUp} a b c →
      a.toNat ≤ 200 ∧ b.toNat ≤ 200 ∧ c.toNat ≤ 200 := by
    intro honly
    by_contra hno
    exact not_lastMeasurementOnly hM hwide (by omega) honly
  have hmono : LastMeasurementOnly maxValueDefault Set.univ a b c →
      LastMeasurementOnly maxValueDefault {powerUp} a b c :=
    lastMeasurementOnly_mono (Set.subset_univ {powerUp})
  exact ⟨⟨fun h => hbad (hmono h), hrow⟩, ⟨hbad, fun h => hmono (hrow h)⟩⟩

open SpeedCalculation SpeedCalculationWrapper in
/-- An overspeed reading of 201 turns on sensor A, after a first window without any turn
and after one with 200: in the second window both runs load 201, 0 and 0, and two clocks
after it the display shows 0 in one and 200 in the other. -/
theorem lastMeasurement_overspeed :
    let h := bursting maxValueDefault 0#8 201#8 0#8 0#8
    let h' := bursting maxValueDefault 200#8 201#8 0#8 0#8
    let T := 1 * (maxValueDefault + 1) + maxValueDefault
    Loads maxValueDefault powerUp h T 201#8 0#8 0#8 ∧
      Loads maxValueDefault powerUp h' T 201#8 0#8 0#8 ∧
      rpm (states maxValueDefault powerUp h (T + 1 + 2)) = 0#10 ∧
      rpm (states maxValueDefault powerUp h' (T + 1 + 2)) = 200#10 := by
  have hM : maxValueDefault < 2 ^ 26 := maxValueDefault_lt
  have hwide : 510 ≤ maxValueDefault := le_trans (by omega) le_maxValueDefault
  intro h h' T
  refine ⟨bursting_loads hM hwide 0#8 201#8 0#8 0#8,
    bursting_loads hM hwide 200#8 201#8 0#8 0#8, ?_, ?_⟩
  · rw [rpm_bursting hM hwide 0#8 201#8 0#8 0#8 (by decide) le_rfl (by decide)]
    decide
  · rw [rpm_bursting hM hwide 200#8 201#8 0#8 0#8 (by decide) le_rfl (by decide)]
    decide

end BldcFpga
