import BldcFpga.SpeedCalculation.LastMeasurement

/-!
# The scale of the displayed speed

One turn of the motor brings fifteen rises of the hall sensors, so a count per second
stands for four revolutions per minute and the table should map `n` to `4 * n`.  This
file follows a whole window from the rises of the sensors to the display.

* `SpeedCalculationWrapper.Counts` — a window of all three channels and the rises in it;
* `ScalesExactly` — three counts are shown as their scaled average, with no bit lost on
  the way; `scalesExactly_iff` says of which counts it is true;
* `NeverUnderReports` — of two continuations of one history, the one with more rises
  does not show less; `neverUnderReports_of_mod_le` proves it where the counts, as the
  eight-bit counter holds them, are in order and have rows in the table.
-/

namespace BldcFpga

open Clocked

/-! ## The table -/

set_option maxRecDepth 4000 in
/-- Every row holds four times its number, except for row 123. -/
theorem rpmTable_row :
    ∀ n : Fin 201, rpmTable[n.val]? = some (if n.val = 123 then 491 else 4 * n.val) := by
  decide +kernel

/-- What a count with a row is scaled to. -/
theorem rpmLut_toNat {n : ℕ} (hn : n % 256 ≤ 200) (x : BitVec 10) :
    (rpmLut (BitVec.ofNat 8 n) x).toNat = if n % 256 = 123 then 491 else 4 * (n % 256) := by
  have hrow := rpmTable_row ⟨n % 256, by omega⟩
  rw [rpmLut, BitVec.toNat_ofNat, hrow]
  split_ifs
  · rfl
  · simp only [BitVec.toNat_ofNat]
    omega

/-- The scaled counts are in the order of the counts. -/
theorem rpmLut_mono {n n' : ℕ} (hn : n % 256 ≤ n' % 256) (hn' : n' % 256 ≤ 200)
    (x x' : BitVec 10) :
    (rpmLut (BitVec.ofNat 8 n) x).toNat ≤ (rpmLut (BitVec.ofNat 8 n') x').toNat := by
  rw [rpmLut_toNat (hn.trans hn'), rpmLut_toNat hn']
  split_ifs <;> omega

/-! ## Windows of a given number of rises -/

namespace Channel

variable {maxValue n : ℕ}

/-- A sensor that turns `n` times in every window. -/
def turning (maxValue n k : ℕ) : Bool := bursts (maxValue + 1) (fun _ => n) (k + 1)

/-- Its first window from power-up holds `n` rises. -/
theorem turning_counts (hfit : 2 * n ≤ maxValue) :
    Counts maxValue powerUp (turning maxValue n) 0 n where
  count_eq := rfl
  mecCycles_eq := rfl
  rises_eq := by
    have hrises := risesIn_bursts (fun _ => n) 0 (Nat.lt_succ_self maxValue)
    rw [Nat.zero_mul, Nat.min_eq_right (by omega)] at hrises
    exact (congrArg (fun w => risesIn w 0 maxValue) (wave_powerUp fun _ => n)).trans hrises

end Channel

namespace SpeedCalculationWrapper

variable {maxValue : ℕ}

/-- After `T` clocks a window of all three channels begins, and `a`, `b` and `c` rises of
the sensors fall into it. -/
structure Counts (maxValue : ℕ) (s : SpeedCalculationWrapper) (h : Sensors) (T a b c : ℕ) :
    Prop where
  HA : Channel.Counts maxValue s.HA h.a T a
  HB : Channel.Counts maxValue s.HB h.b T b
  HC : Channel.Counts maxValue s.HC h.c T c

theorem Counts.loads (hM : maxValue < 2 ^ 26) (hpos : 1 ≤ maxValue) {s : SpeedCalculationWrapper}
    {h : Sensors} {T a b c : ℕ} (hc : Counts maxValue s h T a b c) :
    Loads maxValue s h (T + maxValue) (BitVec.ofNat 8 a) (BitVec.ofNat 8 b) (BitVec.ofNat 8 c) :=
  ⟨hc.HA.loads hM hpos, hc.HB.loads hM hpos, hc.HC.loads hM hpos⟩

/-- The sums fit their wires and the halves fit the outputs of the dividers. -/
structure NoBitLost (s : SpeedCalculationWrapper) : Prop where
  sum0_eq : (Averager.sum0 (readings s)).toNat =
    (readings s).rpmA.toNat + (readings s).rpmB.toNat
  S0_eq : (dataout s.dividers.S0).toNat = s.dividers.S0.toNat
  sum1_eq : (Averager.sum1 (readings s) s.dividers).toNat =
    s.dividers.S0.toNat + (readings s).rpmC.toNat
  S1_eq : (dataout s.dividers.S1).toNat = s.dividers.S1.toNat

/-- A divider never needs the top bit of its register again. -/
theorem dataout_divider2 (x : BitVec 11) :
    (dataout (divider2 false x)).toNat = (divider2 false x).toNat := by
  have hx := x.isLt
  simp only [dataout, divider2, Bool.false_eq_true, if_false, BitVec.toNat_setWidth,
    BitVec.toNat_ushiftRight, Nat.shiftRight_one]
  omega

/-- From the first clock on no bit is lost, whatever the readings. -/
theorem noBitLost_states (maxValue : ℕ) (s : SpeedCalculationWrapper) (h : Sensors) (t : ℕ) :
    NoBitLost (states maxValue s h (t + 1)) := by
  have hS0 : (dataout (states maxValue s h (t + 1)).dividers.S0).toNat =
      (states maxValue s h (t + 1)).dividers.S0.toNat := dataout_divider2 _
  have hS1 : (dataout (states maxValue s h (t + 1)).dividers.S1).toNat =
      (states maxValue s h (t + 1)).dividers.S1.toNat := dataout_divider2 _
  have hlt := (dataout (states maxValue s h (t + 1)).dividers.S0).isLt
  set x := states maxValue s h (t + 1)
  have ha := (readings x).rpmA.isLt
  have hb := (readings x).rpmB.isLt
  have hc := (readings x).rpmC.isLt
  refine ⟨?_, hS0, ?_, hS1⟩
  · simp only [Averager.sum0, BitVec.toNat_add, BitVec.toNat_setWidth]
    omega
  · simp only [Averager.sum1, Averager.div1, BitVec.toNat_add, BitVec.toNat_setWidth, hS0]
    omega

/-- Three sensors that turn `a`, `b` and `c` times in every window. -/
def turning (maxValue a b c : ℕ) : Sensors where
  a := Channel.turning maxValue a
  b := Channel.turning maxValue b
  c := Channel.turning maxValue c

theorem turning_counts {a b c : ℕ} (ha : 2 * a ≤ maxValue) (hb : 2 * b ≤ maxValue)
    (hc : 2 * c ≤ maxValue) : Counts maxValue powerUp (turning maxValue a b c) 0 a b c :=
  ⟨Channel.turning_counts ha, Channel.turning_counts hb, Channel.turning_counts hc⟩

/-! ## The scale -/

/-- The scaled average of three counts. -/
def scaled (a b c : ℕ) : ℕ := ((4 * a + 4 * b) / 2 + 4 * c) / 2

theorem scaled_eq (a b c : ℕ) : scaled a b c = a + b + 2 * c := by
  rw [scaled]
  omega

/-- In every run from `start` and after every window with `a`, `b` and `c` rises: from two
clocks after its end until the next window ends, the display shows their scaled average
and no bit is lost on the way to it. -/
def ScalesExactly (maxValue : ℕ) (start : Set SpeedCalculationWrapper) (a b c : ℕ) : Prop :=
  ∀ s ∈ start, ∀ (h : Sensors) (T : ℕ), Counts maxValue s h T a b c →
    ∀ m, 2 ≤ m → m ≤ maxValue + 1 →
      (rpm (states maxValue s h (T + maxValue + 1 + m))).toNat = scaled a b c ∧
        (rpm (states maxValue s h (T + maxValue + 1 + m))).toNat = a + b + 2 * c ∧
        NoBitLost (states maxValue s h (T + maxValue + 1 + m))

/-- What is shown after a window whose counts have rows. -/
theorem Counts.rpm_toNat (hM : maxValue < 2 ^ 26) (hpos : 1 ≤ maxValue)
    {s : SpeedCalculationWrapper} {h : Sensors} {T a b c : ℕ} (hc : Counts maxValue s h T a b c)
    {m : ℕ} (hm : 2 ≤ m) (hle : m ≤ maxValue + 1) :
    (rpm (states maxValue s h (T + maxValue + 1 + m))).toNat =
      (((rpmLut (BitVec.ofNat 8 a) (Channel.states maxValue s.HA h.a (T + maxValue)).rpm).toNat +
        (rpmLut (BitVec.ofNat 8 b) (Channel.states maxValue s.HB h.b (T + maxValue)).rpm).toNat) / 2 +
        (rpmLut (BitVec.ofNat 8 c) (Channel.states maxValue s.HC h.c (T + maxValue)).rpm).toNat) / 2 := by
  rw [(hc.loads hM hpos).rpm_eq hM hm hle, Averager.average_toNat]

theorem scalesExactly_mono {start start' : Set SpeedCalculationWrapper} {a b c : ℕ}
    (hsub : start ⊆ start') (h : ScalesExactly maxValue start' a b c) :
    ScalesExactly maxValue start a b c :=
  fun s hs => h s (hsub hs)

/-- Counts with an exact row are scaled exactly, whatever the registers held before. -/
theorem scalesExactly_of_ne (hM : maxValue < 2 ^ 26) (hpos : 1 ≤ maxValue) {a b c : ℕ}
    (ha : a ≤ 200) (hb : b ≤ 200) (hc : c ≤ 200) (hne : a ≠ 123 ∧ b ≠ 123 ∧ c ≠ 123) :
    ScalesExactly maxValue Set.univ a b c := by
  intro s _ h T hcounts m hm hle
  have hrpm := hcounts.rpm_toNat hM hpos hm hle
  rw [rpmLut_toNat (by omega), rpmLut_toNat (by omega), rpmLut_toNat (by omega),
    Nat.mod_eq_of_lt (by omega), Nat.mod_eq_of_lt (by omega), Nat.mod_eq_of_lt (by omega),
    if_neg hne.1, if_neg hne.2.1, if_neg hne.2.2] at hrpm
  obtain ⟨m, rfl⟩ : ∃ k, m = k + 1 := ⟨m - 1, by omega⟩
  exact ⟨hrpm, hrpm.trans (scaled_eq a b c),
    noBitLost_states maxValue s h (T + maxValue + 1 + m)⟩

/-- Row 123 is seen in the average: one unit is missing. -/
theorem average_row_lt {a b c : ℕ} (hbad : a = 123 ∨ b = 123 ∨ c = 123) :
    (((if a = 123 then 491 else 4 * a) + (if b = 123 then 491 else 4 * b)) / 2 +
      (if c = 123 then 491 else 4 * c)) / 2 < scaled a b c := by
  rw [scaled]
  split_ifs <;> omega

/-- A sensor that turns 123 times gives it away in the first window after power-up. -/
theorem not_scalesExactly (hM : maxValue < 2 ^ 26) (hwide : 400 ≤ maxValue) {a b c : ℕ}
    (ha : a ≤ 200) (hb : b ≤ 200) (hc : c ≤ 200) (hbad : a = 123 ∨ b = 123 ∨ c = 123) :
    ¬ ScalesExactly maxValue {powerUp} a b c := by
  intro hscales
  have hcounts : Counts maxValue powerUp (turning maxValue a b c) 0 a b c :=
    turning_counts (by omega) (by omega) (by omega)
  have hshown := (hscales powerUp rfl _ 0 hcounts 2 le_rfl (by omega)).1
  rw [hcounts.rpm_toNat hM (by omega) le_rfl (by omega), rpmLut_toNat (by omega),
    rpmLut_toNat (by omega), rpmLut_toNat (by omega), Nat.mod_eq_of_lt (by omega),
    Nat.mod_eq_of_lt (by omega), Nat.mod_eq_of_lt (by omega)] at hshown
  exact (average_row_lt hbad).ne hshown

/-! ## The order of the displayed speeds -/

/-- The sensors agree up to clock `T`. -/
def Sensors.AgreeUpTo (h h' : Sensors) (T : ℕ) : Prop :=
  ∀ k < T, h.a k = h'.a k ∧ h.b k = h'.b k ∧ h.c k = h'.c k

/-- In every run from `start` up to the beginning of a window: of any two continuations of
that window, one with `a`, `b` and `c` rises and one with `a'`, `b'` and `c'`, the first
does not show more than the second once their counts have been published. -/
def NeverUnderReports (maxValue : ℕ) (start : Set SpeedCalculationWrapper)
    (a b c a' b' c' : ℕ) : Prop :=
  ∀ s ∈ start, ∀ (h h' : Sensors) (T : ℕ), h.AgreeUpTo h' T →
    Counts maxValue s h T a b c → Counts maxValue s h' T a' b' c' →
      ∀ m, 2 ≤ m → m ≤ maxValue + 1 →
        (rpm (states maxValue s h (T + maxValue + 1 + m))).toNat ≤
          (rpm (states maxValue s h' (T + maxValue + 1 + m))).toNat

/-- Every stage behind the counters is monotone on counts with a row. -/
theorem neverUnderReports_of_mod {a b c a' b' c' : ℕ} (hM : maxValue < 2 ^ 26)
    (hpos : 1 ≤ maxValue) (ha : a % 256 ≤ a' % 256) (hb : b % 256 ≤ b' % 256)
    (hc : c % 256 ≤ c' % 256) (ha' : a' % 256 ≤ 200) (hb' : b' % 256 ≤ 200)
    (hc' : c' % 256 ≤ 200) : NeverUnderReports maxValue Set.univ a b c a' b' c' := by
  intro s _ h h' T _ hcounts hcounts' m hm hle
  rw [hcounts.rpm_toNat hM hpos hm hle, hcounts'.rpm_toNat hM hpos hm hle]
  have hA := rpmLut_mono ha ha' (Channel.states maxValue s.HA h.a (T + maxValue)).rpm
    (Channel.states maxValue s.HA h'.a (T + maxValue)).rpm
  have hB := rpmLut_mono hb hb' (Channel.states maxValue s.HB h.b (T + maxValue)).rpm
    (Channel.states maxValue s.HB h'.b (T + maxValue)).rpm
  have hC := rpmLut_mono hc hc' (Channel.states maxValue s.HC h.c (T + maxValue)).rpm
    (Channel.states maxValue s.HC h'.c (T + maxValue)).rpm
  exact Nat.div_le_div_right (Nat.add_le_add (Nat.div_le_div_right (Nat.add_le_add hA hB)) hC)

/-- What a first window from power-up shows, with up to 256 rises and rows for them. -/
theorem rpm_turning (hM : maxValue < 2 ^ 26) (hwide : 512 ≤ maxValue) {a b c : ℕ}
    (hrow : ∀ n ∈ [a, b, c], n ≤ 256 ∧ n % 256 ≤ 200) :
    Counts maxValue powerUp (turning maxValue a b c) 0 a b c ∧
      (rpm (states maxValue powerUp (turning maxValue a b c) (0 + maxValue + 1 + 2))).toNat =
        (((if a % 256 = 123 then 491 else 4 * (a % 256)) +
          (if b % 256 = 123 then 491 else 4 * (b % 256))) / 2 +
          (if c % 256 = 123 then 491 else 4 * (c % 256))) / 2 := by
  obtain ⟨ha, ha'⟩ := hrow a (by simp)
  obtain ⟨hb, hb'⟩ := hrow b (by simp)
  obtain ⟨hc, hc'⟩ := hrow c (by simp)
  have hcounts : Counts maxValue powerUp (turning maxValue a b c) 0 a b c :=
    turning_counts (by omega) (by omega) (by omega)
  refine ⟨hcounts, ?_⟩
  rw [hcounts.rpm_toNat hM (by omega) le_rfl (by omega), rpmLut_toNat ha', rpmLut_toNat hb',
    rpmLut_toNat hc']

end SpeedCalculationWrapper

open SpeedCalculation SpeedCalculationWrapper in
/-- **When the display is to scale.**  For all numbers of rises that have a row in the
table: after every window with these rises the board's module shows their scaled average,
four revolutions per minute for a rise per second, and loses no bit on the way, if and
only if none of the three is 123.  It makes no difference whether the runs may start with
anything in the registers or start at power-up. -/
theorem scalesExactly_iff {a b c : ℕ} (ha : a ≤ 200) (hb : b ≤ 200) (hc : c ≤ 200) :
    (ScalesExactly maxValueDefault Set.univ a b c ↔ a ≠ 123 ∧ b ≠ 123 ∧ c ≠ 123) ∧
    (ScalesExactly maxValueDefault {powerUp} a b c ↔ a ≠ 123 ∧ b ≠ 123 ∧ c ≠ 123) := by
  have hM : maxValueDefault < 2 ^ 26 := maxValueDefault_lt
  have hpos : 1 ≤ maxValueDefault := le_trans (by omega) le_maxValueDefault
  have hwide : 400 ≤ maxValueDefault := le_trans (by omega) le_maxValueDefault
  have hgood : a ≠ 123 ∧ b ≠ 123 ∧ c ≠ 123 → ScalesExactly maxValueDefault Set.univ a b c :=
    scalesExactly_of_ne hM hpos ha hb hc
  have hbad : ScalesExactly maxValueDefault {powerUp} a b c → a ≠ 123 ∧ b ≠ 123 ∧ c ≠ 123 := by
    intro hscales
    by_contra hno
    exact not_scalesExactly hM hwide ha hb hc (by omega) hscales
  have hmono : ScalesExactly maxValueDefault Set.univ a b c →
      ScalesExactly maxValueDefault {powerUp} a b c :=
    scalesExactly_mono (Set.subset_univ {powerUp})
  exact ⟨⟨fun h => hbad (hmono h), hgood⟩, ⟨hbad, fun h => hmono (hgood h)⟩⟩

open SpeedCalculation SpeedCalculationWrapper in
/-- Windows with 122, 200 and 124 rises, at both ends of the range and around the row. -/
theorem scalesExactly_mixed : ScalesExactly maxValueDefault Set.univ 122 200 124 :=
  (scalesExactly_iff (by decide) (by decide) (by decide)).1.2 (by decide)

open SpeedCalculation SpeedCalculationWrapper in
/-- Sensor A turns 123 times in the first window after power-up, the others not at all:
the display shows 122 instead of 123. -/
theorem scalesExactly_row123 :
    let h := turning maxValueDefault 123 0 0
    Counts maxValueDefault powerUp h 0 123 0 0 ∧ scaled 123 0 0 = 123 ∧
      (rpm (states maxValueDefault powerUp h (0 + maxValueDefault + 1 + 2))).toNat = 122 := by
  intro h
  obtain ⟨hcounts, hrpm⟩ := rpm_turning maxValueDefault_lt le_maxValueDefault
    (show ∀ n ∈ [123, 0, 0], n ≤ 256 ∧ n % 256 ≤ 200 by decide)
  exact ⟨hcounts, rfl, hrpm⟩

open SpeedCalculation SpeedCalculationWrapper in
/-- **When more rises never show less.**  For every run of the board's module up to the
beginning of a window, from any contents of the registers, and any two continuations of
that window: when the numbers of rises modulo 256 are in order, and the larger ones at
most 200, the speeds shown after the window are in order. -/
theorem neverUnderReports_of_mod_le {a b c a' b' c' : ℕ} (ha : a % 256 ≤ a' % 256)
    (hb : b % 256 ≤ b' % 256) (hc : c % 256 ≤ c' % 256) (ha' : a' % 256 ≤ 200)
    (hb' : b' % 256 ≤ 200) (hc' : c' % 256 ≤ 200) :
    NeverUnderReports maxValueDefault Set.univ a b c a' b' c' :=
  neverUnderReports_of_mod maxValueDefault_lt (le_trans (by omega) le_maxValueDefault)
    ha hb hc ha' hb' hc'

open SpeedCalculation SpeedCalculationWrapper in
/-- Two overspeed windows: all counters have wrapped, once in the slower continuation and
up to three times in the faster one. -/
theorem neverUnderReports_wrapped :
    NeverUnderReports maxValueDefault Set.univ 300 300 300 400 600 900 :=
  neverUnderReports_of_mod_le (by decide) (by decide) (by decide) (by decide) (by decide)
    (by decide)

open SpeedCalculation SpeedCalculationWrapper in
/-- One rise of sensor A is shown as 1, and 256 rises in the same window as 0. -/
theorem neverUnderReports_wrap :
    let h := turning maxValueDefault 1 0 0
    let h' := turning maxValueDefault 256 0 0
    h.AgreeUpTo h' 0 ∧ Counts maxValueDefault powerUp h 0 1 0 0 ∧
      Counts maxValueDefault powerUp h' 0 256 0 0 ∧
      (rpm (states maxValueDefault powerUp h (0 + maxValueDefault + 1 + 2))).toNat = 1 ∧
      (rpm (states maxValueDefault powerUp h' (0 + maxValueDefault + 1 + 2))).toNat = 0 := by
  intro h h'
  obtain ⟨hcounts, hrpm⟩ := rpm_turning maxValueDefault_lt le_maxValueDefault
    (show ∀ n ∈ [1, 0, 0], n ≤ 256 ∧ n % 256 ≤ 200 by decide)
  obtain ⟨hcounts', hrpm'⟩ := rpm_turning maxValueDefault_lt le_maxValueDefault
    (show ∀ n ∈ [256, 0, 0], n ≤ 256 ∧ n % 256 ≤ 200 by decide)
  exact ⟨fun k hk => absurd hk (Nat.not_lt_zero k), hcounts, hcounts', hrpm, hrpm'⟩

end BldcFpga
