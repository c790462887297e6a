import Mathlib

/-!
# Edges of a waveform

A waveform is a level per clock cycle, `w : ℕ → Bool`.  A counter clocked by such
a signal counts its rising edges, so the questions asked of it are how many
edges a stretch of cycles holds and how many survive when the waveform is looked
at with a varying delay.

* `Rise`, `rises` — a rising edge between two cycles, and the number of them in
  the first `t` cycles;
* `PhasesAtLeast`, `Spaced` — every phase of constant level is at least `L`
  cycles long, from the first cycle on or from the first change on;
* `rises_comp`, `risesIn_comp` — a delayed view `w ∘ φ` whose delay jumps by at most one
  phase length loses and invents no edge;
* `rises_le_add_one` — two phases hold at most one rising edge;
* `pulses`, `Contiguous` — the stretches in which a waveform is high, and a waveform
  with at most one of them;
* `bursts` — a waveform with a given number of edges in each window;
* `changes` — the changes of a line with more than two levels, and `sampled_of_change`: a
  register that samples it is up to date at a change when the clock ticks between any two.
-/

namespace Clocked

/-- The level is low in cycle `t` and high in the next one. -/
def Rise (w : ℕ → Bool) (t : ℕ) : Prop := w t = false ∧ w (t + 1) = true

instance (w : ℕ → Bool) : DecidablePred (Rise w) := fun _ => inferInstanceAs (Decidable (_ ∧ _))

/-- The number of rising edges in the first `t` steps of a waveform. -/
def rises (w : ℕ → Bool) (t : ℕ) : ℕ := Nat.count (Rise w) t

/-- The number of rising edges in the `len` steps from cycle `start` on. -/
def risesIn (w : ℕ → Bool) (start len : ℕ) : ℕ := Nat.count (fun i => Rise w (start + i)) len

@[simp] theorem rises_zero (w : ℕ → Bool) : rises w 0 = 0 := Nat.count_zero _

@[simp] theorem risesIn_zero (w : ℕ → Bool) (start : ℕ) : risesIn w start 0 = 0 :=
  Nat.count_zero _

theorem rises_succ (w : ℕ → Bool) (t : ℕ) :
    rises w (t + 1) = rises w t + if Rise w t then 1 else 0 := Nat.count_succ _ _

theorem risesIn_succ (w : ℕ → Bool) (start len : ℕ) :
    risesIn w start (len + 1) = risesIn w start len + if Rise w (start + len) then 1 else 0 :=
  Nat.count_succ _ _

theorem rises_add (w : ℕ → Bool) (a b : ℕ) : rises w (a + b) = rises w a + risesIn w a b :=
  Nat.count_add _ _ _

/-- Consecutive windows of equal length partition the edges. -/
theorem rises_mul (w : ℕ → Bool) (K len : ℕ) :
    rises w (K * len) = ∑ k ∈ Finset.range K, risesIn w (k * len) len := by
  induction K with
  | zero => simp
  | succ K ih => rw [Nat.succ_mul, rises_add, ih, Finset.sum_range_succ]

theorem rises_mono (w : ℕ → Bool) {a b : ℕ} (hab : a ≤ b) : rises w a ≤ rises w b :=
  Nat.count_monotone _ hab

/-! ## Waveforms with a level before the first cycle -/

/-- The waveform that shows `prev` first and then `w`. -/
def preceded (prev : Bool) (w : ℕ → Bool) : ℕ → Bool
  | 0 => prev
  | t + 1 => w t

@[simp] theorem preceded_zero (prev : Bool) (w : ℕ → Bool) : preceded prev w 0 = prev := rfl

@[simp] theorem preceded_succ (prev : Bool) (w : ℕ → Bool) (t : ℕ) :
    preceded prev w (t + 1) = w t := rfl

/-- A line that is high before the first cycle hides at most the edge into that cycle. -/
theorem rises_preceded (w : ℕ → Bool) (t : ℕ) :
    rises (preceded true w) t ≤ rises (preceded false w) t ∧
      rises (preceded false w) t ≤ rises (preceded true w) t + if w 0 = true then 1 else 0 := by
  induction t with
  | zero => simp
  | succ t ih =>
    cases t with
    | zero => cases h : w 0 <;> simp [rises_succ, Rise, h]
    | succ t =>
      have hsame : Rise (preceded true w) (t + 1) ↔ Rise (preceded false w) (t + 1) := Iff.rfl
      rw [rises_succ _ (t + 1), rises_succ _ (t + 1), if_congr hsame rfl rfl]
      omega

/-! ## Phase lengths -/

/-- Every maximal stretch of one level, the first included, is at least `L` cycles long. -/
def PhasesAtLeast {α : Type*} (L : ℕ) (w : ℕ → α) : Prop :=
  ∀ i, (i = 0 ∨ w (i - 1) ≠ w i) → ∀ k < L, w (i + k) = w i

/-- After every change of level the new level stays for at least `L` cycles. -/
def Spaced {α : Type*} (L : ℕ) (w : ℕ → α) : Prop :=
  ∀ i, w i ≠ w (i + 1) → ∀ k < L, w (i + 1 + k) = w (i + 1)

theorem PhasesAtLeast.spaced {α : Type*} {L : ℕ} {w : ℕ → α} (h : PhasesAtLeast L w) :
    Spaced L w :=
  fun i hi => h (i + 1) (Or.inr (by simpa using hi))

theorem PhasesAtLeast.mono {α : Type*} {L L' : ℕ} {w : ℕ → α} (h : PhasesAtLeast L w)
    (hle : L' ≤ L) : PhasesAtLeast L' w :=
  fun i hi k hk => h i hi k (hk.trans_le hle)

/-- What is read off a line rests for as long as the line does. -/
theorem PhasesAtLeast.map {α β : Type*} {L : ℕ} {w : ℕ → α} (h : PhasesAtLeast L w) (f : α → β) :
    PhasesAtLeast L fun t => f (w t) := by
  intro i hi k hk
  exact congrArg f (h i (hi.imp_right fun hne heq => hne (congrArg f heq)) k hk)

/-- A line that may change once in every `L` cycles. -/
theorem phasesAtLeast_div {α : Type*} (L : ℕ) (f : ℕ → α) :
    PhasesAtLeast L fun t => f (t / L) := by
  intro i hi k hk
  have hstart : L ∣ i := by
    rcases hi with rfl | hne
    · exact Nat.dvd_zero L
    · by_contra hno
      refine hne (congrArg f ?_)
      obtain ⟨i, rfl⟩ : ∃ j, i = j + 1 := by
        refine ⟨i - 1, ?_⟩
        rcases Nat.eq_zero_or_pos i with rfl | hpos
        · exact absurd (Nat.dvd_zero L) hno
        · omega
      rw [Nat.succ_div_of_not_dvd hno, Nat.add_sub_cancel]
  obtain ⟨c, rfl⟩ := hstart
  show f ((L * c + k) / L) = f (L * c / L)
  rw [Nat.mul_add_div (by omega), Nat.mul_div_cancel_left _ (by omega), Nat.div_eq_of_lt hk,
    Nat.add_zero]

/-- Prefixing a level keeps the spacing when the first phase is long enough itself. -/
theorem PhasesAtLeast.spaced_preceded {L : ℕ} {w : ℕ → Bool} (h : PhasesAtLeast L w)
    (prev : Bool) : Spaced L (preceded prev w) := by
  intro i hi k hk
  cases i with
  | zero => simpa [Nat.add_comm] using h 0 (Or.inl rfl) k hk
  | succ i =>
    have := h.spaced i hi k hk
    rwa [show i + 1 + 1 + k = (i + 1 + k) + 1 by omega, preceded_succ, preceded_succ]

/-- Without a change the level stays what it was. -/
theorem eq_of_no_change {α : Type*} {w : ℕ → α} {a b : ℕ} (hab : a ≤ b)
    (h : ∀ i, a ≤ i → i < b → w i = w (i + 1)) : w a = w b := by
  induction b, hab using Nat.le_induction with
  | base => rfl
  | succ b hab ih =>
    rw [ih fun i hi hib => h i hi (by omega), h b hab (by omega)]

/-- Two different levels have a change between them. -/
theorem exists_change {α : Type*} {w : ℕ → α} {a b : ℕ} (hab : a ≤ b) (hne : w a ≠ w b) :
    ∃ i, a ≤ i ∧ i < b ∧ w i ≠ w (i + 1) := by
  by_contra hno
  refine hne (eq_of_no_change hab fun i hi hib => ?_)
  by_contra hc
  exact hno ⟨i, hi, hib, hc⟩

/-- Sampling every `P` cycles shortens the phases by that factor. -/
theorem PhasesAtLeast.sample {α : Type*} {L P c : ℕ} {w : ℕ → α} (h : PhasesAtLeast (L * P) w)
    (hc : c < P) : PhasesAtLeast L fun k => w (P * k + c) := by
  rintro k hk i hi
  have hLP : P * i + P ≤ L * P := by
    calc P * i + P = (i + 1) * P := by ring
      _ ≤ L * P := Nat.mul_le_mul_right P hi
  rcases Nat.eq_zero_or_pos k with rfl | hpos
  · have h1 := h 0 (Or.inl rfl) (P * i + c) (by omega)
    have h2 := h 0 (Or.inl rfl) c (by omega)
    simp only [Nat.zero_add, Nat.mul_zero] at h1 h2 ⊢
    rw [h1, h2]
  · -- the level changed since the sample before, and stays from there on
    obtain ⟨k, rfl⟩ : ∃ m, k = m + 1 := ⟨k - 1, by omega⟩
    have hne : w (P * k + c) ≠ w (P * (k + 1) + c) := by simpa using hk
    have hstep : P * (k + 1) = P * k + P := by ring
    obtain ⟨p, hp, hpk, hchange⟩ := exists_change (by omega) hne
    have hadd : P * (k + 1 + i) = P * k + P + P * i := by ring
    have h1 := h.spaced p hchange (P * (k + 1) + c - (p + 1)) (by omega)
    have h2 := h.spaced p hchange (P * (k + 1 + i) + c - (p + 1)) (by omega)
    rw [show p + 1 + (P * (k + 1) + c - (p + 1)) = P * (k + 1) + c by omega] at h1
    rw [show p + 1 + (P * (k + 1 + i) + c - (p + 1)) = P * (k + 1 + i) + c by omega] at h2
    show w (P * (k + 1 + i) + c) = w (P * (k + 1) + c)
    rw [h1, h2]

/-- Less than a phase length before a change there is no other one. -/
theorem Spaced.eq_of_change {α : Type*} {L : ℕ} {w : ℕ → α} (h : Spaced L w) {a b : ℕ}
    (hab : a ≤ b) (hb : b < a + L) (hchange : w b ≠ w (b + 1)) : w a = w b := by
  refine eq_of_no_change hab fun i hi hib => ?_
  by_contra hne
  -- a change at `i` would keep the level constant over `b` and `b + 1`
  have h1 := h i hne (b - i - 1) (by omega)
  have h2 := h i hne (b - i) (by omega)
  rw [show i + 1 + (b - i - 1) = b by omega] at h1
  rw [show i + 1 + (b - i) = b + 1 by omega] at h2
  exact hchange (h1.trans h2.symm)

/-- Over at most one phase length, the edges are read off the two end levels. -/
theorem Spaced.rises_eq {L : ℕ} {w : ℕ → Bool} (h : Spaced L w) {a b : ℕ} (hab : a ≤ b)
    (hb : b ≤ a + L) :
    rises w b = rises w a + if w a = false ∧ w b = true then 1 else 0 := by
  induction b, hab using Nat.le_induction with
  | base => simp
  | succ b hab ih =>
    rw [rises_succ, ih (by omega)]
    by_cases hchange : w b = w (b + 1)
    · have hno : ¬ Rise w b := fun hr => by rw [Rise, ← hchange] at hr; simp [hr.1] at hr
      rw [if_neg hno, hchange, Nat.add_zero]
    · have ha : w a = w b := h.eq_of_change hab (by omega) hchange
      cases hwb : w b <;> cases hwb' : w (b + 1) <;> simp_all [Rise]

/-- **A delayed view keeps every edge.**  When the viewing position `φ` never
moves back and never jumps over more than one phase length, the view `w ∘ φ` has
had exactly the edges that `w` has up to the position viewed. -/
theorem Spaced.rises_comp {L : ℕ} {w : ℕ → Bool} (h : Spaced L w) {φ : ℕ → ℕ} (h0 : φ 0 = 0)
    (hmono : ∀ t, φ t ≤ φ (t + 1)) (hjump : ∀ t, φ (t + 1) ≤ φ t + L) (t : ℕ) :
    rises (fun j => w (φ j)) t = rises w (φ t) := by
  induction t with
  | zero => simp [h0]
  | succ t ih =>
    rw [rises_succ, ih, h.rises_eq (hmono t) (hjump t)]
    rfl

/-- The same for a stretch of cycles, and a view that need behave from its start on only. -/
theorem Spaced.risesIn_comp {L : ℕ} {w : ℕ → Bool} (h : Spaced L w) {φ : ℕ → ℕ} {start : ℕ}
    (hmono : ∀ t, start ≤ t → φ t ≤ φ (t + 1)) (hjump : ∀ t, start ≤ t → φ (t + 1) ≤ φ t + L)
    (len : ℕ) :
    φ start ≤ φ (start + len) ∧
      risesIn (fun j => w (φ j)) start len = risesIn w (φ start) (φ (start + len) - φ start) := by
  have hsum : φ start ≤ φ (start + len) ∧ rises w (φ (start + len)) =
      rises w (φ start) + risesIn (fun j => w (φ j)) start len := by
    induction len with
    | zero => simp
    | succ len ih =>
      have hnext := hmono (start + len) (Nat.le_add_right _ _)
      rw [risesIn_succ, ← Nat.add_assoc, h.rises_eq hnext (hjump _ (Nat.le_add_right _ _)), ih.2,
        ← Nat.add_assoc]
      exact ⟨ih.1.trans hnext, rfl⟩
  have hcut := rises_add w (φ start) (φ (start + len) - φ start)
  rw [Nat.add_sub_of_le hsum.1] at hcut
  exact ⟨hsum.1, by omega⟩

/-- Two phases hold at most one rising edge. -/
theorem Spaced.rises_le_add_one {L : ℕ} {w : ℕ → Bool} (h : Spaced L w) {a b : ℕ} (hab : a ≤ b)
    (hb : b ≤ a + 2 * L) : rises w b ≤ rises w a + 1 := by
  rcases le_total b (a + L) with hle | hle
  · rw [h.rises_eq hab hle]
    split <;> omega
  · rw [h.rises_eq hle (by omega), h.rises_eq (by omega : a ≤ a + L) le_rfl]
    cases hm : w (a + L) <;> simp <;> split <;> omega

/-- The number of stretches of high cycles among the first `len`. -/
def pulses (w : ℕ → Bool) (len : ℕ) : ℕ := rises (preceded false w) len

/-- The high cycles among the first `len` form one stretch. -/
def Contiguous (w : ℕ → Bool) (len : ℕ) : Prop :=
  ∀ i j k, i ≤ j → j ≤ k → k < len → w i = true → w k = true → w j = true

/-- A stretch starts in the first cycle or with a rise. -/
theorem pulses_succ (w : ℕ → Bool) (len : ℕ) :
    pulses w (len + 1) = rises w len + if w 0 = true then 1 else 0 := by
  rw [pulses, rises, Nat.count_succ']
  congr 1
  simp [Rise]

/-- On the way from low to high there is a rise. -/
theorem exists_rise {w : ℕ → Bool} {a b : ℕ} (hab : a ≤ b) (ha : w a = false) (hb : w b = true) :
    ∃ i, a ≤ i ∧ i < b ∧ Rise w i := by
  induction b, hab using Nat.le_induction with
  | base => simp [ha] at hb
  | succ b hab ih =>
    cases hwb : w b with
    | false => exact ⟨b, hab, Nat.lt_succ_self b, hwb, hb⟩
    | true =>
      obtain ⟨i, hai, hib, hi⟩ := ih hwb
      exact ⟨i, hai, by omega, hi⟩

/-- At most one pulse means one stretch. -/
theorem contiguous_of_pulses_le_one {w : ℕ → Bool} {len : ℕ} (h : pulses w len ≤ 1) :
    Contiguous w len := by
  intro i j k hij hjk hk hi hwk
  by_contra hj
  rw [Bool.not_eq_true] at hj
  -- one rise brings the waveform up to cycle `i`, another one from `j` to `k`
  obtain ⟨p, -, hp, hrise⟩ := exists_rise (w := preceded false w) (Nat.zero_le (i + 1)) rfl hi
  obtain ⟨q, hq, hqk, hrise'⟩ :=
    exists_rise (w := preceded false w) (Nat.succ_le_succ hjk) hj hwk
  rw [pulses, rises, Nat.count_eq_card_filter_range, Finset.card_le_one] at h
  have heq : p = q := by
    apply h
    · simpa [hrise] using (by omega : p < len)
    · simpa [hrise'] using (by omega : q < len)
  omega

/-! ## Bursts -/

/-- A waveform with a burst of `cnt q` pulses at the start of the `q`-th window. -/
def bursts (len : ℕ) (cnt : ℕ → ℕ) (t : ℕ) : Bool :=
  decide (t % len % 2 = 1 ∧ t % len < 2 * cnt (t / len))

theorem bursts_add {len : ℕ} (cnt : ℕ → ℕ) (q : ℕ) {i : ℕ} (hi : i < len) :
    bursts len cnt (q * len + i) = decide (i % 2 = 1 ∧ i < 2 * cnt q) := by
  have hdiv : (q * len + i) / len = q := by
    rw [Nat.add_comm, Nat.add_mul_div_right _ _ (by omega), Nat.div_eq_of_lt hi, Nat.zero_add]
  rw [bursts, hdiv, Nat.mul_add_mod', Nat.mod_eq_of_lt hi]

/-- Every other cycle of a window brings a rise, until the burst is over. -/
theorem risesIn_bursts {len : ℕ} (cnt : ℕ → ℕ) (q : ℕ) {i : ℕ} (hi : i < len) :
    risesIn (bursts len cnt) (q * len) i = min ((i + 1) / 2) (cnt q) := by
  induction i with
  | zero => simp
  | succ i ih =>
    have hrise : Rise (bursts len cnt) (q * len + i) ↔ i % 2 = 0 ∧ i + 1 < 2 * cnt q := by
      rw [Rise, Nat.add_assoc, bursts_add cnt q (by omega), bursts_add cnt q hi,
        decide_eq_false_iff_not, decide_eq_true_eq]
      omega
    rw [risesIn_succ, ih (by omega), if_congr hrise rfl rfl]
    split_ifs <;> omega

/-! ## Lines with more than two levels -/

section Changes

variable {α : Type*} [DecidableEq α]

/-- The level of cycle `t` differs from the next one. -/
def Change (w : ℕ → α) (t : ℕ) : Prop := w t ≠ w (t + 1)

instance (w : ℕ → α) : DecidablePred (Change w) := fun _ => inferInstanceAs (Decidable (_ ≠ _))

/-- The number of changes in the first `t` steps. -/
def changes (w : ℕ → α) (t : ℕ) : ℕ := Nat.count (Change w) t

/-- The number of changes in the `len` steps from cycle `start` on. -/
def changesIn (w : ℕ → α) (start len : ℕ) : ℕ := Nat.count (fun i => Change w (start + i)) len

theorem changes_add (w : ℕ → α) (a b : ℕ) : changes w (a + b) = changes w a + changesIn w a b :=
  Nat.count_add _ _ _

/-- Between any two changes of the line the clock ticks at least once. -/
def TickBetween (tick : ℕ → Prop) (w : ℕ → α) : Prop :=
  ∀ i j, i < j → Change w i → Change w j → ∃ k, i < k ∧ k ≤ j ∧ tick k

variable {tick : ℕ → Prop} [DecidablePred tick] {w q : ℕ → α}

/-- A register that samples a line shows its level, or the line has changed since the last
tick. -/
theorem sampled_or_change (h0 : q 0 = w 0)
    (hq : ∀ t, q (t + 1) = if tick t then w t else q t) (t : ℕ) :
    q t = w t ∨ ∃ i < t, Change w i ∧ ∀ k, i < k → k < t → ¬ tick k := by
  induction t with
  | zero => exact Or.inl h0
  | succ t ih =>
    by_cases hchange : Change w t
    · exact Or.inr ⟨t, by omega, hchange, by omega⟩
    · have hsame : w (t + 1) = w t := (not_not.1 hchange).symm
      rw [hq, hsame]
      by_cases ht : tick t
      · exact Or.inl (if_pos ht)
      · rw [if_neg ht]
        refine ih.imp_right ?_
        rintro ⟨i, hi, hci, hno⟩
        refine ⟨i, by omega, hci, fun k hik hkt => ?_⟩
        rcases Nat.lt_succ_iff_lt_or_eq.1 hkt with hkt | rfl
        · exact hno k hik hkt
        · exact ht

/-- **Sampling keeps up.**  With a tick between any two changes, the register has seen the
level that a change leaves. -/
theorem sampled_of_change (h0 : q 0 = w 0)
    (hq : ∀ t, q (t + 1) = if tick t then w t else q t) (hw : TickBetween tick w) {t : ℕ}
    (hchange : Change w t) : q (t + 1) = w t := by
  rw [hq]
  by_cases ht : tick t
  · exact if_pos ht
  · rw [if_neg ht]
    refine (sampled_or_change h0 hq t).resolve_right ?_
    rintro ⟨i, hi, hci, hno⟩
    obtain ⟨k, hik, hkt, hk⟩ := hw i t hi hci hchange
    rcases Nat.lt_or_eq_of_le hkt with hkt | rfl
    · exact hno k hik hkt hk
    · exact ht hk

end Changes

end Clocked
