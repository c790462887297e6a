import Mathlib

/-!
# Wrapping counters

Every time base of a small synchronous design is a counter that wraps, either
because its register is full or because it is compared with a terminal count.

* `wrapping_toNat`, `terminal_toNat` — the closed form of both kinds, as a
  remainder of the cycle number, and `terminal_count` for a counter that moves on some
  of the edges only;
* `count_residues` — over one full period, started at any phase, a counter shows
  every residue exactly once;
* `le_count_below`, `count_below_le` — comparing the counter with a threshold
  that moves meanwhile gives a count between the extremes of the threshold;
* `count_terminal`, `prescaled_toNat` — a register that counts the terminal counts of
  another one shows the quotient of the cycle number;
* `msb_rise_iff` — when the top bit of a counter rises;
* `count_msb_stride` — how often it is set in a word that grows by equal strides.
-/

namespace Clocked

/-! ## Closed forms -/

/-- A register that is incremented on every edge. -/
theorem wrapping_toNat {n : ℕ} {x : ℕ → BitVec n} (hx : ∀ t, x (t + 1) = x t + 1#n) (t : ℕ) :
    (x t).toNat = ((x 0).toNat + t) % 2 ^ n := by
  induction t with
  | zero => simp [Nat.mod_eq_of_lt (x 0).isLt]
  | succ t ih =>
    rw [hx, BitVec.toNat_add, ih, BitVec.toNat_ofNat, ← Nat.add_assoc]
    simp [Nat.add_mod]

/-- The terminal count is the last one before a multiple of the period. -/
theorem mod_eq_top_iff (top t : ℕ) : t % (top + 1) = top ↔ top + 1 ∣ t + 1 := by
  have hlt : t % (top + 1) < top + 1 := Nat.mod_lt _ (Nat.succ_pos _)
  rw [Nat.dvd_iff_mod_eq_zero, ← Nat.mod_add_mod]
  rcases Nat.lt_or_ge (t % (top + 1) + 1) (top + 1) with h | h
  · rw [Nat.mod_eq_of_lt h]
    omega
  · rw [show t % (top + 1) + 1 = top + 1 by omega, Nat.mod_self]
    omega

/-- A register that is incremented by some of the edges and cleared after a terminal count. -/
theorem terminal_count {n top : ℕ} (htop : top < 2 ^ n) {tick : ℕ → Prop} [DecidablePred tick]
    {x : ℕ → BitVec n} (h0 : x 0 = 0#n)
    (hx : ∀ t, x (t + 1) =
      if tick t then if (x t).toNat = top then 0#n else x t + 1#n else x t) (t : ℕ) :
    (x t).toNat = Nat.count tick t % (top + 1) := by
  induction t with
  | zero => simp [h0]
  | succ t ih =>
    rw [hx, Nat.count_succ]
    by_cases ht : tick t
    · rw [if_pos ht, if_pos ht, ih]
      by_cases h : Nat.count tick t % (top + 1) = top
      · rw [if_pos h, Nat.mod_eq_zero_of_dvd ((mod_eq_top_iff top _).1 h)]
        simp
      · have hlt : Nat.count tick t % (top + 1) < top + 1 := Nat.mod_lt _ (Nat.succ_pos _)
        have h1 : (1#n).toNat = 1 := by
          rw [BitVec.toNat_ofNat, Nat.mod_eq_of_lt (by omega)]
        have hstep : (Nat.count tick t + 1) % (top + 1) = Nat.count tick t % (top + 1) + 1 := by
          rw [← Nat.mod_add_mod, Nat.mod_eq_of_lt (by omega)]
        rw [if_neg h, hstep, BitVec.toNat_add, ih, h1, Nat.mod_eq_of_lt (by omega)]
    · rw [if_neg ht, if_neg ht]
      exact ih

/-- A register that is incremented on every edge and cleared after a terminal count. -/
theorem terminal_toNat {n top : ℕ} (htop : top < 2 ^ n) {x : ℕ → BitVec n} (h0 : x 0 = 0#n)
    (hx : ∀ t, x (t + 1) = if (x t).toNat = top then 0#n else x t + 1#n) (t : ℕ) :
    (x t).toNat = t % (top + 1) := by
  have hcount : (x t).toNat = Nat.count (fun _ => True) t % (top + 1) :=
    terminal_count htop h0 (fun k => by rw [if_pos trivial, hx]) t
  rwa [Nat.count_true] at hcount

/-- Half a period later the middle of the range is a wrap. -/
theorem mod_eq_half_iff {H : ℕ} (hH : 0 < H) (x : ℕ) :
    x % (2 * H) = H ↔ 2 * H ∣ x + H := by
  have hlt : x % (2 * H) < 2 * H := Nat.mod_lt _ (by omega)
  rw [Nat.dvd_iff_mod_eq_zero, ← Nat.mod_add_mod]
  rcases Nat.lt_or_ge (x % (2 * H) + H) (2 * H) with h | h
  · rw [Nat.mod_eq_of_lt h]
    omega
  · have hsub : x % (2 * H) + H - 2 * H < 2 * H := by omega
    rw [Nat.mod_eq_sub_mod h, Nat.mod_eq_of_lt hsub]
    omega

/-! ## One full period -/

/-- Counting two properties that agree over the counted range. -/
theorem count_congr {P Q : ℕ → Prop} [DecidablePred P] [DecidablePred Q] {n : ℕ}
    (h : ∀ k < n, P k ↔ Q k) : Nat.count P n = Nat.count Q n :=
  le_antisymm (Nat.count_mono_left fun k hk => (h k hk).1)
    (Nat.count_mono_left fun k hk => (h k hk).2)

/-- A count takes every value up to where it gets. -/
theorem exists_count_eq {P : ℕ → Prop} [DecidablePred P] {c t : ℕ} (h : c < Nat.count P t) :
    ∃ k < t, P k ∧ Nat.count P k = c := by
  induction t with
  | zero => exact absurd h (Nat.not_lt_zero c)
  | succ t ih =>
    by_cases hlt : c < Nat.count P t
    · obtain ⟨k, hk, hP⟩ := ih hlt
      exact ⟨k, by omega, hP⟩
    · rw [Nat.count_succ] at h
      by_cases hP : P t
      · rw [if_pos hP] at h
        exact ⟨t, Nat.lt_succ_self t, hP, by omega⟩
      · rw [if_neg hP] at h
        omega

/-- A single number is counted once it has been passed. -/
theorem count_single (b n : ℕ) : Nat.count (fun k => k = b) n = if b < n then 1 else 0 := by
  induction n with
  | zero => simp
  | succ n ih =>
    rw [Nat.count_succ, ih]
    split_ifs <;> omega

/-- Over one period a counter shows each residue once, whatever its phase. -/
theorem count_residues (Q : ℕ → Prop) [DecidablePred Q] (M a : ℕ) :
    Nat.count (fun k => Q ((a + k) % M)) M = Nat.count (fun r => Q (r % M)) M := by
  have hper : Function.Periodic (fun x => Q (x % M)) M := fun x => by simp
  rw [← Nat.filter_Ico_card_eq_of_periodic a M (fun x => Q (x % M)) hper,
    Nat.count_eq_card_filter_range]
  refine Finset.card_bij (fun k _ => a + k) ?_ (fun _ _ _ _ h => by omega) ?_
  · intro k hk
    simp only [Finset.mem_filter, Finset.mem_range, Finset.mem_Ico] at hk ⊢
    exact ⟨by omega, hk.2⟩
  · intro x hx
    simp only [Finset.mem_filter, Finset.mem_Ico] at hx
    refine ⟨x - a, ?_, by omega⟩
    simp only [Finset.mem_filter, Finset.mem_range]
    exact ⟨by omega, by rw [show a + (x - a) = x by omega]; exact hx.2⟩

/-- A residue is shown exactly once in a period. -/
theorem count_residue_eq {M r : ℕ} (hr : r < M) (a : ℕ) :
    Nat.count (fun k => (a + k) % M = r) M = 1 := by
  rw [count_residues (fun x => x = r) M a, Nat.count_eq_card_filter_range, Finset.card_eq_one]
  refine ⟨r, Finset.ext fun k => ?_⟩
  simp only [Finset.mem_filter, Finset.mem_range, Finset.mem_singleton]
  constructor
  · rintro ⟨hk, hkr⟩
    rwa [Nat.mod_eq_of_lt hk] at hkr
  · rintro rfl
    exact ⟨hr, Nat.mod_eq_of_lt hr⟩

/-- The counter is below a fixed threshold for exactly that many cycles of a period. -/
theorem count_below {M c : ℕ} (hc : c ≤ M) (a : ℕ) :
    Nat.count (fun k => (a + k) % M < c) M = c := by
  rw [count_residues (fun x => x < c) M a, Nat.count_eq_card_filter_range]
  have : (Finset.range M).filter (fun k => k % M < c) = Finset.range c := by
    ext k
    simp only [Finset.mem_filter, Finset.mem_range]
    constructor
    · rintro ⟨hk, hkc⟩
      rwa [Nat.mod_eq_of_lt hk] at hkc
    · intro hk
      exact ⟨by omega, by rw [Nat.mod_eq_of_lt (by omega)]; exact hk⟩
  rw [this, Finset.card_range]

section Threshold

variable {M a : ℕ} {p : ℕ → ℕ}

/-- A threshold that never falls below `lo` is above the counter for at least `lo` cycles. -/
theorem le_count_below {lo : ℕ} (hlo : lo ≤ M) (h : ∀ k < M, lo ≤ p k) :
    lo ≤ Nat.count (fun k => (a + k) % M < p k) M := by
  conv_lhs => rw [← count_below hlo a]
  exact Nat.count_mono_left fun k hk hlt => lt_of_lt_of_le hlt (h k hk)

/-- A threshold that never exceeds `hi` is above the counter for at most `hi` cycles. -/
theorem count_below_le {hi : ℕ} (hhi : hi ≤ M) (h : ∀ k < M, p k ≤ hi) :
    Nat.count (fun k => (a + k) % M < p k) M ≤ hi := by
  conv_rhs => rw [← count_below hhi a]
  exact Nat.count_mono_left fun k hk hlt => lt_of_lt_of_le hlt (h k hk)

end Threshold

/-! ## Prescalers -/

/-- The terminal count comes once in every period. -/
theorem count_terminal (top t : ℕ) :
    Nat.count (fun k => k % (top + 1) = top) t = t / (top + 1) := by
  induction t with
  | zero => simp
  | succ t ih => rw [Nat.count_succ, ih, Nat.succ_div, if_congr (mod_eq_top_iff top t) rfl rfl]

/-- How often it comes in a stretch is the difference of two quotients. -/
theorem count_terminal_add (top t len : ℕ) :
    t / (top + 1) + Nat.count (fun k => (t + k) % (top + 1) = top) len =
      (t + len) / (top + 1) := by
  rw [← count_terminal top (t + len), Nat.count_add, count_terminal]

/-- A register that is incremented at the terminal counts only. -/
theorem prescaled_toNat {n top : ℕ} {y : ℕ → BitVec n}
    (hy : ∀ t, y (t + 1) = if t % (top + 1) = top then y t + 1#n else y t) (t : ℕ) :
    (y t).toNat = ((y 0).toNat + t / (top + 1)) % 2 ^ n := by
  induction t with
  | zero => simp [Nat.mod_eq_of_lt (y 0).isLt]
  | succ t ih =>
    rw [hy, Nat.succ_div, if_congr (mod_eq_top_iff top t) rfl rfl]
    by_cases h : top + 1 ∣ t + 1
    · rw [if_pos h, if_pos h, BitVec.toNat_add, ih, BitVec.toNat_ofNat, ← Nat.add_assoc]
      simp [Nat.add_mod]
    · rw [if_neg h, if_neg h]
      exact ih

/-! ## The top bit -/

/-- The top bit of a counter rises on the step to half of its range. -/
theorem msb_rise_iff {n : ℕ} (hn : 1 ≤ n) (c : BitVec n) :
    c.msb = false ∧ (c + 1#n).msb = true ↔ (c.toNat + 1) % 2 ^ n = 2 ^ (n - 1) := by
  obtain ⟨n, rfl⟩ : ∃ m, n = m + 1 := ⟨n - 1, by omega⟩
  have hpow : 2 ^ (n + 1) = 2 * 2 ^ n := by ring
  have hpos : 0 < 2 ^ n := Nat.two_pow_pos n
  have hc : c.toNat < 2 ^ (n + 1) := c.isLt
  have h1 : 1 % 2 ^ (n + 1) = 1 := Nat.mod_eq_of_lt (by omega)
  rw [BitVec.msb_eq_decide, BitVec.msb_eq_decide, BitVec.toNat_add, BitVec.toNat_ofNat, h1]
  simp only [Nat.add_sub_cancel, decide_eq_false_iff_not, decide_eq_true_eq, not_le]
  rcases Nat.lt_or_ge (c.toNat + 1) (2 ^ (n + 1)) with h | h
  · rw [Nat.mod_eq_of_lt h]
    omega
  · rw [show c.toNat + 1 = 2 ^ (n + 1) by omega, Nat.mod_self]
    omega

/-! ## Strides -/

theorem count_add_count_not (P : ℕ → Prop) [DecidablePred P] (n : ℕ) :
    Nat.count P n + Nat.count (fun k => ¬ P k) n = n := by
  induction n with
  | zero => rfl
  | succ n ih =>
    rw [Nat.count_succ, Nat.count_succ]
    split_ifs <;> omega

/-- What turns into its opposite every `m` steps holds half of the time. -/
theorem count_of_flip {P : ℕ → Prop} [DecidablePred P] {m : ℕ} (h : ∀ j, P (j + m) ↔ ¬ P j)
    (K : ℕ) : Nat.count P (2 * m * K) = m * K := by
  induction K with
  | zero => simp
  | succ K ih =>
    -- the next two stretches of `m` steps are opposites
    have hopposite : Nat.count (fun k => P (2 * m * K + (m + k))) m =
        Nat.count (fun k => ¬ P (2 * m * K + k)) m := by
      refine count_congr fun k _ => ?_
      rw [← h, Nat.add_assoc, Nat.add_comm k m]
    have hsum := count_add_count_not (fun k => P (2 * m * K + k)) m
    rw [Nat.mul_succ, Nat.count_add, ih, Nat.two_mul m, Nat.count_add, ← Nat.two_mul, hopposite,
      hsum, Nat.mul_succ]

/-- Half of the range turns the top bit around. -/
theorem msb_add_half {n : ℕ} (hn : 1 ≤ n) (x : BitVec n) :
    (x + BitVec.ofNat n (2 ^ (n - 1))).msb = !x.msb := by
  obtain ⟨n, rfl⟩ : ∃ m, n = m + 1 := ⟨n - 1, by omega⟩
  have hpow : 2 ^ (n + 1) = 2 * 2 ^ n := by ring
  have hpos : 0 < 2 ^ n := Nat.two_pow_pos n
  have hx : x.toNat < 2 ^ (n + 1) := x.isLt
  rw [BitVec.msb_eq_decide, BitVec.msb_eq_decide, BitVec.toNat_add, BitVec.toNat_ofNat,
    Nat.add_sub_cancel, Nat.mod_eq_of_lt (by omega : 2 ^ n < 2 ^ (n + 1)), ← decide_not,
    decide_eq_decide, not_le]
  rcases Nat.lt_or_ge (x.toNat + 2 ^ n) (2 ^ (n + 1)) with h | h
  · rw [Nat.mod_eq_of_lt h]
    omega
  · rw [Nat.mod_eq_sub_mod h, Nat.mod_eq_of_lt (by omega)]
    omega

/-- Some power of two of equal strides makes half of the range. -/
theorem exists_half {n : ℕ} {c : BitVec n} (hc : c ≠ 0#n) :
    ∃ v < n, BitVec.ofNat n (2 ^ v) * c = BitVec.ofNat n (2 ^ (n - 1)) := by
  have hne : c.toNat ≠ 0 := fun h => hc (BitVec.eq_of_toNat_eq (by simpa using h))
  obtain ⟨v, m, hm, hcm⟩ := Nat.exists_eq_two_pow_mul_odd hne
  have hvn : v < n := by
    have hle : 2 ^ v ≤ c.toNat := by
      rw [hcm]
      exact Nat.le_mul_of_pos_right _ hm.pos
    exact (Nat.pow_lt_pow_iff_right (by norm_num)).1 (hle.trans_lt c.isLt)
  refine ⟨n - 1 - v, by omega, BitVec.eq_of_toNat_eq ?_⟩
  have hpos : 0 < 2 ^ (n - 1) := Nat.two_pow_pos _
  have hhalf : 2 ^ n = 2 ^ (n - 1) * 2 := by rw [← pow_succ, Nat.sub_add_cancel (by omega)]
  rw [BitVec.toNat_mul, BitVec.toNat_ofNat, BitVec.toNat_ofNat, Nat.mod_mul_mod, hcm,
    ← Nat.mul_assoc, ← pow_add, Nat.sub_add_cancel (by omega), hhalf, Nat.mul_mod_mul_left,
    Nat.odd_iff.1 hm, Nat.mul_one, Nat.mod_eq_of_lt (by omega : 2 ^ (n - 1) < 2 ^ (n - 1) * 2)]

/-- **A wrapping sum has no sign.**  A word to which the same stride is added over and over has
its top bit set in exactly half of the steps of a full turn. -/
theorem count_msb_stride {n : ℕ} {c : BitVec n} (hc : c ≠ 0#n) (x : BitVec n) :
    Nat.count (fun j => (x + BitVec.ofNat n j * c).msb = true) (2 ^ n) = 2 ^ (n - 1) := by
  obtain ⟨v, hv, hstride⟩ := exists_half hc
  have hflip : ∀ j, (x + BitVec.ofNat n (j + 2 ^ v) * c).msb = true ↔
      ¬ (x + BitVec.ofNat n j * c).msb = true := by
    intro j
    rw [BitVec.ofNat_add, add_mul, hstride, ← add_assoc, msb_add_half (by omega)]
    simp
  have hturn : 2 ^ n = 2 * 2 ^ v * 2 ^ (n - 1 - v) := by
    rw [← pow_succ', ← pow_add]
    congr 1
    omega
  rw [hturn, count_of_flip hflip, ← pow_add]
  congr 1
  omega

end Clocked
