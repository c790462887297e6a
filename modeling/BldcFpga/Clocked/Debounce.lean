import BldcFpga.Clocked.Edges

/-!
# Debouncing: the hysteresis filter as a law about blocks

A debounce filter watches a stream of samples and moves its output only when the
last `n` samples agree.  This file states that behaviour without any registers
(`Debounces`) and derives what such a filter does on every stream.

* `Debounces.latest` — the output is the value of the latest block of `n` equal
  samples, and the initial value as long as there is none;
* `Debounces.change_block`, `Debounces.change_gap`, `Debounces.holds` — every
  change of the output is backed by a block, so changes are `n` samples apart
  and the output never shows a shorter pulse;
* `Debounces.delay` — a stream without short phases passes through unchanged,
  `n` samples late.

Sample `k` is the one taken at the `(k + 1)`-st tick, and `z t` is the output
after `t` ticks; the filter compares what it had collected *before* the tick, so
`z (t + 1)` depends on the samples below `t`.
-/

namespace Clocked

variable {α : Type*}

/-- `n` consecutive samples, from sample `i` on, are all `v`. -/
def Block (n : ℕ) (d : ℕ → α) (v : α) (i : ℕ) : Prop := ∀ k < n, d (i + k) = v

/-- The latest block of `n` equal samples among the first `m` samples has value `v`. -/
def LatestBlock (n : ℕ) (d : ℕ → α) (m : ℕ) (v : α) : Prop :=
  ∃ i, i + n ≤ m ∧ Block n d v i ∧ ∀ j w, i < j → j + n ≤ m → ¬ Block n d w j

/-- There is no block of `n` equal samples among the first `m` samples. -/
def NoBlock (n : ℕ) (d : ℕ → α) (m : ℕ) : Prop := ∀ i v, i + n ≤ m → ¬ Block n d v i

theorem Block.value_eq {n : ℕ} {d : ℕ → α} {v w : α} {i : ℕ} (hn : 1 ≤ n) (hv : Block n d v i)
    (hw : Block n d w i) : v = w :=
  (hv 0 (by omega)).symm.trans (hw 0 (by omega))

/-- Two blocks of different values do not overlap. -/
theorem Block.disjoint {n : ℕ} {d : ℕ → α} {v w : α} {i j : ℕ} (hv : Block n d v i)
    (hw : Block n d w j) (hij : i ≤ j) (hne : v ≠ w) : i + n ≤ j ∨ n = 0 := by
  by_contra hover
  have h1 := hv (j - i) (by omega)
  have h2 := hw 0 (by omega)
  rw [show i + (j - i) = j + 0 by omega] at h1
  exact hne (h1.symm.trans h2)

/-- The hysteresis law: the output follows the last `n` samples when they agree
and keeps its value when they do not. -/
structure Debounces (n : ℕ) (z₀ : α) (d z : ℕ → α) : Prop where
  /-- The output before the first tick. -/
  zero : z 0 = z₀
  /-- The last `n` samples agree. -/
  take : ∀ t v, n ≤ t → Block n d v (t - n) → z (t + 1) = v
  /-- They do not, or there are not yet `n` of them. -/
  hold : ∀ t, (∀ v, n ≤ t → ¬ Block n d v (t - n)) → z (t + 1) = z t

namespace Debounces

variable {n : ℕ} {z₀ : α} {d z : ℕ → α}

/-! ## The latest block decides -/

/-- **The latest block decides.**  After `t` ticks the output is the common value
of the latest block of `n` equal samples that was complete one tick earlier, and
the initial value if there is no such block. -/
theorem latest (h : Debounces n z₀ d z) (hn : 1 ≤ n) (t : ℕ) :
    (∀ v, LatestBlock n d (t - 1) v → z t = v) ∧ (NoBlock n d (t - 1) → z t = z₀) := by
  induction t with
  | zero => exact ⟨fun v ⟨i, hi, _⟩ => by omega, fun _ => h.zero⟩
  | succ t ih =>
    obtain ⟨ihv, ihno⟩ := ih
    rw [Nat.add_sub_cancel]
    by_cases hnew : ∃ w, n ≤ t ∧ Block n d w (t - n)
    · -- a block ends with the last sample: it is the latest one
      obtain ⟨w, hnt, hw⟩ := hnew
      have hz : z (t + 1) = w := h.take t w hnt hw
      refine ⟨?_, fun hno => absurd hw (hno _ w (by omega))⟩
      rintro v ⟨i, hi, hv, hlast⟩
      have hit : i = t - n := by
        by_contra hne
        exact hlast (t - n) w (by omega) (by omega) hw
      subst hit
      rw [hz, hw.value_eq hn hv]
    · -- no block ends there: the blocks are those of the tick before
      have hnone : ∀ w, n ≤ t → ¬ Block n d w (t - n) := fun w hnt hw => hnew ⟨w, hnt, hw⟩
      have hearlier : ∀ i v, i + n ≤ t → Block n d v i → i + n ≤ t - 1 := by
        intro i v hi hv
        by_contra hgt
        exact hnone v (by omega) (by rwa [show t - n = i by omega])
      rw [h.hold t hnone]
      refine ⟨?_, fun hno => ihno fun i v hi => hno i v (by omega)⟩
      rintro v ⟨i, hi, hv, hlast⟩
      exact ihv v ⟨i, hearlier i v hi hv, hv, fun j w hij hj => hlast j w hij (by omega)⟩

/-! ## Changes of the output -/

/-- A change of the output is backed by a block of its new value. -/
theorem change_block (h : Debounces n z₀ d z) {t : ℕ} (hc : z t ≠ z (t + 1)) :
    n ≤ t ∧ Block n d (z (t + 1)) (t - n) := by
  by_contra hno
  refine hc (h.hold t fun v hnt hv => hno ⟨hnt, ?_⟩).symm
  rwa [h.take t v hnt hv]

/-- After a change the output keeps its new value for at least `n` ticks. -/
theorem holds (h : Debounces n z₀ d z) {t : ℕ} (hc : z t ≠ z (t + 1)) (k : ℕ) (hk : k < n) :
    z (t + 1 + k) = z (t + 1) := by
  induction k with
  | zero => rfl
  | succ k ih =>
    have ih := ih (by omega)
    by_contra hne
    have hc' : z (t + 1 + k) ≠ z (t + 1 + k + 1) := by rw [ih]; exact fun he => hne he.symm
    obtain ⟨hnt, hold⟩ := h.change_block hc
    obtain ⟨hnt', hnew⟩ := h.change_block hc'
    have hdis := hold.disjoint hnew (by omega) (by rwa [ih] at hc')
    omega

/-- Two changes of the output are at least `n` ticks apart. -/
theorem change_gap (h : Debounces n z₀ d z) {t u : ℕ} (htu : t < u) (hc : z t ≠ z (t + 1))
    (hc' : z u ≠ z (u + 1)) : t + n ≤ u := by
  by_contra hlt
  have h1 := h.holds hc (u - t - 1) (by omega)
  have h2 := h.holds hc (u - t) (by omega)
  rw [show t + 1 + (u - t - 1) = u by omega] at h1
  rw [show t + 1 + (u - t) = u + 1 by omega] at h2
  exact hc' (h1.trans h2.symm)

/-! ## Streams without short phases -/

/-- A stream without short phases comes out unchanged, `n` ticks late. -/
theorem delay (h : Debounces n z₀ d z) (hn : 1 ≤ n) (hd : PhasesAtLeast n d) (t : ℕ) :
    z (t + n + 1) = d t := by
  induction t with
  | zero =>
    refine h.take (0 + n) (d 0) (by omega) fun k hk => ?_
    rw [show 0 + n - n + k = 0 + k by omega]
    exact hd 0 (Or.inl rfl) k hk
  | succ t ih =>
    by_cases hblock : Block n d (d (t + 1)) (t + 1)
    · exact h.take (t + 1 + n) _ (by omega) (by rwa [Nat.add_sub_cancel])
    · -- the phase of sample `t + 1` began earlier, so the output already shows it
      have hsame : d t = d (t + 1) := by
        by_contra hne
        exact hblock fun k hk => hd (t + 1) (Or.inr (by simpa using hne)) k hk
      rw [← hsame, ← ih, show t + 1 + n + 1 = t + n + 1 + 1 by omega]
      refine h.hold (t + n + 1) fun v _ hv => hblock ?_
      rw [show t + n + 1 - n = t + 1 by omega] at hv
      rwa [← hv 0 (by omega)] at hv

/-- Before that the output is still the initial value. -/
theorem before_delay (h : Debounces n z₀ d z) (hn : 1 ≤ n) {t : ℕ} (ht : t ≤ n) : z t = z₀ :=
  (h.latest hn t).2 fun i v hi => by omega

end Debounces

end Clocked
