import Mathlib

/-!
# Runs of a clocked machine

A synchronous circuit is a step function: a clock edge takes the levels its
inputs have at that edge and the contents of its registers, and leaves new
contents.  This file is the part of the development that knows nothing about
any particular circuit.

* `run` — the contents after `t` clock edges, for an unbounded stream of inputs;
* `run_invariant` — what the start satisfies and every edge preserves holds in
  every cycle of every run;
* `run_simulation` — two machines whose edges keep a relation stay related, and
  `run_map`, the case where the relation is a function;
* `run_gated` — a register bank behind a *derived* clock: it steps on some edges
  only, and its trajectory is a run over the inputs sampled at those edges;
* `isLeast_running` — a register that keeps the smaller value holds the least of the
  values it has seen.
-/

namespace Clocked

variable {σ τ ι κ : Type*}

/-- The register contents after `t` clock edges; edge `k` takes the input `inp k`. -/
def run (step : ι → σ → σ) (s : σ) (inp : ℕ → ι) : ℕ → σ
  | 0 => s
  | t + 1 => step (inp t) (run step s inp t)

@[simp] theorem run_zero (step : ι → σ → σ) (s : σ) (inp : ℕ → ι) : run step s inp 0 = s := rfl

theorem run_succ (step : ι → σ → σ) (s : σ) (inp : ℕ → ι) (t : ℕ) :
    run step s inp (t + 1) = step (inp t) (run step s inp t) := rfl

/-- A run can be cut anywhere: the second part is a run from where the first one ended. -/
theorem run_add (step : ι → σ → σ) (s : σ) (inp : ℕ → ι) (a b : ℕ) :
    run step s inp (a + b) = run step (run step s inp a) (fun k => inp (a + k)) b := by
  induction b with
  | zero => rfl
  | succ b ih => rw [← Nat.add_assoc, run_succ, ih, run_succ]

/-- Among the edges of a kind before `b` there is a last one. -/
theorem exists_last {P : ℕ → Prop} {a b : ℕ} (ha : P a) (hab : a < b) :
    ∃ c, a ≤ c ∧ c < b ∧ P c ∧ ∀ k, c < k → k < b → ¬ P k := by
  induction b, hab using Nat.le_induction with
  | base => exact ⟨a, le_rfl, Nat.lt_succ_self a, ha, by omega⟩
  | succ b hab ih =>
    by_cases hb : P b
    · exact ⟨b, by omega, Nat.lt_succ_self b, hb, by omega⟩
    · obtain ⟨c, hac, hcb, hc, hlast⟩ := ih
      refine ⟨c, hac, by omega, hc, fun k hck hkb => ?_⟩
      rcases Nat.lt_succ_iff_lt_or_eq.1 hkb with hkb | rfl
      · exact hlast k hck hkb
      · exact hb

/-! ## Invariants and simulations -/

/-- **The invariant rule.**  What holds at the start and is preserved by every
edge holds in every cycle.  The invariant may mention the cycle number. -/
theorem run_invariant {step : ι → σ → σ} {s : σ} {inp : ℕ → ι} (P : ℕ → σ → Prop) (h0 : P 0 s)
    (hstep : ∀ t x, P t x → P (t + 1) (step (inp t) x)) (t : ℕ) : P t (run step s inp t) := by
  induction t with
  | zero => exact h0
  | succ t ih => exact hstep t _ ih

/-- **The simulation rule.**  Two machines whose edges keep a relation stay related. -/
theorem run_simulation {step : ι → σ → σ} {step' : κ → τ → τ} {s : σ} {s' : τ} {inp : ℕ → ι}
    {inp' : ℕ → κ} (R : σ → τ → Prop) (h0 : R s s')
    (hstep : ∀ t x y, R x y → R (step (inp t) x) (step' (inp' t) y)) (t : ℕ) :
    R (run step s inp t) (run step' s' inp' t) := by
  induction t with
  | zero => exact h0
  | succ t ih => exact hstep t _ _ ih

/-- A projection that commutes with every edge commutes with every run. -/
theorem run_map {step : ι → σ → σ} {step' : κ → τ → τ} (f : σ → τ) (g : ι → κ)
    (h : ∀ i x, f (step i x) = step' (g i) (f x)) (s : σ) (inp : ℕ → ι) (t : ℕ) :
    f (run step s inp t) = run step' (f s) (fun k => g (inp k)) t :=
  run_simulation (fun x y => f x = y) rfl (fun t x y hxy => by rw [h, hxy]) t

/-! ## Derived clocks -/

section Gated

variable (tick : ℕ → Prop) [DecidablePred tick]

/-- The inputs present at the successive edges at which a derived clock ticks. -/
noncomputable def sampled (inp : ℕ → ι) (k : ℕ) : ι := inp (Nat.nth tick k)

variable {tick}

/-- The edge at which the clock ticks contributes the next sample. -/
theorem sampled_count (inp : ℕ → ι) {t : ℕ} (ht : tick t) :
    sampled tick inp (Nat.count tick t) = inp t := by
  rw [sampled, Nat.nth_count ht]

/-- **Derived clocks.**  A trajectory that steps on the ticks and holds its
contents otherwise is the run over the sampled inputs, advanced by as many steps
as there were ticks. -/
theorem run_gated {step : ι → σ → σ} {inp : ℕ → ι} {x : ℕ → σ}
    (hx : ∀ t, x (t + 1) = if tick t then step (inp t) (x t) else x t) (t : ℕ) :
    x t = run step (x 0) (sampled tick inp) (Nat.count tick t) := by
  induction t with
  | zero => simp
  | succ t ih =>
    rw [hx, Nat.count_succ]
    by_cases ht : tick t
    · rw [if_pos ht, if_pos ht, run_succ, sampled_count inp ht, ← ih]
    · rw [if_neg ht, if_neg ht, Nat.add_zero, ih]

end Gated

/-! ## Running minima -/

/-- **The running minimum.**  A register that is loaded with the first value and then
replaced by every smaller one holds the least of the values seen, for as long as it is not
loaded again. -/
theorem isLeast_running {α : Type*} [LinearOrder α] {q m : ℕ → α} {n : ℕ} (hload : m 1 = q 0)
    (hstep : ∀ i, 1 ≤ i → i < n → m (i + 1) = if q i < m i then q i else m i) {i : ℕ}
    (hi : 1 ≤ i) (hin : i ≤ n) : IsLeast (q '' Set.Iio i) (m i) := by
  induction i, hi using Nat.le_induction with
  | base =>
    refine ⟨⟨0, by simp, hload.symm⟩, ?_⟩
    rintro _ ⟨k, hk, rfl⟩
    rw [hload, Nat.lt_one_iff.1 hk]
  | succ i hi ih =>
    obtain ⟨⟨k, hk, hmk⟩, hleast⟩ := ih (by omega)
    rw [Set.mem_Iio] at hk
    rw [hstep i hi (by omega)]
    by_cases hlt : q i < m i
    · rw [if_pos hlt]
      refine ⟨⟨i, by simp, rfl⟩, ?_⟩
      rintro _ ⟨k', hk', rfl⟩
      rcases Nat.lt_succ_iff_lt_or_eq.1 hk' with hk' | rfl
      · exact hlt.le.trans (hleast ⟨k', hk', rfl⟩)
      · exact le_rfl
    · rw [if_neg hlt]
      refine ⟨⟨k, by rw [Set.mem_Iio]; omega, hmk⟩, ?_⟩
      rintro _ ⟨k', hk', rfl⟩
      rcases Nat.lt_succ_iff_lt_or_eq.1 hk' with hk' | rfl
      · exact hleast ⟨k', hk', rfl⟩
      · exact not_lt.1 hlt

/-- The least of some values is the least of one more exactly when that one is no smaller. -/
theorem isLeast_succ_iff {α : Type*} [LinearOrder α] {q : ℕ → α} {n : ℕ} {x : α}
    (hx : IsLeast (q '' Set.Iio n) x) :
    IsLeast (q '' Set.Iio (n + 1)) x ↔ ∃ i < n, q i ≤ q n := by
  obtain ⟨⟨k, hk, hkx⟩, hleast⟩ := hx
  rw [Set.mem_Iio] at hk
  constructor
  · intro h
    exact ⟨k, hk, hkx.trans_le (h.2 ⟨n, by simp, rfl⟩)⟩
  · rintro ⟨i, hi, hin⟩
    refine ⟨⟨k, by rw [Set.mem_Iio]; omega, hkx⟩, ?_⟩
    rintro _ ⟨k', hk', rfl⟩
    rcases Nat.lt_succ_iff_lt_or_eq.1 hk' with hk' | rfl
    · exact hleast ⟨k', hk', rfl⟩
    · exact (hleast ⟨i, hi, rfl⟩).trans hin

end Clocked
