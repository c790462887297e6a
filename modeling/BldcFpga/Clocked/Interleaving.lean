import BldcFpga.Clocked.Run

/-!
# Components of a system of several clocks

A system takes one event after another: an edge of one of its clocks, a change of a pin.
Each component listens to some of the events only, and what it reads at one may come from
the other components.

* `Feeds` — a stream holds, in order, the inputs that a component is given; `fed` counts
  them;
* `run_feeds` — whatever happens in between, the component runs on that stream;
* `feeds_prefix`, `feeds_alternate` — the stream of a burst of inputs, and of inputs at
  every other event;
* `kept` — a register that moves at some events stays as it is between them;
* `count_fed` — counting events by the number of events of that kind before them.
-/

namespace Clocked

variable {σ ι : Type*}

/-! ## Inputs -/

/-- The number of inputs among the first `t` events; event `k` brings the input `f k`, or
none. -/
def fed (f : ℕ → Option ι) (t : ℕ) : ℕ := Nat.count (fun k => (f k).isSome = true) t

/-- `inp` is the stream of inputs that the events bring, in order. -/
def Feeds (f : ℕ → Option ι) (inp : ℕ → ι) : Prop := ∀ k i, f k = some i → inp (fed f k) = i

theorem fed_some {f : ℕ → Option ι} {t : ℕ} {i : ι} (h : f t = some i) :
    fed f (t + 1) = fed f t + 1 := by
  rw [fed, Nat.count_succ, h]
  rfl

theorem fed_none {f : ℕ → Option ι} {t : ℕ} (h : f t = none) : fed f (t + 1) = fed f t := by
  rw [fed, Nat.count_succ, h]
  rfl

/-- **A component runs on its own inputs.** -/
theorem run_feeds {step : ι → σ → σ} {f : ℕ → Option ι} {inp : ℕ → ι} {x : ℕ → σ}
    (h : Feeds f inp) (hsome : ∀ t i, f t = some i → x (t + 1) = step i (x t))
    (hnone : ∀ t, f t = none → x (t + 1) = x t) (t : ℕ) :
    x t = run step (x 0) inp (fed f t) := by
  induction t with
  | zero => rfl
  | succ t ih =>
    cases hf : f t with
    | some i => rw [hsome t i hf, fed_some hf, run_succ, h t i hf, ← ih]
    | none => rw [hnone t hf, fed_none hf, ih]

/-- Events that are all inputs at first, and none later. -/
theorem feeds_prefix {f : ℕ → Option ι} {inp : ℕ → ι} {n : ℕ}
    (hsome : ∀ k < n, f k = some (inp k)) (hnone : ∀ k, n ≤ k → f k = none) : Feeds f inp := by
  have hfed : ∀ k ≤ n, fed f k = k := by
    intro k hk
    induction k with
    | zero => rfl
    | succ k ih => rw [fed_some (hsome k hk), ih (by omega)]
  intro k i hi
  by_cases hk : k < n
  · rw [hfed k hk.le]
    exact Option.some.inj ((hsome k hk).symm.trans hi)
  · exact absurd (hnone k (by omega)) (hi ▸ Option.some_ne_none i)

/-- Inputs at every other event. -/
theorem feeds_alternate {f : ℕ → Option ι} {inp : ℕ → ι} (hnone : ∀ j, f (2 * j) = none)
    (hsome : ∀ j, f (2 * j + 1) = some (inp j)) : Feeds f inp ∧ ∀ j, fed f (2 * j) = j := by
  have hfed : ∀ j, fed f (2 * j) = j := by
    intro j
    induction j with
    | zero => rfl
    | succ j ih =>
      rw [show 2 * (j + 1) = 2 * j + 1 + 1 by ring, fed_some (hsome j), fed_none (hnone j), ih]
  refine ⟨fun k i hi => ?_, hfed⟩
  obtain ⟨j, rfl | rfl⟩ := Nat.even_or_odd' k
  · rw [hnone j] at hi
    exact absurd hi.symm (Option.some_ne_none i)
  · rw [fed_none (hnone j), hfed j]
    exact Option.some.inj ((hsome j).symm.trans hi)

/-- Without an event that moves it, a register stays as it is. -/
theorem kept {x : ℕ → σ} {P : ℕ → Prop} (hkeep : ∀ t, ¬ P t → x (t + 1) = x t) {a b : ℕ}
    (hab : a ≤ b) (hno : ∀ k, a ≤ k → k < b → ¬ P k) : x b = x a := by
  induction b, hab using Nat.le_induction with
  | base => rfl
  | succ b hab ih =>
    rw [hkeep b (hno b hab (Nat.lt_succ_self b)), ih fun k hk hkb => hno k hk (by omega)]

/-! ## Counting -/

/-- Events of one kind, numbered by how many of them came before. -/
theorem count_fed (P : ℕ → Prop) [DecidablePred P] (Q : ℕ → Prop) [DecidablePred Q] (t : ℕ) :
    Nat.count (fun k => P k ∧ Q (Nat.count P k)) t = Nat.count Q (Nat.count P t) := by
  induction t with
  | zero => simp
  | succ t ih =>
    rw [Nat.count_succ, ih, Nat.count_succ P]
    by_cases hP : P t
    · simp only [hP, true_and, if_true]
      rw [Nat.count_succ]
    · simp [hP]

end Clocked
