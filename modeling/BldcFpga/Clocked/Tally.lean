import BldcFpga.Clocked.Run

/-!
# Tallies that are published and restarted

A measuring circuit counts items, hands the count over from time to time and starts again
from zero.  Here the count is a number without a width, and what happens is a stream of
marks.

* `tally`, `published` — the count that is held, and the sum of the counts handed over;
* `published_add_tally` — nothing that was counted disappears: it has been handed over or
  it is still held;
* `tally_since` — between two publications it is what was counted since the first;
* `tally_le_load` — the count never exceeds the number of items of its window, so a register
  wide enough for the window is wide enough for the count.
-/

namespace Clocked

/-- What an event does to a tally: one more item, an item that is not counted, the count
handed over and restarted, or nothing. -/
inductive Mark
  | count
  | lose
  | publish
  | keep
  deriving DecidableEq, Repr

/-- The count after an event. -/
def tally : Mark → ℕ → ℕ
  | .count, n => n + 1
  | .publish, _ => 0
  | .lose, n => n
  | .keep, n => n

/-- The items of the current window after an event, counted or not. -/
def load : Mark → ℕ → ℕ
  | .count, n => n + 1
  | .publish, _ => 0
  | .lose, n => n + 1
  | .keep, n => n

variable (n : ℕ) (marks : ℕ → Mark)

/-- The sum of the counts handed over in the first `t` events, for a tally that starts
with `n`. -/
def published (t : ℕ) : ℕ :=
  ∑ i ∈ Finset.range t, if marks i = .publish then run tally n marks i else 0

/-- How often a mark is among the first `t` events. -/
def number (m : Mark) (t : ℕ) : ℕ := Nat.count (fun i => marks i = m) t

theorem published_succ (t : ℕ) :
    published n marks (t + 1) =
      published n marks t + if marks t = .publish then run tally n marks t else 0 :=
  Finset.sum_range_succ _ _

theorem number_succ (m : Mark) (t : ℕ) :
    number marks m (t + 1) = number marks m t + if marks t = m then 1 else 0 :=
  Nat.count_succ _ _

/-- **Conservation.**  What was handed over and what is held add up to what was counted. -/
theorem published_add_tally (t : ℕ) :
    published n marks t + run tally n marks t = n + number marks .count t := by
  induction t with
  | zero => simp [published, number]
  | succ t ih =>
    rw [published_succ, number_succ, run_succ]
    cases h : marks t <;> simp [tally] <;> omega

/-- After a publication nothing is held. -/
theorem published_of_publish {t : ℕ} (ht : marks t = .publish) :
    published n marks (t + 1) = n + number marks .count (t + 1) := by
  have hzero : run tally n marks (t + 1) = 0 := by
    rw [run_succ, ht, tally]
  simpa [hzero] using published_add_tally n marks (t + 1)

/-- Between two publications what is held is what was counted since the first. -/
theorem tally_since {t₀ t : ℕ} (h₀ : marks t₀ = .publish) (hlt : t₀ < t)
    (hno : ∀ i, t₀ < i → i < t → marks i ≠ .publish) :
    run tally n marks t + number marks .count (t₀ + 1) = number marks .count t := by
  induction t, hlt using Nat.le_induction with
  | base => rw [run_succ, h₀, tally, Nat.zero_add]
  | succ t hlt ih =>
    have hprev := ih fun i hi hit => hno i hi (by omega)
    rw [run_succ, number_succ marks .count t]
    cases hm : marks t with
    | count =>
      simp only [tally, if_true]
      omega
    | publish => exact absurd hm (hno t hlt (Nat.lt_succ_self t))
    | lose => simpa [tally] using hprev
    | keep => simpa [tally] using hprev

/-- The count is at most the number of items of the window. -/
theorem tally_le_load (t : ℕ) : run tally n marks t ≤ run load n marks t := by
  refine run_simulation (fun x y => x ≤ y) le_rfl (fun i x y hxy => ?_) t
  cases marks i <;> simp [tally, load] <;> omega

end Clocked
