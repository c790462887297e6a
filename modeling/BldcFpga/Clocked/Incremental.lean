import BldcFpga.Clocked.Run

/-!
# Incremental controllers

A controller in incremental form adds to its last output what the last three errors call
for, instead of summing all errors anew.  Over any commutative ring its output is a sum of
all errors after all: the increments telescope.

* `Incremental` — the controller with its memory;
* `closed` — the output as a sum over the errors, and `Incremental.output_run`, that the
  controller computes it;
* `closed_map` — the sum commutes with every homomorphism of rings, so what holds of exact
  numbers holds of their remainders;
* `closed_nonneg` — a sum of nonnegative errors with nonnegative weights.
-/

namespace Clocked

/-- The three gains of an incremental controller. -/
structure Gains (R : Type*) where
  k1 : R
  k2 : R
  k3 : R
  deriving DecidableEq, Repr

/-- The gains in another ring. -/
def Gains.map {R S : Type*} (φ : R → S) (k : Gains R) : Gains S := ⟨φ k.k1, φ k.k2, φ k.k3⟩

/-- What the controller remembers: its last output and the last two errors. -/
structure Incremental (R : Type*) where
  uPrev : R
  ePrev1 : R
  ePrev2 : R
  deriving DecidableEq, Repr

section Ring

variable {R S : Type*} [CommRing R] [CommRing S]

namespace Incremental

/-- The output while the error is `e`. -/
def output (k : Gains R) (e : R) (s : Incremental R) : R :=
  s.uPrev + k.k1 * e - k.k2 * s.ePrev1 + k.k3 * s.ePrev2

/-- One cycle. -/
def step (k : Gains R) (e : R) (s : Incremental R) : Incremental R :=
  ⟨output k e s, e, s.ePrev1⟩

/-- No output and no error so far. -/
def rest : Incremental R := ⟨0, 0, 0⟩

end Incremental

/-- The sequence delayed by `d` cycles, with nothing before its beginning. -/
def delayed (d : ℕ) (e : ℕ → R) (t : ℕ) : R := if d ≤ t then e (t - d) else 0

@[simp] theorem delayed_one_zero (e : ℕ → R) : delayed 1 e 0 = 0 := rfl

@[simp] theorem delayed_one_succ (e : ℕ → R) (t : ℕ) : delayed 1 e (t + 1) = e t := by
  simp [delayed]

/-- The output in cycle `t` as a sum over the errors. -/
def closed (k : Gains R) (e : ℕ → R) (t : ℕ) : R :=
  k.k1 * e t + (k.k1 - k.k2) * delayed 1 e t +
    (k.k1 - k.k2 + k.k3) * ∑ i ∈ Finset.range (t - 1), e i

/-- One cycle adds to the sum what the controller adds to its output. -/
theorem closed_succ (k : Gains R) (e : ℕ → R) (t : ℕ) :
    closed k e (t + 1) = closed k e t + k.k1 * e (t + 1) - k.k2 * e t + k.k3 * delayed 1 e t := by
  cases t with
  | zero =>
    simp [closed]
    ring
  | succ t =>
    simp only [closed, delayed_one_succ, Nat.add_sub_cancel, Finset.sum_range_succ]
    ring

/-- **The memory in closed form.** -/
theorem Incremental.run_rest (k : Gains R) (e : ℕ → R) (t : ℕ) :
    run (step k) rest e (t + 1) = ⟨closed k e t, e t, delayed 1 e t⟩ := by
  induction t with
  | zero => simp [run_succ, step, output, rest, closed]
  | succ t ih =>
    rw [run_succ, ih, step, output, ← closed_succ, delayed_one_succ]

/-- **The increments telescope.**  Started at rest, the controller shows the sum in every
cycle. -/
theorem Incremental.output_run (k : Gains R) (e : ℕ → R) (t : ℕ) :
    output k (e t) (run (step k) rest e t) = closed k e t := by
  have h := congrArg Incremental.uPrev (run_rest k e t)
  rwa [run_succ] at h

theorem delayed_map (φ : R →+* S) (d : ℕ) (e : ℕ → R) (t : ℕ) :
    φ (delayed d e t) = delayed d (fun i => φ (e i)) t := by
  rw [delayed, apply_ite φ, map_zero, delayed]

/-- The sum commutes with homomorphisms. -/
theorem closed_map (φ : R →+* S) (k : Gains R) (e : ℕ → R) (t : ℕ) :
    φ (closed k e t) = closed (k.map φ) (fun i => φ (e i)) t := by
  simp only [closed, Gains.map, map_add, map_sub, map_mul, map_sum, delayed_map]

end Ring

/-- Nonnegative errors with nonnegative weights. -/
theorem closed_nonneg {R : Type*} [CommRing R] [LinearOrder R] [IsStrictOrderedRing R]
    {k : Gains R} {e : ℕ → R} (h1 : 0 ≤ k.k1) (h2 : 0 ≤ k.k1 - k.k2)
    (h3 : 0 ≤ k.k1 - k.k2 + k.k3) (he : ∀ i, 0 ≤ e i) (t : ℕ) : 0 ≤ closed k e t := by
  have hdelayed : 0 ≤ delayed 1 e t := by
    rw [delayed]
    split
    · exact he _
    · exact le_rfl
  have hsum : 0 ≤ ∑ i ∈ Finset.range (t - 1), e i := Finset.sum_nonneg fun i _ => he i
  have hnow := mul_nonneg h1 (he t)
  have hlast := mul_nonneg h2 hdelayed
  have holder := mul_nonneg h3 hsum
  rw [closed]
  linarith

/-! ## Truncation -/

/-- Dropping high bits is a homomorphism. -/
def truncate {m n : ℕ} (h : n ≤ m) : BitVec m →+* BitVec n where
  toFun x := x.setWidth n
  map_zero' := by simp
  map_one' := BitVec.setWidth_ofNat_of_le h 1
  map_add' x y := BitVec.setWidth_add x y h
  map_mul' x y := BitVec.setWidth_mul x y h

/-- A word is the remainder of the number it stands for, in any narrower register too. -/
theorem truncate_toInt {m n : ℕ} (h : n ≤ m) (x : BitVec m) :
    truncate h x = ((x.toInt : ℤ) : BitVec n) := by
  have hx : ((x.toInt : ℤ) : BitVec m) = x := BitVec.ofInt_toInt
  rw [← map_intCast (truncate h), hx]

end Clocked
