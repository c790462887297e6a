import BldcFpga.Clocked.Incremental

/-!
# The PID controller

`PID.v`: an incremental controller whose expression is evaluated without signs in 32 bits,
the width of the gains, and then cut to the `n` bits of `u_out`.

* `Pid` — the module;
* `Pid.uOut_eq` — cut to `n` bits, the expression is that of an incremental controller
  over words of `n` bits, so the module refines the controller (`Pid.states_eq`);
* `pid_closed_form` — the output is the remainder of the exact sum over all errors, and
  the sum itself wherever it fits;
* `pid_sign` — with the default gains and nonnegative errors, when the output is
  nonnegative too.
-/

namespace BldcFpga

open Clocked

/-- The registers of `PID`. -/
structure Pid (n : ℕ) where
  uPrev : BitVec n
  ePrev1 : BitVec n
  ePrev2 : BitVec n
  deriving DecidableEq, Repr

namespace Pid

/-- The defaults of the parameters `k1`, `k2` and `k3`. -/
def gainsDefault : Gains (BitVec 32) := ⟨107#32, 104#32, 2#32⟩

variable {n : ℕ}

/-- The wire `u_out`, for a width of at most 32.  An expression with an unsigned operand is
unsigned, and all operands are extended to the widest one first. -/
def uOut (k : Gains (BitVec 32)) (eIn : BitVec n) (s : Pid n) : BitVec n :=
  (s.uPrev.setWidth 32 + k.k1 * eIn.setWidth 32 - k.k2 * s.ePrev1.setWidth 32 +
    k.k3 * s.ePrev2.setWidth 32).setWidth n

/-- The inputs of `PID` at a clock edge. -/
structure Input (n : ℕ) where
  reset : Bool
  eIn : BitVec n
  deriving DecidableEq, Repr

/-- A rising edge of `Clock`. -/
def step (k : Gains (BitVec 32)) (i : Input n) (s : Pid n) : Pid n :=
  if i.reset then ⟨0#n, 0#n, 0#n⟩
  else
    { uPrev := uOut k i.eIn s
      ePrev1 := i.eIn
      ePrev2 := s.ePrev1 }

/-- The registers `t` clocks after an edge with `Reset` high, with `Reset` low since. -/
def states (k : Gains (BitVec 32)) (s : Pid n) (e₀ : BitVec n) (e : ℕ → BitVec n) (t : ℕ) :
    Pid n :=
  run (step k) (step k ⟨true, e₀⟩ s) (fun j => ⟨false, e j⟩) t

/-- The output in cycle `t` of such a run, with the error of that cycle at the input. -/
def outputs (k : Gains (BitVec 32)) (s : Pid n) (e₀ : BitVec n) (e : ℕ → BitVec n) (t : ℕ) :
    BitVec n :=
  uOut k (e t) (states k s e₀ e t)

/-! ## Refinement of the incremental controller -/

/-- The memory of the controller that the registers stand for. -/
def memory (s : Pid n) : Incremental (BitVec n) := ⟨s.uPrev, s.ePrev1, s.ePrev2⟩

section Refinement

variable (hn : n ≤ 32) (k : Gains (BitVec 32))

/-- The bits that are cut off do not matter for those that are kept. -/
theorem uOut_eq (e : BitVec n) (s : Pid n) :
    uOut k e s = Incremental.output (k.map (truncate hn)) e s.memory := by
  have hcut : ∀ x : BitVec n, truncate hn (x.setWidth 32) = x := fun x => by
    rw [truncate, RingHom.coe_mk]
    simp [hn]
  show truncate hn (s.uPrev.setWidth 32 + k.k1 * e.setWidth 32 - k.k2 * s.ePrev1.setWidth 32 +
    k.k3 * s.ePrev2.setWidth 32) = _
  simp only [map_add, map_sub, map_mul, hcut]
  rfl

/-- **Refinement.**  After a reset edge the registers run with the controller started at
rest. -/
theorem states_eq (s : Pid n) (e₀ : BitVec n) (e : ℕ → BitVec n) (t : ℕ) :
    (states k s e₀ e t).memory =
      run (Incremental.step (k.map (truncate hn))) Incremental.rest e t := by
  refine run_simulation (fun x y => memory x = y) rfl (fun j x y hxy => ?_) t
  rw [← hxy, Incremental.step, ← uOut_eq]
  rfl

/-- The output as a sum over words of `n` bits. -/
theorem outputs_eq (s : Pid n) (e₀ : BitVec n) (e : ℕ → BitVec n) (t : ℕ) :
    outputs k s e₀ e t = closed (k.map (truncate hn)) e t := by
  rw [outputs, uOut_eq hn, states_eq hn, Incremental.output_run]

include hn

/-- The output as the remainder of an exact sum, however the errors are read as numbers. -/
theorem outputs_eq_intCast (s : Pid n) (e₀ : BitVec n) (e : ℕ → BitVec n) (E : ℕ → ℤ)
    (hE : ∀ i, (E i : BitVec n) = e i) (t : ℕ) :
    outputs k s e₀ e t = ((closed (k.map BitVec.toInt) E t : ℤ) : BitVec n) := by
  have hgains : k.map (truncate hn) = (k.map BitVec.toInt).map (Int.castRingHom (BitVec n)) := by
    simp only [Gains.map, truncate_toInt hn, eq_intCast]
  have herrors : e = fun i => Int.castRingHom (BitVec n) (E i) := funext fun i => (hE i).symm
  rw [outputs_eq hn, hgains, herrors, ← closed_map, eq_intCast]

/-- The output as a number, modulo `2 ^ n`. -/
theorem outputs_toNat (s : Pid n) (e₀ : BitVec n) (e : ℕ → BitVec n) (E : ℕ → ℤ)
    (hE : ∀ i, (E i : BitVec n) = e i) (t : ℕ) :
    ((outputs k s e₀ e t).toNat : ℤ) = closed (k.map BitVec.toInt) E t % 2 ^ n := by
  rw [outputs_eq_intCast hn k s e₀ e E hE, BitVec.toNat_intCast,
    Int.toNat_of_nonneg (Int.emod_nonneg _ (by positivity))]

/-- A sum that fits is shown as it is. -/
theorem outputs_toInt (h1 : 1 ≤ n) (s : Pid n) (e₀ : BitVec n) (e : ℕ → BitVec n) (E : ℕ → ℤ)
    (hE : ∀ i, (E i : BitVec n) = e i) (t : ℕ)
    (hlo : -2 ^ (n - 1) ≤ closed (k.map BitVec.toInt) E t)
    (hhi : closed (k.map BitVec.toInt) E t < 2 ^ (n - 1)) :
    (outputs k s e₀ e t).toInt = closed (k.map BitVec.toInt) E t := by
  rw [outputs_eq_intCast hn k s e₀ e E hE]
  exact BitVec.toInt_ofInt_eq_self h1 hlo hhi

end Refinement

/-- The two readings of a word have its remainder. -/
@[simp] theorem intCast_toInt (x : BitVec n) : (x.toInt : BitVec n) = x := BitVec.ofInt_toInt

@[simp] theorem intCast_toNat (x : BitVec n) : ((x.toNat : ℤ) : BitVec n) = x := by
  show BitVec.ofInt n (x.toNat : ℤ) = x
  rw [BitVec.ofInt_natCast, BitVec.ofNat_toNat, BitVec.setWidth_eq]

/-- The sum of the default gains. -/
theorem closed_gainsDefault (E : ℕ → ℤ) (t : ℕ) :
    closed (gainsDefault.map BitVec.toInt) E t =
      107 * E t + 3 * delayed 1 E t + 5 * ∑ i ∈ Finset.range (t - 1), E i := rfl

end Pid

open Pid in
/-- **The output in closed form.**  For every width from 1 to 32, all gains and every
sequence of errors after an edge with `Reset` high, whatever the registers held before it:
in every cycle `u_out` is
`k1 * e_t + (k1 - k2) * e_(t-1) + (k1 - k2 + k3) * (e_0 + … + e_(t-2))` modulo `2 ^ n`,
with the errors read with or without a sign; and read with a sign, it is the sum itself
whenever that fits in `n` bits. -/
theorem pid_closed_form {n : ℕ} (h1 : 1 ≤ n) (hn : n ≤ 32) (k : Gains (BitVec 32)) (s : Pid n)
    (e₀ : BitVec n) (e : ℕ → BitVec n) (t : ℕ) :
    let sum : (ℕ → ℤ) → ℤ := fun E => closed (k.map BitVec.toInt) E t
    ((outputs k s e₀ e t).toNat : ℤ) = sum (fun i => (e i).toNat) % 2 ^ n ∧
      ((outputs k s e₀ e t).toNat : ℤ) = sum (fun i => (e i).toInt) % 2 ^ n ∧
      (-2 ^ (n - 1) ≤ sum (fun i => (e i).toInt) → sum (fun i => (e i).toInt) < 2 ^ (n - 1) →
        (outputs k s e₀ e t).toInt = sum fun i => (e i).toInt) :=
  ⟨outputs_toNat hn k s e₀ e _ (fun i => intCast_toNat (e i)) t,
    outputs_toNat hn k s e₀ e _ (fun i => intCast_toInt (e i)) t,
    outputs_toInt hn k h1 s e₀ e _ (fun i => intCast_toInt (e i)) t⟩

open Pid in
/-- Twelve bits and the default gains: the errors 1000, -1000 and 0 wrap the products and
the first outputs, and the third output is exact again. -/
theorem pid_closed_form_wrapped :
    let e : ℕ → BitVec 12 := fun t => if t = 0 then 1000#12 else if t = 1 then -1000#12 else 0#12
    (outputs gainsDefault ⟨0#12, 0#12, 0#12⟩ 0#12 e 2).toInt = 2000 :=
  (pid_closed_form (n := 12) (by decide) (by decide) gainsDefault ⟨0#12, 0#12, 0#12⟩ 0#12
    (fun t => if t = 0 then 1000#12 else if t = 1 then -1000#12 else 0#12) 2).2.2
    (by decide) (by decide)

open Pid in
/-- **The sign of the output.**  For 16 bits, the default gains and every sequence of errors
after an edge with `Reset` high that are nonnegative when read with a sign: the exact sum
is nonnegative in every cycle, and `u_out` read with a sign is nonnegative exactly in the
cycles in which the remainder of the sum modulo `2 ^ 16` is below `2 ^ 15`.  In particular
it is the sum whenever that is below `2 ^ 15`, whatever wrapped before. -/
theorem pid_sign (s : Pid 16) (e₀ : BitVec 16) (e : ℕ → BitVec 16) (he : ∀ i, 0 ≤ (e i).toInt)
    (t : ℕ) :
    let E : ℕ → ℤ := fun i => (e i).toInt
    let sum : ℤ := 107 * E t + 3 * delayed 1 E t + 5 * ∑ i ∈ Finset.range (t - 1), E i
    0 ≤ sum ∧
      (0 ≤ (outputs gainsDefault s e₀ e t).toInt ↔ sum % 2 ^ 16 < 2 ^ 15) ∧
      (sum < 2 ^ 15 → (outputs gainsDefault s e₀ e t).toInt = sum) := by
  intro E sum
  have hclosed : closed (gainsDefault.map BitVec.toInt) E t = sum := closed_gainsDefault E t
  have hE : ∀ i, (E i : BitVec 16) = e i := fun i => intCast_toInt (e i)
  have hsum : 0 ≤ sum := by
    rw [← hclosed]
    exact closed_nonneg (by decide) (by decide) (by decide) he t
  have hrem : ((outputs gainsDefault s e₀ e t).toNat : ℤ) = sum % 2 ^ 16 := by
    rw [← hclosed]
    exact outputs_toNat (by omega) gainsDefault s e₀ e E hE t
  refine ⟨hsum, ?_, fun hhi => ?_⟩
  · rw [BitVec.toInt_pos_iff, ← hrem]
    omega
  · rw [← hclosed] at hsum hhi ⊢
    exact outputs_toInt (by omega) gainsDefault (by omega) s e₀ e E hE t (by omega) hhi

open Pid in
/-- An error of 100 that stays: the output is 12000 in the fourth cycle. -/
theorem pid_sign_constant :
    (outputs gainsDefault ⟨0#16, 0#16, 0#16⟩ 0#16 (fun _ => 100#16) 3).toInt = 12000 :=
  (pid_sign ⟨0#16, 0#16, 0#16⟩ 0#16 (fun _ => 100#16) (fun _ => by decide) 3).2.2 (by decide)

open Pid in
/-- An error of 307 in the cycle after a reset: the product 32849 is read as a negative
output. -/
theorem pid_sign_flip :
    let e : ℕ → BitVec 16 := fun _ => 307#16
    (∀ i, 0 ≤ (e i).toInt) ∧
      (outputs gainsDefault ⟨0#16, 0#16, 0#16⟩ 0#16 e 0).toInt = -32687 :=
  ⟨fun _ => show 0 ≤ (307#16).toInt by decide, by decide⟩

end BldcFpga
