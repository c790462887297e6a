import BldcFpga.Clocked.Counters
import BldcFpga.Clocked.Edges
import BldcFpga.PatternGenerator.Sector

/-!
# The sensors of a turning motor

What a motor that turns in one direction does to its three hall sensors, stated without
any circuit: each electrical revolution is six steps from a sector to its neighbour, and
each sensor rises at one of them.

* `Turns` — the sector never moves back;
* `rises_forward` — the rises of a sensor in closed form, as a quotient of the number of
  steps; `Sector.mirror` carries it over to the other direction;
* `Turns.risesIn_bounds` — in any stretch of cycles six times the rises of a sensor is
  the number of steps, up to five;
* `rotating` — a motor at constant speed.
-/

namespace BldcFpga

open Clocked

/-- The sensor of a leg. -/
def Hall.line (h : Hall) : Leg → Bool
  | .a => h.a
  | .b => h.b
  | .c => h.c

namespace Sector

/-- The place of a sector in the order of rotation. -/
def index : Sector → ℕ
  | A => 0
  | B => 1
  | C => 2
  | D => 3
  | E => 4
  | F => 5

/-- How many steps before sector `A` the sensor of a leg rises. -/
def lead : Leg → ℕ
  | .a => 0
  | .b => 4
  | .c => 2

theorem index_next (m : Sector) : m.next.index = (m.index + 1) % 6 := by cases m <;> rfl

theorem next_ne (m : Sector) : m ≠ m.next := by cases m <;> decide

/-- A sensor is high during the three sectors after its rise. -/
theorem line_hall : ∀ (m : Sector) (x : Leg), m.hall.line x = decide ((m.index + lead x) % 6 < 3) := by
  decide

/-! ## The other direction -/

/-- The order of rotation reversed, with sector `A` in its place. -/
def mirror : Sector → Sector
  | A => A
  | B => F
  | C => E
  | D => D
  | E => C
  | F => B

theorem mirror_mirror (m : Sector) : m.mirror.mirror = m := by cases m <;> rfl

theorem mirror_next (m : Sector) : m.next.mirror.next = m.mirror := by cases m <;> rfl

/-- Seen in the mirror, the sensors of legs `a` and `c` are exchanged. -/
def mirrorLine : Leg → Leg
  | .a => .c
  | .b => .b
  | .c => .a

theorem line_mirror (m : Sector) (x : Leg) :
    m.mirror.hall.line (mirrorLine x) = m.hall.line x := by
  cases m <;> cases x <;> rfl

end Sector

/-! ## Rotation -/

section Rotation

variable {m : ℕ → Sector}

/-- In every cycle the motor stays in its sector or steps to the next one. -/
def TurnsForward (m : ℕ → Sector) : Prop := ∀ t, m (t + 1) = m t ∨ m (t + 1) = (m t).next

/-- The same in the reverse order. -/
def TurnsBackward (m : ℕ → Sector) : Prop := ∀ t, m (t + 1) = m t ∨ m t = (m (t + 1)).next

/-- The motor turns in one direction, whichever it is. -/
def Turns (m : ℕ → Sector) : Prop := TurnsForward m ∨ TurnsBackward m

theorem TurnsBackward.mirror (h : TurnsBackward m) : TurnsForward fun t => (m t).mirror := by
  intro t
  rcases h t with hstay | hback
  · exact Or.inl (congrArg Sector.mirror hstay)
  · right
    show (m (t + 1)).mirror = (m t).mirror.next
    rw [hback, Sector.mirror_next]

/-- The mirror neither adds nor hides a step. -/
theorem changesIn_mirror (m : ℕ → Sector) (start len : ℕ) :
    changesIn (fun t => (m t).mirror) start len = changesIn m start len := by
  have hinj : Function.Injective Sector.mirror :=
    Function.LeftInverse.injective Sector.mirror_mirror
  exact count_congr fun k _ => not_congr hinj.eq_iff

/-- The sector after a number of steps. -/
theorem index_forward (h : TurnsForward m) (t : ℕ) :
    (m t).index = ((m 0).index + changes m t) % 6 := by
  induction t with
  | zero =>
    have hlt : (m 0).index < 6 := by cases m 0 <;> decide
    simp [changes, Nat.mod_eq_of_lt hlt]
  | succ t ih =>
    rw [changes, Nat.count_succ, ← changes]
    rcases h t with hstay | hnext
    · have hno : ¬ Change m t := not_not.2 hstay.symm
      rw [if_neg hno, hstay, ih, Nat.add_zero]
    · have hstep : Change m t := by
        rw [Change, hnext]
        exact Sector.next_ne (m t)
      rw [if_pos hstep, hnext, Sector.index_next, ih, Nat.mod_add_mod, Nat.add_assoc]

/-- **One rise in six steps.**  The rises of a sensor are the whole revolutions that the
motor has made, counted from the step at which that sensor rises. -/
theorem rises_forward (h : TurnsForward m) (x : Leg) (t : ℕ) :
    rises (fun k => (m k).hall.line x) t + ((m 0).index + Sector.lead x) / 6 =
      ((m 0).index + Sector.lead x + changes m t) / 6 := by
  induction t with
  | zero => simp [changes]
  | succ t ih =>
    rw [rises_succ, changes, Nat.count_succ, ← changes]
    rcases h t with hstay | hnext
    · have hno : ¬ Change m t := not_not.2 hstay.symm
      have hlow : ¬ Rise (fun k => (m k).hall.line x) t := by
        rw [Rise, hstay]
        simp
      rw [if_neg hno, if_neg hlow, Nat.add_zero, Nat.add_zero]
      exact ih
    · have hstep : Change m t := by
        rw [Change, hnext]
        exact Sector.next_ne (m t)
      have hindex := index_forward h t
      -- the sensor rises on the step that completes a revolution
      have hrise : Rise (fun k => (m k).hall.line x) t ↔
          6 ∣ (m 0).index + Sector.lead x + changes m t + 1 := by
        simp only [Rise, Sector.line_hall, hnext, Sector.index_next, decide_eq_false_iff_not,
          decide_eq_true_eq]
        omega
      rw [if_pos hstep, if_congr hrise rfl rfl, ← Nat.add_assoc, Nat.succ_div]
      omega

/-- The same for a stretch of cycles. -/
theorem TurnsForward.risesIn_bounds (h : TurnsForward m) (x : Leg) (start len : ℕ) :
    6 * risesIn (fun k => (m k).hall.line x) start len ≤ changesIn m start len + 5 ∧
      changesIn m start len ≤ 6 * risesIn (fun k => (m k).hall.line x) start len + 5 := by
  have hstart := rises_forward h x start
  have hend := rises_forward h x (start + len)
  rw [rises_add, changes_add] at hend
  omega

/-- **Six steps to a rise.**  While a motor turns in one direction, six times the rises of
any sensor is the number of its steps, up to five. -/
theorem Turns.risesIn_bounds (h : Turns m) (x : Leg) (start len : ℕ) :
    6 * risesIn (fun k => (m k).hall.line x) start len ≤ changesIn m start len + 5 ∧
      changesIn m start len ≤ 6 * risesIn (fun k => (m k).hall.line x) start len + 5 := by
  rcases h with hforward | hbackward
  · exact hforward.risesIn_bounds x start len
  · have hmirror := hbackward.mirror.risesIn_bounds (Sector.mirrorLine x) start len
    simp only [Sector.line_mirror, changesIn_mirror] at hmirror
    exact hmirror

end Rotation

/-! ## A motor at constant speed -/

/-- `L` cycles in every sector, forward from sector `A`. -/
def rotating (L t : ℕ) : Sector := Sector.next^[t / L] .A

theorem turnsForward_rotating (L : ℕ) : TurnsForward (rotating L) := by
  intro t
  rw [rotating, rotating, Nat.succ_div]
  split_ifs
  · exact Or.inr (Function.iterate_succ_apply' Sector.next (t / L) .A)
  · exact Or.inl rfl

/-- It takes a step at the end of every sector. -/
theorem changes_rotating (L t : ℕ) : changes (rotating L) t = t / L := by
  induction t with
  | zero => simp [changes]
  | succ t ih =>
    have hstep : Change (rotating L) t ↔ L ∣ t + 1 := by
      rw [Change, rotating, rotating, Nat.succ_div]
      split_ifs with h
      · rw [Function.iterate_succ_apply']
        exact iff_of_true (Sector.next_ne _) h
      · exact iff_of_false (not_not.2 rfl) h
    rw [changes, Nat.count_succ, ← changes, ih, Nat.succ_div, if_congr hstep rfl rfl]

theorem phasesAtLeast_rotating (L : ℕ) : PhasesAtLeast L (rotating L) :=
  phasesAtLeast_div L fun k => Sector.next^[k] .A

end BldcFpga
