import BldcFpga.PatternGenerator.Commutation

/-!
# Six-step commutation: the circuits agree, and where they leave no dead time

* `fwRvCommutation_mostRecent` — after a reset `fw_rv_commutation` holds the sector
  of the most recent valid hall code along every history, with invalid codes and
  further resets at any point; its outputs are those of `pattern_generator` and of
  `commutation`, exchanged by `forward`, with one high and one low output on;
* `fwRvCommutation_deadTime_iff` — walking from sector to sector the outputs leave
  a cycle with both switches of a leg off, and a change of `forward` never does: the
  run has dead time exactly when the direction is held.
-/

namespace BldcFpga

open Clocked

/-! ## The most recent valid code -/

/-- Apart from `forward` a run of `fw_rv_commutation` is one of `commutation`. -/
theorem FwRvCommutation.run_eq (s : StateRegs) (inp : ℕ → FwRvCommutation.Input) (t : ℕ) :
    run FwRvCommutation.step s inp t =
      run Commutation.step s (fun k => ⟨(inp k).reset, (inp k).hall⟩) t :=
  run_map id (fun i : FwRvCommutation.Input => (⟨i.reset, i.hall⟩ : Commutation.Input))
    FwRvCommutation.step_eq s inp t

/-- **The circuits agree along every history that begins with a reset.**  In every
cycle after it there is a sector, that of the most recent valid hall code since the
last reset, whose code `state_Q` holds; backwards the outputs are those of
`pattern_generator` on that code and of `commutation` fed the same inputs, forwards
they are these with high and low exchanged, and whatever `forward` is, one high and
one low output are on, on different legs. -/
theorem fwRvCommutation_mostRecent (inp : ℕ → FwRvCommutation.Input) (h0 : (inp 0).reset = true)
    (s s' : StateRegs) (t : ℕ) (ht : 1 ≤ t) :
    ∃ m, MostRecent (fun k => (inp k).reset) (fun k => (inp k).hall) t m ∧
      (run FwRvCommutation.step s inp t).stateQ = Commutation.code m ∧
      FwRvCommutation.out false (run FwRvCommutation.step s inp t) = patternGenerator m.hall ∧
      FwRvCommutation.out false (run FwRvCommutation.step s inp t) =
        Commutation.out
          (run Commutation.step s' (fun k => ⟨(inp k).reset, (inp k).hall⟩) t) ∧
      FwRvCommutation.out true (run FwRvCommutation.step s inp t) =
        (FwRvCommutation.out false (run FwRvCommutation.step s inp t)).swap ∧
      ∀ forward, (FwRvCommutation.out forward (run FwRvCommutation.step s inp t)).OneEach := by
  set m := sectorAt (fun k => (inp k).reset) (fun k => (inp k).hall) .A t
  have hq : (run FwRvCommutation.step s inp t).stateQ = Commutation.code m := by
    rw [FwRvCommutation.run_eq]
    exact @Commutation.stateQ_run (fun k => ⟨(inp k).reset, (inp k).hall⟩) h0 s .A t ht
  have hq' : (run Commutation.step s' (fun k => ⟨(inp k).reset, (inp k).hall⟩) t).stateQ =
      Commutation.code m :=
    @Commutation.stateQ_run (fun k => ⟨(inp k).reset, (inp k).hall⟩) h0 s' .A t ht
  refine ⟨m, track_mostRecent h0 .A ht, hq, ?_, ?_, ?_, fun forward => ?_⟩
  · rw [FwRvCommutation.out_code false hq, patternGenerator_hall]
  · rw [FwRvCommutation.out_code false hq, Commutation.out_code hq']
  · rw [FwRvCommutation.out_code true hq, FwRvCommutation.out_code false hq, Sector.drive_true]
  · rw [FwRvCommutation.out_code forward hq]
    exact Sector.drive_oneEach forward m

/-- A reset, the code of sector `D` and then the invalid code `111`. -/
theorem fwRvCommutation_mostRecent_glitch :
    let inp : ℕ → FwRvCommutation.Input := fun k =>
      if k = 0 then ⟨true, false, ⟨false, false, false⟩⟩
      else if k = 1 then ⟨false, true, ⟨false, true, false⟩⟩
      else ⟨false, false, ⟨true, true, true⟩⟩
    ∃ m, MostRecent (fun k => (inp k).reset) (fun k => (inp k).hall) 3 m ∧
      (run FwRvCommutation.step ⟨7#3, 6#3⟩ inp 3).stateQ = Commutation.code m ∧
      FwRvCommutation.out false (run FwRvCommutation.step ⟨7#3, 6#3⟩ inp 3) =
        patternGenerator m.hall ∧
      FwRvCommutation.out false (run FwRvCommutation.step ⟨7#3, 6#3⟩ inp 3) =
        Commutation.out
          (run Commutation.step ⟨0#3, 7#3⟩ (fun k => ⟨(inp k).reset, (inp k).hall⟩) 3) ∧
      FwRvCommutation.out true (run FwRvCommutation.step ⟨7#3, 6#3⟩ inp 3) =
        (FwRvCommutation.out false (run FwRvCommutation.step ⟨7#3, 6#3⟩ inp 3)).swap ∧
      ∀ forward,
        (FwRvCommutation.out forward (run FwRvCommutation.step ⟨7#3, 6#3⟩ inp 3)).OneEach :=
  fwRvCommutation_mostRecent _ rfl ⟨7#3, 6#3⟩ ⟨0#3, 7#3⟩ 3 (by decide)

/-! ## Dead time -/

/-- A walk over valid codes: each one equals the one before or differs from it in
exactly one wire. -/
structure ValidWalk (code : ℕ → Hall) : Prop where
  valid : ∀ t, ∃ m, Sector.ofHall (code t) = some m
  step : ∀ t, code (t + 1) = code t ∨ (code t).OneBit (code (t + 1))

/-- The sectors of a valid walk, one after the other or in place. -/
theorem ValidWalk.sectors {code : ℕ → Hall} (h : ValidWalk code) :
    ∃ m : ℕ → Sector, (∀ t, Sector.ofHall (code t) = some (m t)) ∧
      ∀ t, m (t + 1) = m t ∨ m (t + 1) = (m t).next ∨ m t = (m (t + 1)).next := by
  choose m hm using h.valid
  refine ⟨m, hm, fun t => ?_⟩
  rcases h.step t with heq | hbit
  · have hsome := hm (t + 1)
    rw [heq, hm t] at hsome
    exact Or.inl (Option.some.inj hsome).symm
  · rw [Sector.hall_of_ofHall (hm t), Sector.hall_of_ofHall (hm (t + 1))] at hbit
    exact Or.inr ((Sector.oneBit_hall _ _).1 hbit)

/-- The outputs of `fw_rv_commutation` cycle by cycle: edge `t` samples the code
`code (t + 1)` with `reset` low, and `forward` is a level per cycle. -/
def FwRvCommutation.outputs (s : StateRegs) (code : ℕ → Hall) (forward : ℕ → Bool) (t : ℕ) :
    Drive :=
  FwRvCommutation.out (forward t)
    (run FwRvCommutation.step s (fun k => ⟨false, forward k, code (k + 1)⟩) t)

/-- Along a valid walk the outputs are those of the sector walked to. -/
theorem FwRvCommutation.outputs_eq {s : StateRegs} {code : ℕ → Hall} {m : ℕ → Sector}
    (hm : ∀ t, Sector.ofHall (code t) = some (m t)) (hs : s.stateQ = Commutation.code (m 0))
    (forward : ℕ → Bool) (t : ℕ) :
    FwRvCommutation.outputs s code forward t = (m t).drive (forward t) := by
  refine FwRvCommutation.out_code (forward t) ?_
  induction t with
  | zero => exact hs
  | succ t ih =>
    rw [run_succ, FwRvCommutation.stateQ_step _ ih]
    simp [track, hm (t + 1)]

/-- **Dead time holds exactly when the direction is held.**  For every run with
`reset` low that starts in the sector of the present hall code and samples a valid
walk, whatever `forward` does: no leg is switched over directly, and there is a
cycle with both outputs off in between, if and only if `forward` never changes from
one cycle to the next. -/
theorem fwRvCommutation_deadTime_iff (s : StateRegs) (code : ℕ → Hall) (hwalk : ValidWalk code)
    (hs : ∃ m, Sector.ofHall (code 0) = some m ∧ s.stateQ = Commutation.code m)
    (forward : ℕ → Bool) :
    HasDeadTime (FwRvCommutation.outputs s code forward) ↔
      ∀ t, forward (t + 1) = forward t := by
  obtain ⟨m, hm, hnear⟩ := hwalk.sectors
  obtain ⟨m₀, hm₀, hs⟩ := hs
  have hm₀' : m₀ = m 0 := Option.some.inj (hm₀.symm.trans (hm 0))
  subst hm₀'
  have hout := FwRvCommutation.outputs_eq hm hs forward
  rw [hasDeadTime_iff]
  refine forall_congr' fun t => ?_
  rw [hout t, hout (t + 1)]
  constructor
  · intro hno
    by_contra hne
    refine hno ?_
    rw [show forward (t + 1) = !forward t by
      cases h : forward t <;> cases h' : forward (t + 1) <;> simp_all]
    exact Sector.directSwitch_of_reverse _ _ _ (hnear t)
  · intro heq
    rw [heq]
    exact Sector.no_directSwitch _ _ _ (hnear t)

/-- One sector per clock, forwards. -/
theorem fwRvCommutation_deadTime_iff_rotating :
    HasDeadTime (FwRvCommutation.outputs ⟨0#3, 0#3⟩ (fun t => (Sector.next^[t] .A).hall)
      fun _ => true) :=
  (fwRvCommutation_deadTime_iff ⟨0#3, 0#3⟩ (fun t => (Sector.next^[t] .A).hall)
    ⟨fun _ => ⟨_, Sector.ofHall_hall _⟩, fun t => Or.inr ((Sector.oneBit_hall _ _).2
      (Or.inl (Function.iterate_succ_apply' Sector.next t .A)))⟩
    ⟨.A, rfl, rfl⟩ fun _ => true).2 fun _ => rfl

/-- The motor at rest in sector `A`, the direction switch thrown in cycle 1: leg `a`
has its high output on in cycle 0 and its low output on in cycle 1. -/
theorem fwRvCommutation_switches_over :
    ValidWalk (fun _ => Sector.A.hall) ∧
      (⟨0#3, 0#3⟩ : StateRegs).stateQ = Commutation.code .A ∧
      (FwRvCommutation.outputs ⟨0#3, 0#3⟩ (fun _ => Sector.A.hall)
        (fun t => decide (1 ≤ t)) 0).high .a = true ∧
      (FwRvCommutation.outputs ⟨0#3, 0#3⟩ (fun _ => Sector.A.hall)
        (fun t => decide (1 ≤ t)) 1).low .a = true ∧
      ¬ HasDeadTime (FwRvCommutation.outputs ⟨0#3, 0#3⟩ (fun _ => Sector.A.hall)
        fun t => decide (1 ≤ t)) := by
  refine ⟨⟨fun _ => ⟨.A, rfl⟩, fun _ => Or.inl rfl⟩, rfl, rfl, rfl, fun h => ?_⟩
  exact h.1 0 ⟨.a, Or.inl ⟨rfl, rfl⟩⟩

end BldcFpga
