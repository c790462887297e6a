import BldcFpga.EdgeDetect.EdgeDetection
import BldcFpga.SpeedMeasurement.SpeedMeasurement

/-!
# The speed measurement

`top_speed_mac.v` with `counter.v`, `D_ff.v` and `rpm_lut.v`: behind a divided clock one
counter numbers the ticks of a window, a second counter is clocked by the output of
`speed_measurement` and counts the changes of the hall code, and at the end of the window a
register takes that count.  The second counter is meant to be cleared by `toggle`.

* `TopSpeedMac` — the registers and the levels of the inputs, with `TopSpeedMac.step`;
* `TopSpeedMac.step_quiet` — what a cycle does while `reset` is low: `toggle` stays low, so
  nothing clears the second counter;
* `TopSpeedMac.commutationTot_states` — that counter shows all changes since the start,
  modulo 435;
* `topSpeedMac_window_iff` — so a window is measured correctly exactly when the changes before
  it are a multiple of 435.
-/

namespace BldcFpga

open Clocked

namespace TopSpeedMac

/-! ## The parts -/

/-- The `max_count` of `counter` and of `top_speed_mac`. -/
def maxCount : ℕ := 435

/-- `counter` at a rising edge of its clock. -/
def counter {n : ℕ} (reset resetToZero : Bool) (count : BitVec n) : BitVec n :=
  if reset then 0#n
  else if resetToZero then 0#n
  else if count.toNat = maxCount - 1 then 0#n
  else count + 1#n

/-- `D_ff` at a rising edge of its clock. -/
def dFf {n : ℕ} (reset enable : Bool) (D Q : BitVec n) : BitVec n :=
  if reset then 0#n else if enable then D else Q

/-- The rows of `rpm_lut`, from 0 on. -/
def rpmRows : List ℕ :=
   [0x0, 0xa, 0x14, 0x1e, 0x28, 0x32, 0x3c, 0x46, 0x50, 0x5a, 0x64, 0x6e, 0x78, 0x82, 0x8c, 0x96,
    0xa0, 0xaa, 0xb4, 0xbe, 0xc8, 0xd2, 0xdc, 0xe6, 0xf0, 0xfa, 0x104, 0x10e, 0x118, 0x122, 0x12c,
    0x136, 0x140, 0x14a, 0x154, 0x15e, 0x168, 0x172, 0x17c, 0x186, 0x190, 0x19a, 0x1a4, 0x1ae,
    0x1b8, 0x1c2, 0x1cc, 0x1d6, 0x1e0, 0x1ea, 0x1f4, 0x1fe, 0x208, 0x212, 0x21c, 0x226, 0x230,
    0x23a, 0x244, 0x24e, 0x258, 0x262, 0x26c, 0x276, 0x280, 0x28a, 0x294, 0x29e, 0x2a8, 0x2b2,
    0x2bc, 0x2c6, 0x2d0, 0x2da, 0x2e4, 0x2ee, 0x2f8, 0x302, 0x30c, 0x316, 0x320, 0x32a, 0x334,
    0x33e, 0x348, 0x352, 0x35c, 0x366, 0x370, 0x37a, 0x384, 0x38e, 0x398, 0x3a2, 0x3ac, 0x3b6,
    0x3c0, 0x3ca, 0x3d4, 0x3de, 0x3e8, 0x3f2, 0x3fc, 0x406, 0x410, 0x41a, 0x424, 0x42e, 0x438,
    0x442, 0x44c, 0x456, 0x460, 0x46a, 0x474, 0x47e, 0x488, 0x492, 0x49c, 0x4a6, 0x4b0, 0x4ba,
    0x4c4, 0x4ce, 0x4d8, 0x4e2, 0x4ec, 0x4f6, 0x500, 0x50a, 0x514, 0x51e, 0x528, 0x532, 0x53c,
    0x546, 0x550, 0x55a, 0x564, 0x56e, 0x578, 0x582, 0x58c, 0x596, 0x5a0, 0x5aa, 0x5b4, 0x5be,
    0x5c8, 0x5d2, 0x5dc, 0x5e6, 0x5f0, 0x5fa, 0x604, 0x60e, 0x618, 0x622, 0x62c, 0x636, 0x640,
    0x64a, 0x654, 0x65e, 0x668, 0x672, 0x67c, 0x686, 0x690, 0x69a, 0x6a4, 0x6ae, 0x6b8, 0x6c2,
    0x6cc, 0x6d6, 0x6e0, 0x6ea, 0x6f4, 0x6fe, 0x708, 0x712, 0x71c, 0x726, 0x730, 0x73a, 0x744,
    0x74e, 0x758, 0x762, 0x76c, 0x776, 0x780, 0x78a, 0x794, 0x79e, 0x7a8, 0x7b2, 0x7bc, 0x7c6,
    0x7d0]

/-- `rpm_lut`; the `default` is unknown. -/
def rpmLut (D : BitVec 11) : Option (BitVec 11) := rpmRows[D.toNat]?.map (BitVec.ofNat 11)

/-- Every row is ten times its number. -/
theorem rpmLut_eq {D : BitVec 11} (hD : D.toNat ≤ 200) :
    rpmLut D = some (BitVec.ofNat 11 (10 * D.toNat)) := by
  have hrows : rpmRows = (List.range 201).map (10 * ·) := by decide +kernel
  rw [rpmLut, hrows, List.getElem?_map, List.getElem?_range (by omega)]
  rfl

/-- A net has a rising edge when it leaves 0 or arrives at 1; `none` is `1'bx`. -/
def posedge : Option Bool → Option Bool → Bool
  | some false, some true => true
  | some false, none => true
  | none, some true => true
  | _, _ => false

end TopSpeedMac

/-! ## `top_speed_mac` -/

/-- The registers of `top_speed_mac`, and the levels of its inputs. -/
structure TopSpeedMac where
  clockCnt : BitVec 13
  count : BitVec 11
  tstepQ : Option (BitVec 3)
  commutationTot : BitVec 11
  regCommutation : BitVec 11
  toggle : Bool
  hallEffect : Hall
  reset : Bool
  deriving DecidableEq, Repr

namespace TopSpeedMac

/-- The enable of the output register, which `toggle` follows. -/
def enable (s : TopSpeedMac) : Bool := decide (s.count.toNat = maxCount - 1)

/-- The wire `clock_1`: the output of `speed_measurement`. -/
def clock1 (s : TopSpeedMac) : Option Bool :=
  SpeedMeasurement.macOut s.tstepQ s.hallEffect.code

/-- The counter `U3` takes an edge if `clock_1` has risen from the given value. -/
def settle (before : Option Bool) (s : TopSpeedMac) : TopSpeedMac :=
  if posedge before s.clock1 then
    { s with commutationTot := counter s.reset s.toggle s.commutationTot }
  else s

/-- A rising edge of `clock_2`.  `toggle` is the one register that is cleared while `reset`
is low. -/
def tick (s : TopSpeedMac) : TopSpeedMac :=
  { s with
    count := counter s.reset false s.count
    tstepQ := SpeedMeasurement.step ⟨s.reset, s.hallEffect⟩ s.tstepQ
    regCommutation := dFf s.reset s.enable s.commutationTot s.regCommutation
    toggle := if !s.reset then false else if s.enable then true else false }

/-- `reset` takes a level: a high one holds the divider at zero, a falling one clears
`toggle`. -/
def setReset (reset : Bool) (s : TopSpeedMac) : TopSpeedMac :=
  { s with
    reset := reset
    clockCnt := ClkDiv.settle reset s.clockCnt
    toggle := if s.reset = true ∧ reset = false then false else s.toggle }

/-- A rising edge of `clock_sys`. -/
def clkEdge (s : TopSpeedMac) : TopSpeedMac :=
  let clockCnt := ClkDiv.step s.reset s.clockCnt
  let s' := { s with clockCnt := clockCnt }
  if ClkDiv.clockDiv s.clockCnt = false ∧ ClkDiv.clockDiv clockCnt = true then
    settle s.clock1 (tick s')
  else s'

/-- `hall_effect` takes a level. -/
def setHall (hallEffect : Hall) (s : TopSpeedMac) : TopSpeedMac :=
  settle s.clock1 { s with hallEffect := hallEffect }

/-- The inputs of `top_speed_mac` in a cycle of `clock_sys`. -/
structure Input where
  reset : Bool
  hallEffect : Hall
  deriving DecidableEq, Repr

/-- One cycle: `reset` takes its level, `clock_sys` rises, and `hall_effect` takes its level
before the next edge. -/
def step (i : Input) (s : TopSpeedMac) : TopSpeedMac :=
  setHall i.hallEffect (clkEdge (setReset i.reset s))

/-- The output `speed`. -/
def speed (s : TopSpeedMac) : Option (BitVec 11) := rpmLut s.regCommutation

/-! ## One cycle with `reset` low -/

/-- `reset` and `toggle` are low, and neither the state register nor the input holds an
invalid code. -/
structure Quiet (s : TopSpeedMac) : Prop where
  reset : s.reset = false
  toggle : s.toggle = false
  tstepQ : SpeedMeasurement.IsState s.tstepQ
  hallEffect : (Sector.ofHall s.hallEffect).isSome = true

/-- The next edge of `clock_sys` raises `clock_2`. -/
def Ticks (s : TopSpeedMac) : Prop :=
  ClkDiv.clockDiv s.clockCnt = false ∧ ClkDiv.clockDiv (ClkDiv.step false s.clockCnt) = true

instance : DecidablePred Ticks := fun _ => inferInstanceAs (Decidable (_ ∧ _))

theorem posedge_self (b : Option Bool) : posedge b b = false := by
  cases b with
  | none => rfl
  | some b => cases b <;> rfl

/-- A net that has become low has not risen. -/
theorem posedge_low (b : Option Bool) : posedge b (some false) = false := by
  cases b with
  | none => rfl
  | some b => cases b <;> rfl

theorem settle_low {b : Option Bool} {s : TopSpeedMac} (h : posedge b s.clock1 = false) :
    settle b s = s := by
  simp [settle, h]

/-- **An edge of `clock_sys`.**  On a tick the registers behind `clock_2` move and `clock_1`
becomes low; otherwise the divider counts. -/
theorem clkEdge_quiet {s : TopSpeedMac} (hs : Quiet s) :
    clkEdge s =
      if Ticks s then
        { s with
          clockCnt := ClkDiv.step false s.clockCnt
          count := counter false false s.count
          tstepQ := some s.hallEffect.code
          regCommutation := if s.enable then s.commutationTot else s.regCommutation }
      else { s with clockCnt := ClkDiv.step false s.clockCnt } := by
  obtain ⟨hr, ht, hq, hh⟩ := hs
  have htick : ∀ c, tick { s with clockCnt := c } =
      { s with
        clockCnt := c
        count := counter false false s.count
        tstepQ := some s.hallEffect.code
        regCommutation := if s.enable then s.commutationTot else s.regCommutation } := by
    intro c
    obtain ⟨m, hm⟩ := SpeedMeasurement.exists_hall hq
    simp [tick, hr, ht, hm, SpeedMeasurement.step, SpeedMeasurement.nextState_hall, dFf, enable]
  have hdiv : ClkDiv.step s.reset s.clockCnt = ClkDiv.step false s.clockCnt := by rw [hr]
  simp only [clkEdge, hdiv, htick]
  refine if_congr Iff.rfl (settle_low ?_) rfl
  simp only [clock1, SpeedMeasurement.macOut_self hh]
  exact posedge_low _

/-- **A cycle** with `reset` low.  `toggle` stays low, so `U3` is never cleared. -/
theorem step_quiet {s : TopSpeedMac} (hs : Quiet s) (h : Hall) :
    step ⟨false, h⟩ s =
      let tstepQ := if Ticks s then some s.hallEffect.code else s.tstepQ
      { clockCnt := ClkDiv.step false s.clockCnt
        count := if Ticks s then counter false false s.count else s.count
        tstepQ := tstepQ
        commutationTot :=
          if posedge (SpeedMeasurement.macOut tstepQ s.hallEffect.code)
              (SpeedMeasurement.macOut tstepQ h.code) then
            counter false false s.commutationTot
          else s.commutationTot
        regCommutation :=
          if Ticks s ∧ s.enable then s.commutationTot else s.regCommutation
        toggle := false
        hallEffect := h
        reset := false } := by
  have hset : setReset false s = s := by
    obtain ⟨hr, -, -, -⟩ := hs
    obtain ⟨clockCnt, count, tstepQ, commutationTot, regCommutation, toggle, hall, reset⟩ := s
    subst hr
    rfl
  rw [step, hset, clkEdge_quiet hs]
  obtain ⟨hr, ht, hq, hh⟩ := hs
  by_cases htick : Ticks s
  · simp only [htick, if_true, setHall, settle, clock1, hr, ht, true_and]
    split_ifs <;> rfl
  · simp only [htick, if_false, setHall, settle, clock1, hr, ht, false_and]
    split_ifs <;> rfl

theorem quiet_step {s : TopSpeedMac} (hs : Quiet s) {h : Hall}
    (hh : (Sector.ofHall h).isSome = true) : Quiet (step ⟨false, h⟩ s) := by
  rw [step_quiet hs h]
  refine ⟨rfl, rfl, ?_, hh⟩
  show SpeedMeasurement.IsState (if Ticks s then some s.hallEffect.code else s.tstepQ)
  split_ifs
  · exact (SpeedMeasurement.isState_code s.hallEffect).2 hs.hallEffect
  · exact hs.tstepQ

/-! ## Runs with `reset` low -/

section Run

variable (s : TopSpeedMac) (hall : ℕ → Hall)

/-- The registers after `t` cycles with `reset` low. -/
def states (t : ℕ) : TopSpeedMac := run step s (fun k => ⟨false, hall k⟩) t

/-- The level of `hall_effect` at the successive edges of `clock_sys`. -/
def line : ℕ → Hall
  | 0 => s.hallEffect
  | t + 1 => hall t

/-- The edge of `clock_sys` that ends window `q`: its tick is the last one of 435. -/
noncomputable def loadEdge (q : ℕ) : ℕ := Nat.nth (ClkDiv.TickAt s.clockCnt) (435 * q + 434)

/-- The first cycle of window `q`: the start, or the load before. -/
noncomputable def windowStart : ℕ → ℕ
  | 0 => 0
  | q + 1 => loadEdge s q

/-- The number of changes of the hall code in window `q`. -/
noncomputable def windowChanges (q : ℕ) : ℕ :=
  changesIn (line s hall) (windowStart s q) (loadEdge s q - windowStart s q)

theorem tickAt_loadEdge (q : ℕ) : ClkDiv.TickAt s.clockCnt (loadEdge s q) :=
  Nat.nth_mem_of_infinite (ClkDiv.infinite_ticks (by decide) s.clockCnt) _

theorem ticks_loadEdge (q : ℕ) : ClkDiv.ticks s.clockCnt (loadEdge s q) = 435 * q + 434 :=
  Nat.count_nth_of_infinite (ClkDiv.infinite_ticks (by decide) s.clockCnt) _

theorem windowStart_le (q : ℕ) : windowStart s q ≤ loadEdge s q := by
  cases q with
  | zero => exact Nat.zero_le _
  | succ q =>
    apply Nat.nth_monotone (ClkDiv.infinite_ticks (by decide) s.clockCnt)
    omega

/-- The changes up to the end of a window are those before it and its own. -/
theorem changes_loadEdge (q : ℕ) :
    changes (line s hall) (loadEdge s q) =
      changes (line s hall) (windowStart s q) + windowChanges s hall q := by
  rw [windowChanges, ← changes_add, Nat.add_sub_cancel' (windowStart_le s q)]

/-- A quiet start: the counters and the output register are zero and the state register
holds the hall code `A`. -/
structure Start : Prop where
  reset : s.reset = false
  count : s.count = 0#11
  commutationTot : s.commutationTot = 0#11
  regCommutation : s.regCommutation = 0#11
  toggle : s.toggle = false
  tstepQ : s.tstepQ = some SpeedMeasurement.A
  hallEffect : s.hallEffect = Sector.A.hall

/-- All codes are valid, and `clock_2` ticks between any two changes. -/
structure Clean : Prop where
  valid : ∀ t, (Sector.ofHall (hall t)).isSome = true
  spaced : TickBetween (ClkDiv.TickAt s.clockCnt) (line s hall)

variable {s hall}

theorem Start.quiet (hs : Start s) : Quiet s where
  reset := hs.reset
  toggle := hs.toggle
  tstepQ := Or.inl hs.tstepQ
  hallEffect := by
    rw [hs.hallEffect]
    rfl

variable (hs : Start s) (hc : Clean s hall)

include hs hc

theorem quiet_states (t : ℕ) : Quiet (states s hall t) :=
  run_invariant (fun _ => Quiet) hs.quiet (fun k _ hx => quiet_step hx (hc.valid k)) t

theorem states_succ (t : ℕ) :
    states s hall (t + 1) =
      let x := states s hall t
      let tstepQ := if Ticks x then some x.hallEffect.code else x.tstepQ
      { clockCnt := ClkDiv.step false x.clockCnt
        count := if Ticks x then counter false false x.count else x.count
        tstepQ := tstepQ
        commutationTot :=
          if posedge (SpeedMeasurement.macOut tstepQ x.hallEffect.code)
              (SpeedMeasurement.macOut tstepQ (hall t).code) then
            counter false false x.commutationTot
          else x.commutationTot
        regCommutation :=
          if Ticks x ∧ x.enable then x.commutationTot else x.regCommutation
        toggle := false
        hallEffect := hall t
        reset := false } :=
  step_quiet (quiet_states hs hc t) (hall t)

theorem hallEffect_states (t : ℕ) : (states s hall t).hallEffect = line s hall t := by
  cases t with
  | zero => rfl
  | succ t =>
    rw [states_succ hs hc]
    rfl

theorem clockCnt_states (t : ℕ) :
    (states s hall t).clockCnt = run ClkDiv.step s.clockCnt (fun _ => false) t := by
  have hstep : ∀ i, (states s hall (i + 1)).clockCnt =
      ClkDiv.step false (states s hall i).clockCnt := by
    intro i
    rw [states_succ hs hc]
  exact (ClkDiv.run_step (fun i => (states s hall i).clockCnt) hstep t).symm

theorem ticks_states (t : ℕ) : Ticks (states s hall t) ↔ ClkDiv.TickAt s.clockCnt t := by
  rw [Ticks, clockCnt_states hs hc]
  rfl

/-- The state register takes the level of the line at the ticks. -/
theorem tstepQ_succ (t : ℕ) :
    (states s hall (t + 1)).tstepQ =
      if ClkDiv.TickAt s.clockCnt t then some (line s hall t).code
      else (states s hall t).tstepQ := by
  rw [states_succ hs hc, ← hallEffect_states hs hc]
  exact if_congr (ticks_states hs hc t) rfl rfl

/-- **The window counter** numbers the ticks. -/
theorem count_states (t : ℕ) :
    (states s hall t).count.toNat = ClkDiv.ticks s.clockCnt t % 435 := by
  refine terminal_count (by norm_num) (x := fun i => (states s hall i).count) hs.count
    (fun i => ?_) t
  rw [states_succ hs hc]
  exact if_congr (ticks_states hs hc i) rfl rfl

/-- At a change the state register holds the level that is left. -/
theorem tstepQ_of_change {t : ℕ} (hchange : Change (line s hall) t) :
    (states s hall (t + 1)).tstepQ = some (line s hall t).code := by
  have hcode : ∀ i, Change (fun k => some (line s hall k).code) i ↔ Change (line s hall) i := by
    intro i
    simp only [Change, ne_eq, Option.some.injEq, SpeedMeasurement.code_injective.eq_iff]
  have hstart : (states s hall 0).tstepQ = some (line s hall 0).code := by
    show s.tstepQ = some s.hallEffect.code
    rw [hs.tstepQ, hs.hallEffect]
    rfl
  refine sampled_of_change (q := fun i => (states s hall i).tstepQ) hstart (tstepQ_succ hs hc)
    (fun i j hij hi hj => ?_) ((hcode t).2 hchange)
  exact hc.spaced i j hij ((hcode i).1 hi) ((hcode j).1 hj)

/-- `clock_1` rises exactly at the changes of the hall code. -/
theorem posedge_clock1 (t : ℕ) :
    posedge (SpeedMeasurement.macOut (states s hall (t + 1)).tstepQ (line s hall t).code)
        (SpeedMeasurement.macOut (states s hall (t + 1)).tstepQ (hall t).code) = true ↔
      Change (line s hall) t := by
  by_cases hchange : Change (line s hall) t
  · have hvalid : (Sector.ofHall (line s hall t)).isSome = true := by
      rw [← hallEffect_states hs hc]
      exact (quiet_states hs hc t).hallEffect
    obtain ⟨m, hm⟩ := Option.isSome_iff_exists.1 hvalid
    have hline : line s hall t = m.hall := Sector.hall_of_ofHall hm
    have hne : hall t ≠ m.hall := fun h => hchange (hline.trans h.symm)
    rw [tstepQ_of_change hs hc hchange, SpeedMeasurement.macOut_self hvalid, hline,
      SpeedMeasurement.macOut_hall]
    simp [hne, hchange, posedge]
  · have hsame : line s hall t = hall t := not_not.1 hchange
    rw [hsame, posedge_self]
    simp [hchange]

/-- **The second counter** is never cleared: it shows all changes since the start. -/
theorem commutationTot_states (t : ℕ) :
    (states s hall t).commutationTot.toNat = changes (line s hall) t % 435 := by
  refine terminal_count (by norm_num) (x := fun i => (states s hall i).commutationTot)
    hs.commutationTot (fun i => ?_) t
  rw [← if_congr (posedge_clock1 hs hc i) rfl rfl, ← hallEffect_states hs hc, states_succ hs hc]
  rfl

/-! ### Windows -/

/-- The enable is high at the ticks that end a window, and at no others. -/
theorem enable_iff {t : ℕ} (ht : ClkDiv.TickAt s.clockCnt t) :
    (states s hall t).enable = true ↔ ∃ q, t = loadEdge s q := by
  have hcount : (states s hall t).enable = true ↔ ClkDiv.ticks s.clockCnt t % 435 = 434 := by
    rw [enable, count_states hs hc]
    exact decide_eq_true_iff
  rw [hcount]
  constructor
  · intro hmod
    refine ⟨ClkDiv.ticks s.clockCnt t / 435, ?_⟩
    rw [loadEdge, ← hmod, Nat.div_add_mod]
    exact (Nat.nth_count ht).symm
  · rintro ⟨q, rfl⟩
    rw [ticks_loadEdge]
    omega

/-- What a window ends with is the number of all changes so far. -/
theorem regCommutation_loadEdge (q : ℕ) :
    (states s hall (loadEdge s q + 1)).regCommutation.toNat =
      (changes (line s hall) (windowStart s q) + windowChanges s hall q) % 435 := by
  have htick := tickAt_loadEdge s q
  have hload : (states s hall (loadEdge s q + 1)).regCommutation =
      (states s hall (loadEdge s q)).commutationTot := by
    rw [states_succ hs hc]
    exact if_pos ⟨(ticks_states hs hc _).2 htick, (enable_iff hs hc htick).2 ⟨q, rfl⟩⟩
  rw [hload, commutationTot_states hs hc, changes_loadEdge]

/-- The output of a window that is measured correctly. -/
theorem speed_loadEdge {q : ℕ} (hle : windowChanges s hall q ≤ 200)
    (hdvd : 435 ∣ changes (line s hall) (windowStart s q)) :
    (states s hall (loadEdge s q + 1)).speed =
      some (BitVec.ofNat 11 (10 * windowChanges s hall q)) := by
  have hreg : (states s hall (loadEdge s q + 1)).regCommutation.toNat =
      windowChanges s hall q := by
    rw [regCommutation_loadEdge hs hc]
    omega
  rw [speed, rpmLut_eq (by omega), hreg]

end Run

end TopSpeedMac

open TopSpeedMac in
/-- **When a window is measured alone.**  From a quiet start with the hall code `A`, for every
contents of the divider and every sequence of valid hall codes with a tick of `clock_2`
between any two changes: the value loaded at the end of a window with at most 200 changes is
the number of these changes if and only if the changes before the window are a multiple
of 435. -/
theorem topSpeedMac_window_iff (s : TopSpeedMac) (hs : Start s) (hall : ℕ → Hall)
    (hc : Clean s hall) (q : ℕ) (hle : windowChanges s hall q ≤ 200) :
    (states s hall (loadEdge s q + 1)).regCommutation.toNat = windowChanges s hall q ↔
      435 ∣ changes (line s hall) (windowStart s q) := by
  rw [regCommutation_loadEdge hs hc]
  omega

namespace TopSpeedMac

/-- A quiet start, with the divider at zero. -/
def quietStart : TopSpeedMac where
  clockCnt := 0#13
  count := 0#11
  tstepQ := some SpeedMeasurement.A
  commutationTot := 0#11
  regCommutation := 0#11
  toggle := false
  hallEffect := Sector.A.hall
  reset := false

theorem start_quietStart : Start quietStart := ⟨rfl, rfl, rfl, rfl, rfl, rfl, rfl⟩

/-- The only change comes first: from `A` to `B`. -/
theorem change_once (t : ℕ) :
    Change (line quietStart fun _ => Sector.B.hall) t ↔ t = 0 := by
  cases t with
  | zero => decide
  | succ t => simp [Change, line]

theorem clean_once : Clean quietStart fun _ => Sector.B.hall where
  valid := fun _ => rfl
  spaced := by
    intro i j hij _ hj
    rw [change_once] at hj
    omega

theorem changes_once (q : ℕ) :
    changes (line quietStart fun _ => Sector.B.hall) (loadEdge quietStart q) = 1 := by
  have hpos : 0 < loadEdge quietStart q := by
    rw [Nat.pos_iff_ne_zero]
    intro hzero
    have hticks := ticks_loadEdge quietStart q
    rw [hzero, ClkDiv.ticks, Nat.count_zero] at hticks
    omega
  rw [changes, count_congr fun i _ => change_once i, count_single, if_pos hpos]

end TopSpeedMac

open TopSpeedMac in
/-- The first window counts the change. -/
theorem topSpeedMac_first_window :
    (states quietStart (fun _ => Sector.B.hall)
      (loadEdge quietStart 0 + 1)).regCommutation.toNat = 1 := by
  have hwindow : windowChanges quietStart (fun _ => Sector.B.hall) 0 = 1 := by
    have h := changes_loadEdge quietStart (fun _ => Sector.B.hall) 0
    rw [changes_once] at h
    simpa [windowStart, changes] using h.symm
  have hle : windowChanges quietStart (fun _ => Sector.B.hall) 0 ≤ 200 := by
    rw [hwindow]
    norm_num
  have hiff := topSpeedMac_window_iff quietStart start_quietStart (fun _ => Sector.B.hall)
    clean_once 0 hle
  rw [hwindow] at hiff
  exact hiff.2 ⟨0, rfl⟩

open TopSpeedMac in
/-- The second window holds no change at all, and is measured as 1. -/
theorem topSpeedMac_second_window :
    Start quietStart ∧ Clean quietStart (fun _ => Sector.B.hall) ∧
      (∀ t, Change (line quietStart fun _ => Sector.B.hall) t ↔ t = 0) ∧
      windowChanges quietStart (fun _ => Sector.B.hall) 1 = 0 ∧
      (states quietStart (fun _ => Sector.B.hall)
        (loadEdge quietStart 1 + 1)).regCommutation.toNat = 1 := by
  have hwindow : windowChanges quietStart (fun _ => Sector.B.hall) 1 = 0 := by
    have h := changes_loadEdge quietStart (fun _ => Sector.B.hall) 1
    rw [changes_once, windowStart, changes_once] at h
    omega
  refine ⟨start_quietStart, clean_once, change_once, hwindow, ?_⟩
  rw [regCommutation_loadEdge start_quietStart clean_once, hwindow, windowStart, changes_once]

end BldcFpga
