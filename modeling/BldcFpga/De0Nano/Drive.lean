import BldcFpga.Adc.Recovery
import BldcFpga.De0Nano.Board

/-!
# The drive of the board

What the two keys and the converter have to say about the gates, for every order of the
edges of `CLOCK_50` and of the converter interface.

* `de0Nano_stop` — after the stop key and one more edge of `CLOCK_50` no high gate is on
  until the start key is pressed;
* `de0Nano_needs_frame` — what drives the motor is a word of the converter, or, before the
  first one is complete, a single bit;
* `de0Nano_onTime` — in 256 edges of `CLOCK_50` some high gate is on for as many of them as
  the word says, if it stands still, and for a number between its extremes otherwise.
-/

namespace BldcFpga

open Clocked

/-! ## The interface while it is stopped -/

namespace AdcCtrl

variable {s : AdcCtrl}

/-- While `go_en` is low nothing is shown. -/
def Quiet (s : AdcCtrl) : Prop := s.goEn = false → s.led = 0#8

theorem quiet_setGoEn (h : s.Quiet) (v : Bool) : (setGoEn v s).Quiet := by
  intro hgo
  rw [setGoEn_goEn] at hgo
  subst hgo
  unfold setGoEn
  split_ifs with hfall
  · rfl
  · exact h (by simpa using hfall)

/-- Every edge keeps it so. -/
theorem quiet_step (h : s.Quiet) (i : AdcInput) : (step i s).Quiet := by
  unfold step
  cases i.edge with
  | clock c =>
    cases c with
    | iCLK =>
      intro hgo
      rw [clkEdge_goEn] at hgo
      unfold clkEdge
      rw [hgo]
      rfl
    | iCLKn => exact h
  | iRSTFall => exact quiet_setGoEn (s := { s with iRST := false }) h false
  | iRSTRise => exact h
  | iGO => exact quiet_setGoEn h s.iRST

/-- The edge of `iGO` that starts an exchange. -/
def Starts (e : AdcEdge) (s : AdcCtrl) : Prop := e = .iGO ∧ s.iRST = true

/-- No other edge does. -/
theorem goEn_step (hgo : s.goEn = false) {i : AdcInput} (hno : ¬ Starts i.edge s) :
    (step i s).goEn = false := by
  unfold step
  cases hi : i.edge with
  | clock c =>
    cases c with
    | iCLK => rw [clkEdge_goEn, hgo]
    | iCLKn => rw [clkNEdge_goEn, hgo]
  | iRSTFall => exact setGoEn_goEn _ _
  | iRSTRise => exact hgo
  | iGO =>
    rw [setGoEn_goEn]
    exact Bool.eq_false_iff.2 fun hrst => hno ⟨hi, hrst⟩

/-- A fall of `iRST` stops it. -/
theorem goEn_iRSTFall {i : AdcInput} (hi : i.edge = .iRSTFall) : (step i s).goEn = false := by
  unfold step
  rw [hi]
  exact setGoEn_goEn _ _

end AdcCtrl

namespace De0Nano

variable {s : De0Nano} {ev : ℕ → Event}

/-- Event `t` starts the interface. -/
def Starts (s : De0Nano) (ev : ℕ → Event) (t : ℕ) : Prop :=
  ∃ edge d, ev t = .adc edge d ∧ AdcCtrl.Starts edge (states s ev t).U2

theorem quiet_states (hs : s.U2.Quiet) (t : ℕ) : (states s ev t).U2.Quiet := by
  induction t with
  | zero => exact hs
  | succ t ih =>
    rw [states_succ]
    cases hev : ev t with
    | clock50 => exact ih
    | pins p => exact ih
    | adc edge d => exact AdcCtrl.quiet_step ih _

/-- Between a fall of `iRST` and the next start `go_en` is low. -/
theorem goEn_stopped {i : ℕ} {d : Bool} (hfall : ev i = .adc .iRSTFall d) {t : ℕ} (hit : i < t)
    (hno : ∀ u, i < u → u < t → ¬ Starts s ev u) : (states s ev t).U2.goEn = false := by
  induction t, hit using Nat.le_induction with
  | base =>
    rw [states_succ, hfall]
    exact AdcCtrl.goEn_iRSTFall rfl
  | succ t hit ih =>
    have hlow := ih fun u hu hut => hno u hu (by omega)
    rw [states_succ]
    cases hev : ev t with
    | clock50 => exact hlow
    | pins p => exact hlow
    | adc edge d' =>
      exact AdcCtrl.goEn_step hlow fun h => hno t hit (Nat.lt_succ_self t) ⟨edge, d', hev, h⟩

/-! ## High gates -/

/-- What an edge of `CLOCK_50` leaves in the generators stands until the next one. -/
theorem pwmOut_after {T t : ℕ} (hclk : ev T = .clock50) (hTt : T < t)
    (hno : ∀ u, T < u → u < t → ev u ≠ .clock50) (x : Leg) :
    ((states s ev t).U0.gen x).pwmOut = true ↔
      ((states s ev T).U0.gen x).countOut.toNat < (states s ev T).adcData.toNat := by
  rw [U0_kept (show T + 1 ≤ t from hTt) hno, U0_clock hclk]
  exact PatternPwm.pwmOut_step rfl _ x

theorem pwmOut_of_high {t : ℕ} {x : Leg} (hon : (gates (states s ev t)).high x = true) :
    ((states s ev t).U0.gen x).pwmOut = true := by
  rw [gates, PatternPwm.high_out, Bool.and_eq_true] at hon
  exact hon.2

/-- The start key and 18 periods of the clocks of the converter. -/
def exchange : List AdcEdge := .iGO :: (List.replicate 18 [.clock .iCLKn, .clock .iCLK]).flatten

/-- An exchange with `ADC_SDAT` high, then `CLOCK_50` only. -/
def driven (k : ℕ) : Event :=
  if k < 37 then .adc (exchange.getD k .iGO) true else .clock50

end De0Nano

open De0Nano in
/-- **The stop key.**  For every contents at power-up in which the interface shows nothing
while it is stopped, and every sequence of events: after a fall of `KEY[0]` and one more edge
of `CLOCK_50` no high gate is on, until an edge of `KEY[1]` finds `KEY[0]` up again. -/
theorem de0Nano_stop (s : De0Nano) (hs : s.U2.Quiet) (ev : ℕ → Event) (i T t : ℕ) (d : Bool)
    (hfall : ev i = .adc .iRSTFall d) (hiT : i < T) (hclk : ev T = .clock50) (hTt : T < t)
    (hno : ∀ u, i < u → u < t → ¬ Starts s ev u) (x : Leg) :
    (gates (states s ev t)).high x = false := by
  rw [← Bool.not_eq_true]
  intro hon
  obtain ⟨u, hTu, hut, hu, hlast⟩ := exists_last (P := fun k => ev k = .clock50) hclk hTt
  have hlt := (pwmOut_after hu hut hlast x).1 (pwmOut_of_high hon)
  have hlow := goEn_stopped (s := s) hfall (show i < u by omega)
    fun k hk hku => hno k hk (by omega)
  have hzero : (states s ev u).adcData = 0#8 := quiet_states hs u hlow
  rw [hzero] at hlt
  exact Nat.not_lt_zero _ hlt

open De0Nano in
/-- The stop key while the motor runs, and ten edges of `CLOCK_50`. -/
theorem de0Nano_stop_driven :
    (gates (states powerUp (fun k => if k = 38 then .adc .iRSTFall true else driven k)
      49)).high .a = false := by
  refine de0Nano_stop powerUp (fun _ => rfl) _ 38 39 49 true rfl (by omega) rfl (by omega) ?_ .a
  rintro u hu - ⟨edge, d, hev, -⟩
  simp only [driven, if_neg (show ¬ u = 38 by omega), if_neg (show ¬ u < 37 by omega)] at hev
  exact Event.noConfusion hev

/-- A word that is not zero has a bit set. -/
theorem exists_getMsbD {n : ℕ} {v : BitVec n} (h : v ≠ 0#n) : ∃ i < n, v.getMsbD i = true := by
  by_contra hno
  refine h (BitVec.eq_of_getMsbD_eq fun i hi => ?_)
  rw [BitVec.getMsbD_zero, ← Bool.not_eq_true]
  exact fun hbit => hno ⟨i, hi, hbit⟩

open De0Nano AdcCtrl in
/-- **What drives the motor.**  For every contents at power-up with the interface idle, all its
registers zero, and every sequence of events in which the two clocks of the converter rise in
turn: when a high gate is on, an exchange was running at the latest edge of `CLOCK_50`, and at
least two bits of it had been received.  With `len` bits, from 18 on, the duty at that edge was
word `(len - 18) / 16` of the exchange, where word `k` is shown from edge `16k + 18` on, and it
was not zero; before that it was a single bit. -/
theorem de0Nano_needs_frame (s : De0Nano) (iRST : Bool) (hidle : s.U2 = idle iRST)
    (ev : ℕ → Event) (adc : ℕ → AdcInput) (hadc : Feeds (toAdc ev) adc) (T t : ℕ)
    (hclk : ev T = .clock50) (hTt : T < t) (hlast : ∀ u, T < u → u < t → ev u ≠ .clock50)
    (halt : Alternating adc (fed (toAdc ev) T)) (x : Leg)
    (hon : (gates (De0Nano.states s ev t)).high x = true) :
    let duty := (De0Nano.states s ev T).adcData
    let bits := received (idle iRST) adc (fed (toAdc ev) T)
    (De0Nano.states s ev T).U2.goEn = true ∧ 2 ≤ bits.length ∧
    (18 ≤ bits.length → (∀ i < 8, duty.getMsbD i = wordBit bits ((bits.length - 18) / 16) i) ∧
      ∃ i < 8, wordBit bits ((bits.length - 18) / 16) i = true) ∧
    (bits.length < 18 → ∃ i < 8, ∀ k < 8, duty.getMsbD k = true ↔ k = i) := by
  intro duty bits
  have hU2 : (De0Nano.states s ev T).U2 =
      AdcCtrl.states (idle iRST) adc (fed (toAdc ev) T) := by
    rw [U2_run hadc, hidle]
  have hexchange : Exchange OneBit _ bits (De0Nano.states s ev T).U2 :=
    hU2 ▸ exchange_oneBit iRST halt
  have hlt := (pwmOut_after hclk hTt hlast x).1 (pwmOut_of_high hon)
  have hlit : duty ≠ 0#8 := by
    intro hzero
    rw [show (De0Nano.states s ev T).adcData = 0#8 from hzero] at hlt
    exact Nat.not_lt_zero _ hlt
  have hgo : (De0Nano.states s ev T).U2.goEn = true := by
    rw [← Bool.not_eq_false]
    exact fun hlow => hlit (hexchange.cleared hlow).2.2.2
  have hshows : Shows bits duty := hexchange.shows hgo
  obtain ⟨i, hi, hbit⟩ := exists_getMsbD hlit
  refine ⟨hgo, not_lt.1 fun hfew => hlit (hshows.dark hfew), fun hlong => ?_, fun hshort => ?_⟩
  · exact ⟨hshows.word hlong, i, hi, hshows.word hlong i hi ▸ hbit⟩
  · refine ⟨i, hi, fun k hk => ⟨fun hlk => hshows.one_bit hshort k hk i hi hlk hbit, ?_⟩⟩
    rintro rfl
    exact hbit

open De0Nano AdcCtrl in
/-- After 18 bits all set, leg `a` is driven by a word of all ones. -/
theorem de0Nano_needs_frame_driven :
    ∃ i < 8, wordBit (received (idle true) (fun k => ⟨exchange.getD k .iGO, true, 0#3⟩)
      37) 0 i = true := by
  have hadc : Feeds (toAdc driven) fun k => ⟨exchange.getD k .iGO, true, 0#3⟩ :=
    feeds_prefix (n := 37)
      (fun k hk => by rw [toAdc, driven, if_pos hk]; rfl)
      (fun k hk => by rw [toAdc, driven, if_neg (by omega)]; rfl)
  have hfed : fed (toAdc driven) 37 = 37 := by decide +kernel
  have hlen : (received (idle true) (fun k => ⟨exchange.getD k .iGO, true, 0#3⟩)
      37).length = 18 := by decide +kernel
  obtain ⟨-, -, hlong, -⟩ := de0Nano_needs_frame powerUp true rfl driven _ hadc 37 38 rfl
    (by omega) (by omega) (by decide +kernel) .a (by decide +kernel)
  rw [hfed, hlen] at hlong
  exact (hlong le_rfl).2

/-! ## On-time -/

namespace De0Nano

variable {s : De0Nano} {ev : ℕ → Event}

/-- The counters of the drive count them. -/
theorem countOut_states (x : Leg) (t : ℕ) :
    ((states s ev t).U0.gen x).countOut.toNat =
      ((s.U0.gen x).countOut.toNat + clocks ev t) % 2 ^ 8 := by
  induction t with
  | zero => simp [states, clocks, Nat.mod_eq_of_lt (s.U0.gen x).countOut.isLt]
  | succ t ih =>
    rw [clocks, Nat.count_succ, ← clocks]
    by_cases hev : ev t = .clock50
    · rw [U0_clock hev, PatternPwm.countOut_step rfl, BitVec.toNat_add, ih, if_pos hev]
      simp only [BitVec.toNat_ofNat]
      omega
    · rw [U0_kept (Nat.le_succ t) fun k hk hkt => by rwa [show k = t by omega], ih, if_neg hev,
        Nat.add_zero]

/-- Counters that agree at power-up agree for ever. -/
theorem aligned_states (hs : s.U0.Aligned) (t : ℕ) : (states s ev t).U0.Aligned := by
  rw [PatternPwm.aligned_iff] at hs ⊢
  intro x y
  refine BitVec.eq_of_toNat_eq ?_
  rw [countOut_states, countOut_states, hs x y]

/-- Some gate is on after an edge of `CLOCK_50` when the duty was above the counter. -/
theorem anyHigh_clock (hq : FwRvCommutation.InSector s.U0.U0.stateQ) (hs : s.U0.Aligned) {t : ℕ}
    (hclk : ev t = .clock50) :
    (gates (states s ev (t + 1))).anyHigh = true ↔
      (s.U0.U1.countOut.toNat + clocks ev t) % 2 ^ 8 < (states s ev t).adcData.toNat := by
  have hcount : (states s ev t).U0.U1.countOut.toNat =
      (s.U0.U1.countOut.toNat + clocks ev t) % 2 ^ 8 := countOut_states .a t
  rw [gates, U0_clock hclk, PatternPwm.anyHigh_step rfl (sector_mono (a := 0) hq (Nat.zero_le t))
    (aligned_states hs t), ← hcount]

end De0Nano

open De0Nano in
/-- **The on-time on the board.**  From every start with the commutator in a sector and the
counters in step, for every sequence of events: in every stretch of events with 256 edges of
`CLOCK_50`, the number of these edges after which some high gate is on is at least every
lower bound and at most every upper bound of what the interface shows at them, whatever
sensors, switch and keys do meanwhile. -/
theorem de0Nano_onTime (s : De0Nano) (hq : FwRvCommutation.InSector s.U0.U0.stateQ)
    (hs : s.U0.Aligned) (ev : ℕ → Event) (T len : ℕ)
    (hlen : Nat.count (fun k => ev (T + k) = .clock50) len = 256) (lo hi : ℕ)
    (hlo : ∀ k < len, ev (T + k) = .clock50 → lo ≤ (states s ev (T + k)).adcData.toNat)
    (hhi : ∀ k < len, ev (T + k) = .clock50 → (states s ev (T + k)).adcData.toNat ≤ hi) :
    let on := Nat.count (fun k => ev (T + k) = .clock50 ∧
      (gates (states s ev (T + k + 1))).anyHigh = true) len
    lo ≤ on ∧ on ≤ hi := by
  intro on
  set a := s.U0.U1.countOut.toNat + clocks ev T
  have hclocks : ∀ k, clocks ev (T + k) =
      clocks ev T + Nat.count (fun j => ev (T + j) = .clock50) k := fun k => Nat.count_add _ T k
  have hon : ∀ k, ev (T + k) = .clock50 → ((gates (states s ev (T + k + 1))).anyHigh = true ↔
      (a + Nat.count (fun j => ev (T + j) = .clock50) k) % 2 ^ 8 <
        (states s ev (T + k)).adcData.toNat) := by
    intro k hk
    rw [anyHigh_clock hq hs hk, hclocks, ← Nat.add_assoc]
  -- against a fixed threshold the counter is below it that many times in 256
  have hbelow : ∀ c ≤ 256, Nat.count (fun k => ev (T + k) = .clock50 ∧
      (a + Nat.count (fun j => ev (T + j) = .clock50) k) % 2 ^ 8 < c) len = c := by
    intro c hc
    rw [count_fed (fun k => ev (T + k) = .clock50) (fun j => (a + j) % 2 ^ 8 < c), hlen]
    exact count_below hc a
  obtain ⟨k₀, hk₀, hclk₀⟩ : ∃ k < len, ev (T + k) = .clock50 := by
    by_contra hno
    have hzero := Nat.count_of_forall_not (p := fun k => ev (T + k) = .clock50) (n := len)
      fun k hk hclk => hno ⟨k, hk, hclk⟩
    omega
  have hsmall := (states s ev (T + k₀)).adcData.isLt
  constructor
  · rw [← hbelow lo (by have := hlo k₀ hk₀ hclk₀; omega)]
    exact Nat.count_mono_left fun k hk ⟨hclk, hlt⟩ =>
      ⟨hclk, (hon k hclk).2 (hlt.trans_le (hlo k hk hclk))⟩
  · rcases le_total hi 256 with hle | hge
    · rw [← hbelow hi hle]
      exact Nat.count_mono_left fun k hk ⟨hclk, hhigh⟩ =>
        ⟨hclk, ((hon k hclk).1 hhigh).trans_le (hhi k hk hclk)⟩
    · calc on ≤ Nat.count (fun k => ev (T + k) = .clock50) len :=
            Nat.count_mono_left fun k _ h => h.1
        _ ≤ hi := by omega

open De0Nano in
/-- After a word of all ones some high gate is on after 255 of 256 edges of `CLOCK_50`. -/
theorem de0Nano_onTime_driven :
    Nat.count (fun k => driven (37 + k) = .clock50 ∧
      (gates (states powerUp driven (37 + k + 1))).anyHigh = true) 256 = 255 := by
  have hclock : ∀ k, driven (37 + k) = .clock50 := fun k => if_neg (by omega)
  have hlit : ∀ k, (states powerUp driven (37 + k)).adcData = 255#8 := by
    intro k
    have hword : (states powerUp driven 37).adcData = 255#8 := by decide +kernel
    refine (adcData_kept (Nat.le_add_right 37 k) fun j hj _ => ?_).trans hword
    rw [toAdc, driven, if_neg (by omega)]
    rfl
  obtain ⟨hge, hle⟩ := de0Nano_onTime powerUp ⟨.A, rfl⟩ ⟨rfl, rfl⟩ driven 37 256
    (Nat.count_iff_forall.2 fun k _ => hclock k) 255 255
    (fun k _ _ => by rw [hlit]; decide) fun k _ _ => by rw [hlit]; decide
  exact le_antisymm hle hge

end BldcFpga
