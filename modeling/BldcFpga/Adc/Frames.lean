import BldcFpga.Adc.AdcCtrl

/-!
# Frames

Frame `k` is made of the rising edges `16k + 1` to `16k + 16` of `iCLK`; the twelve bits
of its word are on `iDOUT` at the edges `16k + 5` to `16k + 16`.

* `wordBit` — bit `i` of the word of frame `k`, among the bits received so far;
* `Frame` — what the registers hold after any number of edges, in terms of the bits
  received, and of the bit that the first edge leaves where `m_cont` happens to point;
* `Exchange` — the invariant of a run with restarts, for any condition on that bit;
* `adcCtrl_frames` — both directions of the exchange, in every frame of every run.
-/

namespace BldcFpga

open Clocked

namespace AdcCtrl

/-! ## Words -/

/-- Bit `i` of the word of frame `k`, most significant first, where `b` are the bits
received at the edges 1, 2, 3, … -/
def wordBit (b : List Bool) (k i : ℕ) : Bool := b.getD (16 * k + 4 + i) false

theorem wordBit_append {b : List Bool} {k i : ℕ} (h : 16 * k + 4 + i < b.length) (d : Bool) :
    wordBit (b ++ [d]) k i = wordBit b k i :=
  List.getD_append _ _ _ _ h

theorem wordBit_last {b : List Bool} {k i : ℕ} (h : b.length = 16 * k + 4 + i) (d : Bool) :
    wordBit (b ++ [d]) k i = d := by
  rw [wordBit, List.getD_append_right _ _ _ _ h.le, h, Nat.sub_self]
  rfl

/-- After the bits `b`, when the first edge has left the bits `g` in the upper part of the
word: the registers hold the counter, the last bits written into that part, and on `led`
the word of the last frame that is complete. -/
structure Frame (g : ℕ → Bool) (b : List Bool) (s : AdcCtrl) : Prop where
  cont : s.cont.toNat = b.length % 16
  adcData : ∀ i < 8, s.adcData.getLsbD (11 - i) =
    if b.length < 5 + i then decide (1 ≤ b.length) && g i
    else wordBit b ((b.length - (5 + i)) / 16) i
  led : ∀ i < 8, s.led.getLsbD (7 - i) =
    if b.length < 18 then decide (2 ≤ b.length) && g i
    else wordBit b ((b.length - 18) / 16) i

section Frame

variable {g : ℕ → Bool} {b : List Bool} {s s' : AdcCtrl}

theorem Frame.congr (hf : Frame g b s) (hcont : s'.cont = s.cont) (hadc : s'.adcData = s.adcData)
    (hled : s'.led = s.led) : Frame g b s' where
  cont := by rw [hcont]; exact hf.cont
  adcData := by rw [hadc]; exact hf.adcData
  led := by rw [hled]; exact hf.led

/-- Before the first bit all of it is zero. -/
theorem Frame.nil (hcont : s.cont = 0#4) (hadc : s.adcData = 0#12) (hled : s.led = 0#8) :
    Frame g [] s where
  cont := by rw [hcont]; rfl
  adcData := by intro i _; simp [hadc]
  led := by intro i _; simp [hled]

theorem Frame.cont_nil (hf : Frame g [] s) : s.cont = 0#4 := BitVec.eq_of_toNat_eq hf.cont

/-- What is on the display. -/
theorem Frame.led_getMsbD (hf : Frame g b s) {i : ℕ} (hi : i < 8) :
    s.led.getMsbD i = if b.length < 18 then decide (2 ≤ b.length) && g i
      else wordBit b ((b.length - 18) / 16) i := by
  rw [BitVec.getMsbD_eq_getLsbD, decide_eq_true hi, Bool.true_and]
  exact hf.led i hi

/-- From the 18th edge on it is a word. -/
theorem Frame.led_word (hf : Frame g b s) (h : 18 ≤ b.length) {i : ℕ} (hi : i < 8) :
    s.led.getMsbD i = wordBit b ((b.length - 18) / 16) i := by
  rw [hf.led_getMsbD hi, if_neg (by omega)]

/-- Before, it is dark as long as nothing stray is there to be shown. -/
theorem Frame.led_eq_zero (hf : Frame g b s) (h : b.length < 18)
    (hg : ∀ i < 8, b.length < 2 ∨ g i = false) : s.led = 0#8 := by
  refine BitVec.eq_of_getMsbD_eq fun i hi => ?_
  rw [hf.led_getMsbD hi, if_pos h, BitVec.getMsbD_zero, Bool.and_eq_false_iff,
    decide_eq_false_iff_not, not_le]
  exact hg i hi

end Frame

/-! ## One edge of `iCLK` -/

/-- Only the bit that `m_cont` names is written. -/
theorem receive_adcData (d : Bool) (s : AdcCtrl) {i : ℕ} (hi : i < 12) :
    (receive d s).adcData.getLsbD (11 - i) =
      if s.mCont.toNat = 4 + i then d else s.adcData.getLsbD (11 - i) := by
  have hlt : s.mCont.toNat < 16 := s.mCont.isLt
  unfold receive
  by_cases h4 : 4 ≤ s.mCont.toNat
  · rw [if_pos h4, getLsbD_setBit _ _ _ (by omega)]
    refine if_congr ?_ rfl rfl
    omega
  · have hno : ¬ s.mCont.toNat = 4 + i := by omega
    rw [if_neg h4, if_neg hno]
    split_ifs <;> rfl

/-- `led` takes the upper bits when `m_cont` is 1. -/
theorem receive_led (d : Bool) (s : AdcCtrl) {i : ℕ} (hi : i < 8) :
    (receive d s).led.getLsbD (7 - i) =
      if s.mCont.toNat = 1 then s.adcData.getLsbD (11 - i) else s.led.getLsbD (7 - i) := by
  have hone : s.mCont = 1#4 ↔ s.mCont.toNat = 1 := by rw [← BitVec.toNat_inj]; rfl
  unfold receive
  by_cases h4 : 4 ≤ s.mCont.toNat
  · rw [if_pos h4, if_neg (by omega)]
  · rw [if_neg h4, apply_ite AdcCtrl.led, if_congr hone rfl rfl]
    split_ifs
    · rw [BitVec.getLsbD_extractLsb', decide_eq_true (by omega), Bool.true_and,
        show 4 + (7 - i) = 11 - i by omega]
    · rfl

theorem clkEdge_of_goEn {s : AdcCtrl} (hgo : s.goEn = true) (d : Bool) :
    clkEdge d s = { receive d s with cont := s.cont + 1#4 } := if_pos hgo

section ClkEdge

variable {g : ℕ → Bool} {b : List Bool} {s : AdcCtrl}

/-- The counter counts the bits. -/
theorem Frame.cont_succ (hf : Frame g b s) (d : Bool) :
    (s.cont + 1#4).toNat = (b ++ [d]).length % 16 := by
  rw [BitVec.toNat_add, hf.cont, List.length_append]
  simp

/-- The bit that an edge writes, by its place in the upper part of the word. -/
def stray (d : Bool) (s : AdcCtrl) (i : ℕ) : Bool := decide (s.mCont.toNat = 4 + i) && d

/-- In step, the first edge writes none there. -/
theorem stray_of_inStep (hm : s.mCont = s.cont) (hcont : s.cont = 0#4) (d : Bool) (i : ℕ) :
    stray d s i = false := by
  rw [stray, hm, hcont, decide_eq_false (by simp; omega)]
  rfl

/-- **The first edge** leaves the bit that `m_cont` names, whatever that is. -/
theorem Frame.clkEdge_first (hf : Frame g [] s) (hgo : s.goEn = true) (d : Bool) :
    Frame (stray d s) [d] (AdcCtrl.clkEdge d s) := by
  have hzero : ∀ i < 8, s.adcData.getLsbD (11 - i) = false := fun i hi => by
    rw [hf.adcData i hi, if_pos (Nat.lt_of_lt_of_le (by decide) (Nat.le_add_right 5 i))]
    rfl
  rw [clkEdge_of_goEn hgo]
  refine ⟨hf.cont_succ d, fun i hi => ?_, fun i hi => ?_⟩
  · have hearly : [d].length < 5 + i := by rw [List.length_singleton]; omega
    show (receive d s).adcData.getLsbD (11 - i) = _
    rw [receive_adcData d s (by omega), hzero i hi, if_pos hearly, stray]
    by_cases hhere : s.mCont.toNat = 4 + i
    · simp [hhere]
    · simp [hhere]
  · show (receive d s).led.getLsbD (7 - i) = _
    rw [receive_led d s hi, hzero i hi, hf.led i hi]
    simp

/-- **An edge in step.**  With `m_cont` the counter of half a clock ago, the bit goes to
its place, and a word is published when it is complete. -/
theorem Frame.clkEdge (hf : Frame g b s) (hgo : s.goEn = true) (hm : s.mCont = s.cont)
    (hb : 1 ≤ b.length) (d : Bool) : Frame g (b ++ [d]) (AdcCtrl.clkEdge d s) := by
  have hcount : s.mCont.toNat = b.length % 16 := by rw [hm, hf.cont]
  have hlen : (b ++ [d]).length = b.length + 1 := by simp
  rw [clkEdge_of_goEn hgo]
  refine ⟨hf.cont_succ d, fun i hi => ?_, fun i hi => ?_⟩
  · show (receive d s).adcData.getLsbD (11 - i) = _
    rw [receive_adcData d s (by omega), hcount, hf.adcData i hi, hlen]
    by_cases hhere : b.length % 16 = 4 + i
    · rw [if_pos hhere, if_neg (by omega), wordBit_last (by omega)]
    · rw [if_neg hhere]
      by_cases hearly : b.length < 5 + i
      · rw [if_pos hearly, if_pos (by omega), decide_eq_true hb, decide_eq_true (by omega)]
      · rw [if_neg hearly, if_neg (by omega), wordBit_append (by omega),
          show (b.length + 1 - (5 + i)) / 16 = (b.length - (5 + i)) / 16 by omega]
  · show (receive d s).led.getLsbD (7 - i) = _
    rw [receive_led d s hi, hcount, hf.adcData i hi, hf.led i hi, hlen]
    by_cases hhere : b.length % 16 = 1
    · rw [if_pos hhere]
      by_cases hearly : b.length < 17
      · -- the second edge shows what the first one left
        rw [if_pos (by omega), if_pos (by omega), decide_eq_true hb, decide_eq_true (by omega)]
      · -- the word of the frame before has just been completed
        rw [if_neg (by omega), if_neg (by omega), wordBit_append (by omega),
          show (b.length + 1 - 18) / 16 = (b.length - (5 + i)) / 16 by omega]
    · rw [if_neg hhere]
      by_cases hearly : b.length < 18
      · rw [if_pos hearly, if_pos (by omega), decide_eq_true (by omega),
          decide_eq_true (by omega)]
      · rw [if_neg hearly, if_neg (by omega), wordBit_append (by omega),
          show (b.length + 1 - 18) / 16 = (b.length - 18) / 16 by omega]

end ClkEdge

/-! ## Whole runs -/

/-- Nothing stray was left. -/
def Clean (g : ℕ → Bool) : Prop := ∀ i < 8, g i = false

/-- **The invariant of the exchange**, where `P` tells which bits the first edge may leave.
While `go_en` is high the registers hold the frame received so far, and `m_cont` is the
counter of half a clock ago when `iCLK` is next to rise, except before the first bit; while
it is low they are cleared. -/
structure Exchange (P : (ℕ → Bool) → Prop) (last : Option SpiClock) (b : List Bool)
    (s : AdcCtrl) : Prop where
  frame : s.goEn = true → ∃ g, P g ∧ Frame g b s
  inStep : s.goEn = true → last ≠ some .iCLK → s.mCont = s.cont ∨ b = []
  cleared : s.goEn = false → s.cont = 0#4 ∧ s.data = false ∧ s.adcData = 0#12 ∧ s.led = 0#8

section Edges

variable {P : (ℕ → Bool) → Prop} {last : Option SpiClock} {b : List Bool} {s : AdcCtrl}

theorem Exchange.clkEdge (h : Exchange P last b s) (hlast : last ≠ some .iCLK) {d : Bool}
    (hd : s.goEn = true → s.cont = 0#4 → P (stray d s)) :
    Exchange P (some .iCLK) (b ++ [d]) (AdcCtrl.clkEdge d s) where
  frame := by
    intro hgo
    rw [clkEdge_goEn] at hgo
    obtain ⟨g, hg, hf⟩ := h.frame hgo
    cases b with
    | nil => exact ⟨stray d s, hd hgo hf.cont_nil, hf.clkEdge_first hgo d⟩
    | cons x b =>
      have hm := (h.inStep hgo hlast).resolve_right (List.cons_ne_nil x b)
      exact ⟨g, hg, hf.clkEdge hgo hm (by simp) d⟩
  inStep := fun _ hno => absurd rfl hno
  cleared := by
    intro hgo
    rw [clkEdge_goEn] at hgo
    obtain ⟨-, hdata, -, -⟩ := h.cleared hgo
    unfold AdcCtrl.clkEdge
    rw [hgo]
    exact ⟨rfl, hdata, rfl, rfl⟩

theorem Exchange.clkNEdge (h : Exchange P last b s) (ch : BitVec 3) :
    Exchange P (some .iCLKn) b (AdcCtrl.clkNEdge ch s) where
  frame := fun hgo => (h.frame hgo).imp fun _ hg => ⟨hg.1, hg.2.congr rfl rfl rfl⟩
  inStep := fun _ _ => Or.inl rfl
  cleared := by
    intro hgo
    obtain ⟨hcont, -, hadc, hled⟩ := h.cleared hgo
    exact ⟨hcont, if_neg (by rw [← clkNEdge_goEn ch s, hgo]; decide), hadc, hled⟩

theorem Exchange.iRST (h : Exchange P last b s) (v : Bool) :
    Exchange P last b { s with iRST := v } where
  frame := fun hgo => (h.frame hgo).imp fun _ hg => ⟨hg.1, hg.2.congr rfl rfl rfl⟩
  inStep := h.inStep
  cleared := h.cleared

/-- Lowering `go_en` clears the exchange. -/
theorem Exchange.fall (h : Exchange P last b s) : Exchange P last b (setGoEn false s) where
  frame := fun hgo => by rw [setGoEn_goEn] at hgo; exact Bool.noConfusion hgo
  inStep := fun hgo => by rw [setGoEn_goEn] at hgo; exact Bool.noConfusion hgo
  cleared := by
    intro _
    unfold setGoEn
    split_ifs with hgo
    · exact ⟨rfl, rfl, rfl, rfl⟩
    · exact h.cleared (by simpa using hgo)

/-- Raising it starts a new one. -/
theorem Exchange.rise (h : Exchange P last b s) (hP : P fun _ => false) (hgo : s.goEn = false) :
    Exchange P last [] (setGoEn true s) := by
  obtain ⟨hcont, -, hadc, hled⟩ := h.cleared hgo
  have hset : setGoEn true s = { s with goEn := true } := if_neg fun h => Bool.noConfusion h.2
  rw [hset]
  exact
    { frame := fun _ => ⟨_, hP, Frame.nil hcont hadc hled⟩
      inStep := fun _ _ => Or.inr rfl
      cleared := fun h => Bool.noConfusion h }

end Edges

section Run

variable {P : (ℕ → Bool) → Prop} {s : AdcCtrl} {inp : ℕ → AdcInput}

/-- What edge `t` may leave behind, when it is the first of an exchange. -/
def Leaves (P : (ℕ → Bool) → Prop) (s : AdcCtrl) (inp : ℕ → AdcInput) (t : ℕ) : Prop :=
  ClkAt inp t → (states s inp t).goEn = true → (states s inp t).cont = 0#4 →
    P (stray (inp t).iDOUT (states s inp t))

/-- The exchange over one edge. -/
theorem Exchange.step (hP : P fun _ => false) {t : ℕ}
    (h : Exchange P (lastClock inp t) (received s inp t) (states s inp t))
    (hturn : ∀ c, (inp t).edge = .clock c → lastClock inp t ≠ some c) (hok : Leaves P s inp t) :
    Exchange P (lastClock inp (t + 1)) (received s inp (t + 1)) (states s inp (t + 1)) := by
  have hs : states s inp (t + 1) = AdcCtrl.step (inp t) (states s inp t) := rfl
  cases hi : (inp t).edge with
  | clock c =>
    rw [lastClock_of_clock hi]
    cases c with
    | iCLK =>
      simp only [AdcCtrl.step, hi] at hs
      rw [received_clk hi, hs]
      exact h.clkEdge (hturn _ hi) (hok hi)
    | iCLKn =>
      simp only [AdcCtrl.step, hi] at hs
      have hgo : (states s inp (t + 1)).goEn = (states s inp t).goEn := by rw [hs]; rfl
      rw [received_other (by simp [ClkAt, hi]) (by rw [hgo]; simp), hs]
      exact h.clkNEdge _
  | iRSTFall =>
    simp only [AdcCtrl.step, hi] at hs
    rw [lastClock_of_other (by simp [hi]),
      received_other (by simp [ClkAt, hi]) (Or.inr (by rw [hs, setGoEn_goEn])), hs]
    exact (h.iRST false).fall
  | iRSTRise =>
    simp only [AdcCtrl.step, hi] at hs
    have hgo : (states s inp (t + 1)).goEn = (states s inp t).goEn := by rw [hs]
    rw [lastClock_of_other (by simp [hi]),
      received_other (by simp [ClkAt, hi]) (by rw [hgo]; simp), hs]
    exact h.iRST true
  | iGO =>
    simp only [AdcCtrl.step, hi] at hs
    rw [lastClock_of_other (by simp [hi])]
    have hnext : (states s inp (t + 1)).goEn = (states s inp t).iRST := by rw [hs, setGoEn_goEn]
    cases hrst : (states s inp t).iRST with
    | false =>
      rw [received_other (by simp [ClkAt, hi]) (Or.inr (hnext.trans hrst)), hs, hrst]
      exact h.fall
    | true =>
      cases hgo : (states s inp t).goEn with
      | false =>
        rw [received_rise hgo (hnext.trans hrst), hs, hrst]
        exact h.rise hP hgo
      | true =>
        rw [received_other (by simp [ClkAt, hi]) (Or.inl hgo), hs, hrst, setGoEn_self hgo]
        exact h

/-- The exchange over a run. -/
theorem exchange_run (hP : P fun _ => false) (h0 : Exchange P none [] s) {t : ℕ}
    (halt : Alternating inp t) (hok : ∀ u < t, Leaves P s inp u) :
    Exchange P (lastClock inp t) (received s inp t) (states s inp t) := by
  induction t with
  | zero => exact h0
  | succ t ih =>
    exact (ih (fun u hu => halt u (by omega)) fun u hu => hok u (by omega)).step hP
      (halt t (by omega)) (hok t (by omega))

/-- The idle state is the beginning of an exchange. -/
theorem exchange_idle (iRST : Bool) : Exchange P none [] (idle iRST) where
  frame := fun h => Bool.noConfusion h
  inStep := fun h => Bool.noConfusion h
  cleared := fun _ => ⟨rfl, rfl, rfl, rfl⟩

end Run

/-! ## Runs without a reset -/

/-- While `iRST` stays high after a start, the exchange runs, and between an edge of
`iCLK_n` and the next one of `iCLK` the counter, its copy and `data` belong together. -/
structure Running (last : Option SpiClock) (ch : BitVec 3) (s : AdcCtrl) : Prop where
  iRST : s.iRST = true
  goEn : s.goEn = true
  inStep : last ≠ some .iCLK → s.mCont = s.cont ∧ s.data = channelBit s.cont ch

section Run

variable {s : AdcCtrl} {inp : ℕ → AdcInput}

theorem running_run (h0 : Running none 0#3 s) (hrst : ∀ t, (inp t).edge ≠ .iRSTFall) (t : ℕ) :
    Running (lastClock inp t) (lastCH inp t) (states s inp t) := by
  induction t with
  | zero => exact h0
  | succ t ih =>
    generalize hx : states s inp t = x at ih
    simp only [lastClock, lastCH, states_succ, hx, step]
    cases hi : (inp t).edge with
    | clock c =>
      cases c with
      | iCLK =>
        exact ⟨(clkEdge_iRST _ x).trans ih.iRST, (clkEdge_goEn _ x).trans ih.goEn,
          fun hno => absurd rfl hno⟩
      | iCLKn => exact ⟨ih.iRST, ih.goEn, fun _ => ⟨rfl, if_pos ih.goEn⟩⟩
    | iRSTFall => exact absurd hi (hrst t)
    | iRSTRise => exact ⟨rfl, ih.goEn, ih.inStep⟩
    | iGO =>
      rw [ih.iRST, setGoEn_self ih.goEn]
      exact ih

/-- The number of rising edges of `iCLK` among the first `t` edges. -/
def clkEdges (inp : ℕ → AdcInput) (t : ℕ) : ℕ := Nat.count (ClkAt inp) t

/-- The level of `iDOUT` at the `j`-th rising edge of `iCLK`, counted from 1. -/
noncomputable def bitAt (inp : ℕ → AdcInput) (j : ℕ) : Bool :=
  (sampled (ClkAt inp) inp (j - 1)).iDOUT

/-- Without a new start all the bits count. -/
theorem received_eq (hgo : ∀ t, (states s inp t).goEn = true) (t : ℕ) :
    received s inp t = (List.range (clkEdges inp t)).map fun p => bitAt inp (p + 1) := by
  induction t with
  | zero => simp [received, clkEdges]
  | succ t ih =>
    rw [clkEdges, Nat.count_succ, ← clkEdges]
    by_cases hclk : ClkAt inp t
    · have hbit : bitAt inp (clkEdges inp t + 1) = (inp t).iDOUT :=
        congrArg AdcInput.iDOUT (sampled_count inp hclk)
      rw [received_clk hclk, if_pos hclk, List.range_succ, List.map_append, ih,
        List.map_singleton, hbit]
    · rw [received_other hclk (Or.inl (hgo t)), if_neg hclk, ih, Nat.add_zero]

theorem wordBit_received (hgo : ∀ t, (states s inp t).goEn = true) {t k i : ℕ}
    (h : 16 * k + 4 + i < clkEdges inp t) :
    wordBit (received s inp t) k i = bitAt inp (16 * k + 5 + i) := by
  rw [wordBit, received_eq hgo, List.getD_eq_getElem _ _ (by simpa using h), List.getElem_map,
    List.getElem_range, show 16 * k + 4 + i + 1 = 16 * k + 5 + i by omega]

end Run

end AdcCtrl

open AdcCtrl in
/-- **Full-duplex frames.**  After a rise of `iGO` from the idle state, with `iRST` high
and the clocks rising in turn, in every run: `led` is 0 before the 18th rising edge of
`iCLK`; from edge `16k + 18` to the next of these it shows the bits that `iDOUT` had at
the edges `16k + 5` to `16k + 12`, most significant first; and at the edges `16k + 3`,
`16k + 4` and `16k + 5` the output `oDIN` is bit 2, 1 and 0 of `iCH` at the edge of
`iCLK_n` before, and 0 at every other edge. -/
theorem adcCtrl_frames (d₀ : Bool) (ch₀ : BitVec 3) (inp : ℕ → AdcInput)
    (halt : ∀ t, Alternating inp t) (hrst : ∀ t, (inp t).edge ≠ .iRSTFall) :
    let x := states (step ⟨.iGO, d₀, ch₀⟩ (idle true)) inp
    (∀ t, clkEdges inp t < 18 → oLED (x t) = 0#8) ∧
    (∀ t k, 16 * k + 18 ≤ clkEdges inp t → clkEdges inp t < 16 * (k + 1) + 18 →
      ∀ i < 8, (oLED (x t)).getMsbD i = bitAt inp (16 * k + 5 + i)) ∧
    (∀ t, ClkAt inp t → oDIN (x t) =
      if (clkEdges inp t + 1) % 16 = 3 then (lastCH inp t).getLsbD 2
      else if (clkEdges inp t + 1) % 16 = 4 then (lastCH inp t).getLsbD 1
      else if (clkEdges inp t + 1) % 16 = 5 then (lastCH inp t).getLsbD 0
      else false) := by
  intro x
  have hrunning : ∀ t, Running (lastClock inp t) (lastCH inp t) (x t) :=
    running_run ⟨rfl, rfl, fun _ => ⟨rfl, rfl⟩⟩ hrst
  have hgo : ∀ t, (x t).goEn = true := fun t => (hrunning t).goEn
  have hstart : Exchange Clean none [] (step ⟨.iGO, d₀, ch₀⟩ (idle true)) :=
    (exchange_idle true).rise (fun _ _ => rfl) rfl
  have hframe : ∀ t, ∃ g, Clean g ∧
      Frame g (received (step ⟨.iGO, d₀, ch₀⟩ (idle true)) inp t) (x t) := by
    intro t
    refine (exchange_run (fun _ _ => rfl) hstart (halt t) fun u hu hclk _ hcont i _ => ?_).frame
      (hgo t)
    -- in step, `m_cont` is never stale
    exact stray_of_inStep ((hrunning u).inStep (halt t u hu _ hclk)).1 hcont _ i
  have hlen : ∀ t, (received (step ⟨.iGO, d₀, ch₀⟩ (idle true)) inp t).length =
      clkEdges inp t := fun t => by
    rw [received_eq hgo, List.length_map, List.length_range]
  refine ⟨fun t ht => ?_, fun t k hk hk' i hi => ?_, fun t ht => ?_⟩
  · obtain ⟨g, hg, hf⟩ := hframe t
    exact hf.led_eq_zero (by rwa [hlen]) fun i hi => Or.inr (hg i hi)
  · obtain ⟨g, -, hf⟩ := hframe t
    rw [oLED, hf.led_word (by rw [hlen]; omega) hi, hlen,
      show (clkEdges inp t - 18) / 16 = k by omega]
    exact wordBit_received hgo (by omega)
  · obtain ⟨g, -, hf⟩ := hframe t
    have hcont := hf.cont
    rw [hlen] at hcont
    have hdata := ((hrunning t).inStep (halt (t + 1) t (Nat.lt_succ_self t) _ ht)).2
    rw [oDIN, hdata]
    unfold channelBit
    simp only [← BitVec.toNat_inj, hcont, BitVec.toNat_ofNat]
    exact if_congr (by omega) rfl (if_congr (by omega) rfl (if_congr (by omega) rfl rfl))

open AdcCtrl in
/-- The clocks alternating from `iCLK_n` on, with `iDOUT` high: after 18 edges of each all
of `led` is lit. -/
theorem adcCtrl_frames_lit :
    let inp : ℕ → AdcInput := fun t => ⟨.clock (if t % 2 = 0 then .iCLKn else .iCLK), true, 0#3⟩
    ∀ i < 8, (oLED (states (step ⟨.iGO, true, 0#3⟩ (idle true)) inp 36)).getMsbD i = true := by
  intro inp
  have halt : ∀ t, Alternating inp t := by
    intro t u _ c hc
    cases u with
    | zero => simp [lastClock]
    | succ u =>
      rw [lastClock_of_clock (show (inp u).edge = .clock _ from rfl)]
      intro hsame
      obtain rfl : _ = c := AdcEdge.clock.inj hc
      -- consecutive edges have different parity
      rcases Nat.mod_two_eq_zero_or_one u with hu | hu
      · have hnext : (u + 1) % 2 = 1 := by omega
        simp [hu, hnext] at hsame
      · have hnext : (u + 1) % 2 = 0 := by omega
        simp [hu, hnext] at hsame
  exact (adcCtrl_frames true 0#3 inp halt fun t => by simp [inp]).2.1 36 0 (by decide) (by decide)

end BldcFpga
