import BldcFpga.Adc.Frames

/-!
# Restarts

A fall of `iRST` clears `go_en` and with it every register of the exchange but
`m_cont`, which waits for the next edge of `iCLK_n`.  If `iRST` and `iGO` are back before
that edge, the first edge of `iCLK` finds the counter of the old exchange there.

* `Published` — what `led` may show: nothing, or the word of a frame received in full
  since the most recent rise of `go_en`;
* `adcCtrl_published` — it shows nothing else in a run whose edges are all `Harmless`;
* `not_published_of_stale` — a harmful edge is published one clock later, long before
  the frame is complete.
-/

namespace BldcFpga

open Clocked

namespace AdcCtrl

/-- `led` is 0, or the top eight bits of the word of a frame that the bits `b` contain in
full. -/
def Published (b : List Bool) (led : BitVec 8) : Prop :=
  led = 0#8 ∨ ∃ k, 16 * k + 16 ≤ b.length ∧ ∀ i < 8, led.getMsbD i = wordBit b k i

/-- An edge of `iCLK` that finds a stale `m_cont` writes no 1 into a published bit. -/
def Harmless (i : AdcInput) (s : AdcCtrl) : Prop :=
  i.edge = .clock .iCLK → s.goEn = true → s.mCont ≠ s.cont → 4 ≤ s.mCont.toNat →
    s.mCont.toNat ≤ 11 → i.iDOUT = false

instance (i : AdcInput) (s : AdcCtrl) : Decidable (Harmless i s) :=
  inferInstanceAs (Decidable (_ → _))

/-- Then it leaves nothing stray. -/
theorem Harmless.clean {i : AdcInput} {s : AdcCtrl} (h : Harmless i s)
    (hclk : i.edge = .clock .iCLK) (hgo : s.goEn = true) (hcont : s.cont = 0#4) :
    Clean (stray i.iDOUT s) := by
  intro k hk
  by_cases hm : s.mCont = s.cont
  · exact stray_of_inStep hm hcont _ k
  · rw [stray, Bool.and_eq_false_iff, decide_eq_false_iff_not]
    by_cases hhere : s.mCont.toNat = 4 + k
    · exact Or.inr (h hclk hgo hm (by omega) (by omega))
    · exact Or.inl hhere

/-- The display of a clean frame is such a word. -/
theorem Frame.published {g : ℕ → Bool} {b : List Bool} {s : AdcCtrl} (hf : Frame g b s)
    (hg : Clean g) : Published b s.led := by
  rcases Nat.lt_or_ge b.length 18 with h | h
  · exact Or.inl (hf.led_eq_zero h fun i hi => Or.inr (hg i hi))
  · exact Or.inr ⟨(b.length - 18) / 16, by omega, fun i hi => hf.led_word h hi⟩

theorem Exchange.published {last : Option SpiClock} {b : List Bool} {s : AdcCtrl}
    (h : Exchange Clean last b s) : Published b s.led := by
  cases hgo : s.goEn with
  | true =>
    obtain ⟨g, hg, hf⟩ := h.frame hgo
    exact hf.published hg
  | false => exact Or.inl (h.cleared hgo).2.2.2

/-! ## A harmful edge -/

section Stale

variable {s : AdcCtrl}

/-- A 1 in a published bit of `adc_data` is on `led` after the second edge of `iCLK`. -/
theorem led_second {d d' : Bool} {ch : BitVec 3} (hgo : s.goEn = true) (hcont : s.cont = 0#4)
    {i : ℕ} (hi : i < 8) (hbit : (clkEdge d s).adcData.getLsbD (11 - i) = true) :
    (clkEdge d' (clkNEdge ch (clkEdge d s))).led ≠ 0#8 := by
  have hone : (clkNEdge ch (clkEdge d s)).mCont = 1#4 := by
    show (clkEdge d s).cont = 1#4
    rw [clkEdge_of_goEn hgo, hcont]
    rfl
  have hgo' : (clkNEdge ch (clkEdge d s)).goEn = true := by
    rw [clkNEdge_goEn, clkEdge_goEn, hgo]
  intro hzero
  have hled := receive_led d' (clkNEdge ch (clkEdge d s)) hi
  rw [clkEdge_of_goEn hgo'] at hzero
  rw [if_pos (by rw [hone]; rfl),
    show (receive d' (clkNEdge ch (clkEdge d s))).led = 0#8 from hzero,
    BitVec.getLsbD_zero] at hled
  exact Bool.noConfusion (hled.trans hbit)

variable {P : (ℕ → Bool) → Prop} {inp : ℕ → AdcInput} {t : ℕ}

/-- **A harmful edge is published.**  If the next two edges are those of the clocks, `led`
shows a 1 when only two bits of the exchange have been received. -/
theorem not_published_of_stale
    (h : Exchange P (lastClock inp t) (received s inp t) (states s inp t))
    (hlast : lastClock inp t ≠ some .iCLK) (hbad : ¬ Harmless (inp t) (states s inp t))
    (hnext : (inp (t + 1)).edge = .clock .iCLKn) (hthen : ClkAt inp (t + 2)) :
    ¬ Published (received s inp (t + 3)) (states s inp (t + 3)).led := by
  simp only [Harmless, not_forall] at hbad
  obtain ⟨hclk, hgo, hstale, h4, h11, hd⟩ := hbad
  have hd1 : (inp t).iDOUT = true := by simpa using hd
  have hempty : received s inp t = [] := (h.inStep hgo hlast).resolve_left hstale
  have hcont : (states s inp t).cont = 0#4 := by
    obtain ⟨g, -, hf⟩ := h.frame hgo
    rw [hempty] at hf
    exact hf.cont_nil
  have hs1 : states s inp (t + 1) = clkEdge (inp t).iDOUT (states s inp t) := by
    simp only [states_succ, step, hclk]
  have hs2 : states s inp (t + 2) = clkNEdge (inp (t + 1)).iCH (states s inp (t + 1)) := by
    rw [states_succ s inp (t + 1)]
    simp only [step, hnext]
  have hs3 : states s inp (t + 3) = clkEdge (inp (t + 2)).iDOUT (states s inp (t + 2)) := by
    rw [states_succ s inp (t + 2)]
    rw [ClkAt] at hthen
    simp only [step, hthen]
  have hgo1 : (states s inp (t + 1)).goEn = true := by rw [hs1, clkEdge_goEn, hgo]
  -- the stale copy names the bit that is written
  have hbit : (clkEdge (inp t).iDOUT (states s inp t)).adcData.getLsbD
      (11 - ((states s inp t).mCont.toNat - 4)) = true := by
    rw [clkEdge_of_goEn hgo]
    refine (receive_adcData _ _ (by omega)).trans ?_
    rw [if_pos (by omega), hd1]
  have hlen : (received s inp (t + 3)).length = 2 := by
    rw [received_clk hthen, received_other (by simp [ClkAt, hnext]) (Or.inl hgo1),
      received_clk hclk, hempty]
    rfl
  rintro (hzero | ⟨k, hk, -⟩)
  · rw [hs3, hs2, hs1] at hzero
    exact led_second hgo hcont (by omega) hbit hzero
  · rw [hlen] at hk
    omega

end Stale

end AdcCtrl

open AdcCtrl in
/-- **What is published.**  From the idle state, in every run with the clocks rising in
turn and falls and rises of `iRST` and rises of `iGO` anywhere between: if no rising edge
of `iCLK` finds `go_en` high, a stale `m_cont` between 4 and 11 and a 1 on `iDOUT`, then
at every moment `led` is 0 or the top eight bits of a word received in full in one frame
since the most recent rise of `go_en`. -/
theorem adcCtrl_published (iRST : Bool) (inp : ℕ → AdcInput) (t : ℕ) (halt : Alternating inp t)
    (hok : ∀ u < t, Harmless (inp u) (states (idle iRST) inp u)) :
    Published (received (idle iRST) inp t) (oLED (states (idle iRST) inp t)) :=
  (exchange_run (fun _ _ => rfl) (exchange_idle iRST) halt
    fun u hu hclk => (hok u hu).clean hclk).published

namespace AdcCtrl

/-- Four clocks of an exchange, then `iRST` falls and rises and `iGO` rises before the
next edge of `iCLK`, and `n` clocks and a half of the new exchange. -/
def bounce (n : ℕ) : List AdcEdge :=
  [.iGO, .clock .iCLK, .clock .iCLKn, .clock .iCLK, .clock .iCLKn, .clock .iCLK, .clock .iCLKn,
    .clock .iCLK, .clock .iCLKn, .iRSTFall, .iRSTRise, .iGO, .clock .iCLK] ++
    (List.replicate n [.clock .iCLKn, .clock .iCLK]).flatten

end AdcCtrl

open AdcCtrl in
/-- With `iDOUT` low at the first edge of the new exchange and high from then on, all of
`led` is lit after its 18th edge. -/
theorem adcCtrl_published_restart :
    let inp : ℕ → AdcInput := fun t => ⟨(bounce 17).getD t .iGO, 12 < t, 0#3⟩
    Published (received (idle true) inp 47) (oLED (states (idle true) inp 47)) ∧
      oLED (states (idle true) inp 47) = 255#8 := by
  intro inp
  exact ⟨adcCtrl_published true inp 47 (by decide +kernel) (by decide +kernel), by decide +kernel⟩

open AdcCtrl in
/-- With `iDOUT` high throughout, the stale counter of 4 puts a 1 into the top bit, and
`led` shows it after the second edge of the new exchange. -/
theorem adcCtrl_partial :
    let inp : ℕ → AdcInput := fun t => ⟨(bounce 1).getD t .iGO, true, 0#3⟩
    Alternating inp 15 ∧ oLED (states (idle true) inp 15) = 128#8 ∧
      received (idle true) inp 15 = [true, true] ∧
      ¬ Published (received (idle true) inp 15) (oLED (states (idle true) inp 15)) := by
  intro inp
  have hled : oLED (states (idle true) inp 15) = 128#8 := by decide +kernel
  have hbits : received (idle true) inp 15 = [true, true] := by decide +kernel
  refine ⟨by decide +kernel, hled, hbits, ?_⟩
  rw [hled, hbits]
  rintro (hzero | ⟨k, hk, -⟩)
  · exact absurd hzero (by decide)
  · simp at hk

end BldcFpga
