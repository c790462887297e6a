import BldcFpga.Adc.Restart

/-!
# Recovery from a stale counter

The first edge of an exchange may find the counter of the old one in `m_cont`, and then
writes one bit to a place where it does not belong.  This file follows that bit.

* `OneBit` — the first edge leaves one bit at most, which is the invariant of the exchange
  again, with no assumption on what the edge finds;
* `adcCtrl_recovers` — the damage is one bit on `led`, shown from the second edge on, and
  from the 18th edge on the words are right again.
-/

namespace BldcFpga

open Clocked

namespace AdcCtrl

/-- At most one bit is set. -/
def OneBit (g : ℕ → Bool) : Prop := ∀ i k, g i = true → g k = true → i = k

theorem oneBit_none : OneBit fun _ => false := fun _ _ hi => Bool.noConfusion hi

/-- An edge writes one bit. -/
theorem oneBit_stray (d : Bool) (s : AdcCtrl) : OneBit (stray d s) := by
  intro i k hi hk
  simp only [stray, Bool.and_eq_true, decide_eq_true_eq] at hi hk
  omega

/-- **The invariant**, whatever the first edges find in `m_cont`. -/
theorem exchange_oneBit (iRST : Bool) {inp : ℕ → AdcInput} {t : ℕ} (halt : Alternating inp t) :
    Exchange OneBit (lastClock inp t) (received (idle iRST) inp t) (states (idle iRST) inp t) :=
  exchange_run oneBit_none (exchange_idle iRST) halt fun _ _ _ _ _ => oneBit_stray _ _

/-- What `led` may show, after the bits `b` of an exchange. -/
structure Shows (b : List Bool) (led : BitVec 8) : Prop where
  dark : b.length < 2 → led = 0#8
  one_bit : b.length < 18 → ∀ i < 8, ∀ k < 8, led.getMsbD i = true → led.getMsbD k = true → i = k
  word : 18 ≤ b.length → ∀ i < 8, led.getMsbD i = wordBit b ((b.length - 18) / 16) i

theorem Frame.shows {g : ℕ → Bool} {b : List Bool} {s : AdcCtrl} (hf : Frame g b s)
    (hg : OneBit g) : Shows b s.led := by
  refine ⟨fun hb => hf.led_eq_zero (by omega) fun _ _ => Or.inl hb,
    fun hb i hi k hk hli hlk => ?_, fun hb i hi => hf.led_word hb hi⟩
  rw [hf.led_getMsbD hi, if_pos hb, Bool.and_eq_true] at hli
  rw [hf.led_getMsbD hk, if_pos hb, Bool.and_eq_true] at hlk
  exact hg i k hli.2 hlk.2

theorem Exchange.shows {last : Option SpiClock} {b : List Bool} {s : AdcCtrl}
    (h : Exchange OneBit last b s) (hgo : s.goEn = true) : Shows b s.led := by
  obtain ⟨g, hg, hf⟩ := h.frame hgo
  exact hf.shows hg

end AdcCtrl

open AdcCtrl in
/-- **Recovery.**  From the idle state, in every run with the clocks rising in turn and falls
and rises of `iRST` and rises of `iGO` anywhere between, and whatever counter a new exchange
finds: while `go_en` is low `led` is 0; while it is high, `led` is 0 up to the first edge of
`iCLK`, has at most one bit set up to the 17th, and from the 18th on shows the words: word `k`
of the exchange from edge `16k + 18` to the next of these, word `(len - 18) / 16` after `len`
edges. -/
theorem adcCtrl_recovers (iRST : Bool) (inp : ℕ → AdcInput) (t : ℕ) (halt : Alternating inp t) :
    let x := states (idle iRST) inp t
    let b := received (idle iRST) inp t
    (x.goEn = false → oLED x = 0#8) ∧
    (x.goEn = true → b.length < 2 → oLED x = 0#8) ∧
    (x.goEn = true → b.length < 18 → ∀ i < 8, ∀ k < 8,
      (oLED x).getMsbD i = true → (oLED x).getMsbD k = true → i = k) ∧
    (x.goEn = true → 18 ≤ b.length → ∀ i < 8,
      (oLED x).getMsbD i = wordBit b ((b.length - 18) / 16) i) := by
  intro x b
  have h : Exchange OneBit (lastClock inp t) b x := exchange_oneBit iRST halt
  exact ⟨fun hgo => (h.cleared hgo).2.2.2, fun hgo => (h.shows hgo).dark,
    fun hgo => (h.shows hgo).one_bit, fun hgo => (h.shows hgo).word⟩

open AdcCtrl in
/-- A restart that finds the old counter at 4, with `iDOUT` high throughout: after two edges
of the new exchange one bit is lit, after 18 the whole word. -/
theorem adcCtrl_recovers_bounce :
    let inp : ℕ → AdcInput := fun t => ⟨(bounce 17).getD t .iGO, true, 0#3⟩
    (∀ i < 8, ∀ k < 8, (oLED (states (idle true) inp 15)).getMsbD i = true →
      (oLED (states (idle true) inp 15)).getMsbD k = true → i = k) ∧
    ∀ i < 8, (oLED (states (idle true) inp 47)).getMsbD i =
      wordBit (received (idle true) inp 47) 0 i := by
  intro inp
  have hlen : (received (idle true) inp 47).length = 18 := by decide +kernel
  have hlate := (adcCtrl_recovers true inp 47 (by decide +kernel)).2.2.2 (by decide +kernel) hlen.ge
  rw [hlen] at hlate
  exact ⟨(adcCtrl_recovers true inp 15 (by decide +kernel)).2.2.1 (by decide +kernel)
    (by decide +kernel), hlate⟩

end BldcFpga
