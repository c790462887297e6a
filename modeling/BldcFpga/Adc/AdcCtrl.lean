import BldcFpga.Clocked.Run

/-!
# The converter interface

`ADC_CTRL.v` exchanges 16-clock frames with the converter: three bits of channel go
out, twelve bits of reading come in, and the top eight of them are shown on `led`.  It
works on both phases of the clock, and its registers also listen to `iRST` and `iGO`,
so the model takes one *edge* of any of these lines at a time.

* `AdcCtrl` — the registers, and `AdcCtrl.step`, what an edge does to them;
* `Alternating` — the clocks `iCLK` and `iCLK_n` rise in turn, in either order, with
  edges of the other lines anywhere between;
* `received` — the bits seen at the rising edges of `iCLK` since `go_en` rose.
-/

namespace BldcFpga

open Clocked

/-- The two clocks. -/
inductive SpiClock
  | iCLK
  | iCLKn
  deriving DecidableEq, Repr

instance : Fintype SpiClock where
  elems := {.iCLK, .iCLKn}
  complete := by intro c; cases c <;> decide

/-- The edges that `ADC_CTRL` is sensitive to: a clock rises, `iRST` falls or rises, or
`iGO` rises. -/
inductive AdcEdge
  | clock (c : SpiClock)
  | iRSTFall
  | iRSTRise
  | iGO
  deriving DecidableEq, Repr

/-- An edge, with the levels of `iDOUT` and `iCH` at that moment. -/
structure AdcInput where
  edge : AdcEdge
  iDOUT : Bool
  iCH : BitVec 3
  deriving DecidableEq, Repr

/-- The registers of `ADC_CTRL`, and the level of `iRST`. -/
structure AdcCtrl where
  iRST : Bool
  goEn : Bool
  cont : BitVec 4
  mCont : BitVec 4
  data : Bool
  adcData : BitVec 12
  led : BitVec 8
  deriving DecidableEq, Repr

namespace AdcCtrl

/-- `go_en` takes the value `v`.  Its fall clears `cont`, `data`, `adc_data` and `led`. -/
def setGoEn (v : Bool) (s : AdcCtrl) : AdcCtrl :=
  if s.goEn = true ∧ v = false then
    { s with goEn := false, cont := 0#4, data := false, adcData := 0#12, led := 0#8 }
  else { s with goEn := v }

/-- A word with bit `k` replaced. -/
def setBit {n : ℕ} (v : BitVec n) (k : ℕ) (b : Bool) : BitVec n :=
  BitVec.ofFnLE fun i : Fin n => if i.val = k then b else v.getLsbD i

/-- The bit of the channel that goes out while the counter shows `cont`. -/
def channelBit (cont : BitVec 4) (iCH : BitVec 3) : Bool :=
  if cont = 2#4 then iCH.getLsbD 2
  else if cont = 3#4 then iCH.getLsbD 1
  else if cont = 4#4 then iCH.getLsbD 0
  else false

/-- The receiving half at a rising edge of `iCLK`: `m_cont = 4` writes bit 11 of
`adc_data`, `5` writes bit 10, and so on to `15`, which writes bit 0; `m_cont = 1`
publishes the top eight bits. -/
def receive (iDOUT : Bool) (s : AdcCtrl) : AdcCtrl :=
  if 4 ≤ s.mCont.toNat then
    { s with adcData := setBit s.adcData (15 - s.mCont.toNat) iDOUT }
  else if s.mCont = 1#4 then { s with led := s.adcData.extractLsb' 4 8 }
  else s

/-- A rising edge of `iCLK`. -/
def clkEdge (iDOUT : Bool) (s : AdcCtrl) : AdcCtrl :=
  if s.goEn then { receive iDOUT s with cont := s.cont + 1#4 }
  else { s with cont := 0#4, adcData := 0#12, led := 0#8 }

/-- A rising edge of `iCLK_n`. -/
def clkNEdge (iCH : BitVec 3) (s : AdcCtrl) : AdcCtrl :=
  { s with
    mCont := s.cont
    data := if s.goEn then channelBit s.cont iCH else false }

/-- What an edge does. -/
def step (i : AdcInput) (s : AdcCtrl) : AdcCtrl :=
  match i.edge with
  | .clock .iCLK => clkEdge i.iDOUT s
  | .clock .iCLKn => clkNEdge i.iCH s
  | .iRSTFall => setGoEn false { s with iRST := false }
  | .iRSTRise => { s with iRST := true }
  | .iGO => setGoEn s.iRST s

/-- The output `oDIN`. -/
def oDIN (s : AdcCtrl) : Bool := s.data

/-- The output `oLED`. -/
def oLED (s : AdcCtrl) : BitVec 8 := s.led

/-- `go_en` low and every register at zero. -/
def idle (iRST : Bool) : AdcCtrl where
  iRST := iRST
  goEn := false
  cont := 0#4
  mCont := 0#4
  data := false
  adcData := 0#12
  led := 0#8

/-! ## The registers an edge leaves alone -/

@[simp] theorem receive_goEn (d : Bool) (s : AdcCtrl) : (receive d s).goEn = s.goEn := by
  unfold receive
  split_ifs <;> rfl

@[simp] theorem receive_iRST (d : Bool) (s : AdcCtrl) : (receive d s).iRST = s.iRST := by
  unfold receive
  split_ifs <;> rfl

@[simp] theorem clkEdge_goEn (d : Bool) (s : AdcCtrl) : (clkEdge d s).goEn = s.goEn := by
  unfold clkEdge
  split_ifs
  · exact receive_goEn d s
  · rfl

@[simp] theorem clkEdge_iRST (d : Bool) (s : AdcCtrl) : (clkEdge d s).iRST = s.iRST := by
  unfold clkEdge
  split_ifs
  · exact receive_iRST d s
  · rfl

@[simp] theorem clkNEdge_goEn (ch : BitVec 3) (s : AdcCtrl) : (clkNEdge ch s).goEn = s.goEn := rfl

@[simp] theorem setGoEn_goEn (v : Bool) (s : AdcCtrl) : (setGoEn v s).goEn = v := by
  unfold setGoEn
  split_ifs with h
  · exact h.2.symm
  · rfl

/-- Raising `go_en` again changes nothing. -/
theorem setGoEn_self {s : AdcCtrl} (hgo : s.goEn = true) : setGoEn true s = s := by
  unfold setGoEn
  rw [if_neg fun h => Bool.noConfusion h.2, ← hgo]

theorem getLsbD_setBit {n : ℕ} (v : BitVec n) (k : ℕ) (b : Bool) {i : ℕ} (hi : i < n) :
    (setBit v k b).getLsbD i = if i = k then b else v.getLsbD i := by
  simp [setBit, hi]

/-! ## Runs -/

section Run

variable (s : AdcCtrl) (inp : ℕ → AdcInput)

/-- The registers after `t` edges. -/
def states (t : ℕ) : AdcCtrl := run step s inp t

theorem states_succ (t : ℕ) : states s inp (t + 1) = step (inp t) (states s inp t) := rfl

/-- The clock that rose last among the first `t` edges. -/
def lastClock : ℕ → Option SpiClock
  | 0 => none
  | t + 1 =>
    match (inp t).edge with
    | .clock c => some c
    | _ => lastClock t

/-- The level of `iCH` at the latest rising edge of `iCLK_n` among the first `t` edges. -/
def lastCH : ℕ → BitVec 3
  | 0 => 0#3
  | t + 1 => if (inp t).edge = .clock .iCLKn then (inp t).iCH else lastCH t

/-- Among the first `t` edges, no clock rises twice without the other one between. -/
def Alternating (t : ℕ) : Prop :=
  ∀ u < t, ∀ c, (inp u).edge = .clock c → lastClock inp u ≠ some c

instance (t : ℕ) : Decidable (Alternating inp t) :=
  inferInstanceAs (Decidable (∀ u < t, ∀ _ : SpiClock, _ → _))

/-- Edge `t` is a rising edge of `iCLK`. -/
def ClkAt (t : ℕ) : Prop := (inp t).edge = .clock .iCLK

instance : DecidablePred (ClkAt inp) := fun _ => inferInstanceAs (Decidable (_ = _))

/-- The bits on `iDOUT` at the rising edges of `iCLK` since the most recent rise of
`go_en`, or since the start. -/
def received : ℕ → List Bool
  | 0 => []
  | t + 1 =>
    if (states s inp t).goEn = false ∧ (states s inp (t + 1)).goEn = true then []
    else if ClkAt inp t then received t ++ [(inp t).iDOUT]
    else received t

variable {s inp} {t : ℕ}

theorem lastClock_of_clock {c : SpiClock} (h : (inp t).edge = .clock c) :
    lastClock inp (t + 1) = some c := by
  simp only [lastClock, h]

theorem lastClock_of_other (h : ∀ c, (inp t).edge ≠ .clock c) :
    lastClock inp (t + 1) = lastClock inp t := by
  rw [lastClock]
  split
  · next c hc => exact absurd hc (h c)
  · rfl

/-- A rise of `go_en` forgets the bits. -/
theorem received_rise (hlow : (states s inp t).goEn = false)
    (hhigh : (states s inp (t + 1)).goEn = true) : received s inp (t + 1) = [] := by
  rw [received, if_pos ⟨hlow, hhigh⟩]

/-- An edge of `iCLK` brings one. -/
theorem received_clk (h : ClkAt inp t) :
    received s inp (t + 1) = received s inp t ++ [(inp t).iDOUT] := by
  have hgo : (states s inp (t + 1)).goEn = (states s inp t).goEn := by
    rw [ClkAt] at h
    simp only [states_succ, step, h, clkEdge_goEn]
  rw [received, hgo, if_neg (by simp), if_pos h]

/-- Any other edge keeps them. -/
theorem received_other (h : ¬ ClkAt inp t) (hgo : (states s inp t).goEn = true ∨
    (states s inp (t + 1)).goEn = false) : received s inp (t + 1) = received s inp t := by
  rw [received, if_neg, if_neg h]
  rintro ⟨hlow, hhigh⟩
  simp [hlow, hhigh] at hgo

end Run

end AdcCtrl

end BldcFpga
