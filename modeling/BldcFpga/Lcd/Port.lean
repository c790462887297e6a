import BldcFpga.Clocked.Run
import BldcFpga.Lcd.Display

/-!
# The ports of the firmware, clock by clock

`nios2_proc_speed_ref.v` and `nios2_proc_LCD.v` are registers on the bus of the processor.
The display does not see the writes to its port but the lines, at every clock, and most cycles
of the bus are none of its business.

* `ReadCycle`, `speedRef` — the register that the speed is read from;
* `BusCycle`, `portStep` — a cycle of the bus, and what it does to the register of the display;
* `written` — the words written to it;
* `lcd_port` — what the display takes from the lines is what it would take from the words
  written, so it shows what `main` writes at every clock and with any other traffic.
-/

namespace BldcFpga

open Clocked

namespace Lcd

/-! ## Reading -/

/-- What the bus shows the port `speed_ref`. -/
structure ReadCycle where
  resetN : Bool
  address : BitVec 2
  deriving DecidableEq, Repr

/-- The register `readdata` of that port after a rising edge of `clk`, or while `reset_n` is
low, for the levels on `in_port`. -/
def speedRef (b : ReadCycle) (inPort : BitVec 10) : BitVec 32 :=
  if b.resetN = false then 0#32
  else 0#32 ||| (if b.address = 0#2 then inPort else 0#10).setWidth 32

/-- The word read is the speed. -/
theorem toInt_speedRef {b : ReadCycle} (hreset : b.resetN = true) (haddress : b.address = 0#2)
    (inPort : BitVec 10) : (speedRef b inPort).toInt = inPort.toNat := by
  have hword : (speedRef b inPort).toNat = inPort.toNat := by
    rw [speedRef, if_neg (by simp [hreset]), if_pos haddress]
    simp [Nat.mod_eq_of_lt (show inPort.toNat < 4294967296 by omega)]
  rw [BitVec.toInt_eq_toNat_of_lt (by omega), hword]

/-! ## Writing -/

/-- What the bus shows the port of the display at a rising edge of `clk`. -/
structure BusCycle where
  resetN : Bool
  address : BitVec 2
  chipselect : Bool
  writeN : Bool
  writedata : BitVec 32
  deriving DecidableEq, Repr

/-- A write to the register. -/
def BusCycle.Writes (b : BusCycle) : Prop :=
  b.chipselect = true ∧ b.writeN = false ∧ b.address = 0#2

instance (b : BusCycle) : Decidable b.Writes := inferInstanceAs (Decidable (_ ∧ _ ∧ _))

/-- The register at a rising edge of `clk`. -/
def portStep (b : BusCycle) (port : BitVec 11) : BitVec 11 :=
  if b.resetN = false then 0#11
  else if b.Writes then dataOut b.writedata else port

section Run

variable (port : BitVec 11) (bus : ℕ → BusCycle)

/-- The lines after `t` clocks. -/
def outPort (t : ℕ) : BitVec 11 := run portStep port bus t

/-- The lines at the successive clocks, up to the `t`-th. -/
def observed : ℕ → List (BitVec 11)
  | 0 => []
  | t + 1 => observed t ++ [outPort port bus (t + 1)]

/-- The words written in the first `t` cycles. -/
def written : ℕ → List (BitVec 32)
  | 0 => []
  | t + 1 => written t ++ if (bus t).Writes then [(bus t).writedata] else []

variable {port bus} (hreset : ∀ t, (bus t).resetN = true)

include hreset

theorem outPort_succ (t : ℕ) :
    outPort port bus (t + 1) =
      if (bus t).Writes then dataOut (bus t).writedata else outPort port bus t := by
  rw [outPort, run_succ, portStep, if_neg (by simp [hreset t])]
  rfl

/-- **Refinement.**  After every clock both streams have been taken alike, and end with the
word that stands on the lines. -/
theorem latched_observed (t : ℕ) :
    latched csN lines port (observed port bus t) =
        latched csN lines port ((written bus t).map dataOut) ∧
      standing port (observed port bus t) = outPort port bus t ∧
      standing port ((written bus t).map dataOut) = outPort port bus t := by
  induction t with
  | zero => exact ⟨rfl, rfl, rfl⟩
  | succ t ih =>
    obtain ⟨htaken, hseen, hwritten⟩ := ih
    rw [observed, written, outPort_succ hreset]
    by_cases hw : (bus t).Writes
    · rw [if_pos hw, if_pos hw, List.map_append, List.map_singleton]
      refine ⟨?_, standing_concat _ _ _, standing_concat _ _ _⟩
      rw [latched_concat, latched_concat, htaken, hseen, hwritten]
    · rw [if_neg hw, if_neg hw, List.append_nil, ← hseen]
      exact ⟨(latched_again _ _).trans htaken, standing_concat _ _ _, hwritten.trans hseen.symm⟩

end Run

end Lcd

open Lcd in
/-- **The display on the bus.**  For every word in the register before, and every sequence of
bus cycles without a reset: clock by clock the display takes from the lines what it would
take from the words written, however many clocks lie between two writes and whatever else
the bus does.  So if the words written up to clock `t` are those of `main` up to anywhere in
turn `n`, the display then shows a beginning of the line of the current turn; and if the
next thing it takes is the command that clears it after a turn, the whole line. -/
theorem lcd_port (port : BitVec 11) (bus : ℕ → BusCycle) (hreset : ∀ t, (bus t).resetN = true)
    (t : ℕ) :
    let taken := fun k => latched csN lines port (observed port bus k)
    taken t = latched csN lines port ((written bus t).map dataOut) ∧
    ∀ readdata n str ws, main readdata n = some (str, ws) → written bus t <+: ws →
      (screen (taken t) <+: line (readdata ((taken t).count clear - 1))) ∧
      ∀ k < t, taken t = taken k ++ [clear] → 1 ≤ (taken k).count clear →
        screen (taken k) = line (readdata ((taken k).count clear - 1)) := by
  intro taken
  have htaken : ∀ k, taken k = latched csN lines port ((written bus k).map dataOut) := fun k =>
    (latched_observed hreset k).1
  refine ⟨htaken t, fun readdata n str ws hmain hws => ?_⟩
  have hprefix : taken t <+: preamble ++ framed clear (shownTurns readdata n) := by
    rw [htaken, ← latched_main hmain port]
    exact latched_prefix (hws.map dataOut) port
  refine ⟨screen_beginning hprefix, fun k _ hk hone => ?_⟩
  rw [hk] at hprefix
  exact (screen_of_clear hprefix hone).2

namespace Lcd

/-- A bus that writes the words `ws` one after the other, and nothing later. -/
def writing (ws : List (BitVec 32)) (k : ℕ) : BusCycle :=
  ⟨true, 0#2, decide (k < ws.length), false, ws.getD k 0#32⟩

theorem written_writing (ws : List (BitVec 32)) (t : ℕ) : written (writing ws) t = ws.take t := by
  induction t with
  | zero => rfl
  | succ t ih =>
    rw [written, ih]
    by_cases ht : t < ws.length
    · rw [List.take_succ_eq_append_getElem ht, if_pos (by simp [BusCycle.Writes, writing, ht])]
      simp [writing, ht]
    · rw [if_neg (by simp [BusCycle.Writes, writing, ht]), List.take_of_length_le (by omega),
        List.take_of_length_le (by omega), List.append_nil]

end Lcd

open Lcd in
/-- One turn at a speed of 7: after 24 words the display shows `RPM:`, and before the last three
of the 33 the whole line. -/
theorem lcd_port_writing :
    let ws := ((main (fun _ => 7#32) 1).getD ([], [])).2
    let taken := fun k => latched csN lines 0#11 (observed 0#11 (writing ws) k)
    screen (taken 24) = [0x52#8, 0x50#8, 0x4d#8, 0x3a#8] ∧ screen (taken 24) <+: line 7#32 ∧
      screen (taken 30) = line 7#32 := by
  intro ws taken
  have hmain : main (fun _ => 7#32) 1 = some (55#8 :: List.replicate 9 0#8, ws) := by
    decide +kernel
  have hport : ∀ t, written (writing ws) t <+: ws := fun t => by
    rw [written_writing]
    exact List.take_prefix t ws
  refine ⟨by decide +kernel, ?_, ?_⟩
  · exact ((lcd_port 0#11 (writing ws) (fun _ => rfl) 24).2 _ 1 _ ws hmain (hport 24)).1
  · exact ((lcd_port 0#11 (writing ws) (fun _ => rfl) 33).2 _ 1 _ ws hmain (hport 33)).2 30
      (by decide) (by decide +kernel) (by decide +kernel)

end BldcFpga
