import BldcFpga.Clocked.Strobe

/-!
# The display driver

`SendCommand`, `SendData` and `SendMessage` of `hello_world_small.c` write words to the
eleven-bit port that `DE0_NANO.v` connects to the display as
`{LCD_CSn, LCD_D_cn, LCD_WEn, LCD_DATA}`.  Bit 10 is the strobe of the display, which takes
the other lines when the strobe falls.

* `sendCommand`, `sendData`, `sendMessage` — the words that the three functions write, the
  waiting in between left out;
* `Call.writes_eq` — every call writes a row of pulses, one for each byte it is to send;
* `lcd_protocol` — whatever the order of the calls, the display takes what they send, byte
  by byte, with all lines at rest around every fall of the strobe.
-/

namespace BldcFpga

open Clocked

namespace Lcd

/-! ## The port -/

/-- The register of the port keeps `writedata[10 : 0]`. -/
def dataOut (writedata : BitVec 32) : BitVec 11 := writedata.setWidth 11

/-- The line `LCD_CSn`, the strobe. -/
def csN (w : BitVec 11) : Bool := w.getLsbD 10

/-- What the display takes: `LCD_D_cn` as register select, `LCD_WEn` as read or write, and
`LCD_DATA`. -/
structure Latch where
  rs : Bool
  rw : Bool
  data : BitVec 8
  deriving DecidableEq, Repr

/-- The lines besides the strobe. -/
def lines (w : BitVec 11) : Latch := ⟨w.getLsbD 9, w.getLsbD 8, w.setWidth 8⟩

/-! ## The functions -/

/-- `SendCommand`: an argument of type `alt_u8`, promoted to `int`. -/
def sendCommand (cmd : BitVec 8) : List (BitVec 32) :=
  [0x0400#32 ||| cmd.setWidth 32, 0x0000#32 ||| cmd.setWidth 32, 0x0400#32 ||| cmd.setWidth 32]

/-- `SendData`. -/
def sendData (data : BitVec 8) : List (BitVec 32) :=
  [0x0600#32 ||| data.setWidth 32, 0x0200#32 ||| data.setWidth 32, 0x0600#32 ||| data.setWidth 32]

/-- `SendMessage`, on the memory from `msg` on.  The loop ends at a zero byte; running past
the end of the memory without one has no meaning. -/
def sendMessage : List (BitVec 8) → Option (List (BitVec 32))
  | [] => none
  | c :: msg => if c ≠ 0#8 then (sendMessage msg).map (sendData c ++ ·) else some []

/-- Memory that holds a string: its characters, a zero byte, and anything after it. -/
structure CString where
  chars : List (BitVec 8)
  nonzero : ∀ c ∈ chars, c ≠ 0#8
  rest : List (BitVec 8)

/-- The bytes of the memory. -/
def CString.memory (s : CString) : List (BitVec 8) := s.chars ++ 0#8 :: s.rest

/-- The loop sends the characters of the string and stops. -/
theorem sendMessage_memory (s : CString) :
    sendMessage s.memory = some (s.chars.flatMap sendData) := by
  obtain ⟨chars, hchars, rest⟩ := s
  rw [CString.memory]
  induction chars with
  | nil => rfl
  | cons c chars ih =>
    have hc : c ≠ 0#8 := hchars c (by simp)
    have htail := ih fun d hd => hchars d (by simp [hd])
    simp only [List.cons_append, sendMessage, if_pos hc, htail, Option.map_some,
      List.flatMap_cons]

/-- The calls of the three functions. -/
inductive Call where
  | sendCommand (cmd : BitVec 8)
  | sendData (data : BitVec 8)
  | sendMessage (msg : CString)

/-- The words that a call writes. -/
def Call.writes : Call → Option (List (BitVec 32))
  | .sendCommand cmd => some (Lcd.sendCommand cmd)
  | .sendData data => some (Lcd.sendData data)
  | .sendMessage msg => Lcd.sendMessage msg.memory

/-- The words that a sequence of calls writes. -/
def program : List Call → Option (List (BitVec 32))
  | [] => some []
  | call :: calls => do
    let ws ← call.writes
    let rest ← program calls
    return ws ++ rest

/-- What a call is to send. -/
def Call.sends : Call → List Latch
  | .sendCommand cmd => [⟨false, false, cmd⟩]
  | .sendData data => [⟨true, false, data⟩]
  | .sendMessage msg => msg.chars.map fun c => ⟨true, false, c⟩

/-! ## Calls as pulses -/

/-- The control lines of a word, with the strobe and the register select given. -/
def control (strobe rs : Bool) : BitVec 3 := BitVec.ofBool strobe ++ BitVec.ofBool rs ++ 0#1

@[simp] theorem csN_control (strobe rs : Bool) (b : BitVec 8) :
    csN (control strobe rs ++ b) = strobe := by
  have hbit : (control strobe rs ++ b).getLsbD 10 = (control strobe rs).getLsbD 2 := by
    rw [BitVec.getLsbD_append, if_neg (by decide)]
  refine hbit.trans ?_
  cases strobe <;> cases rs <;> rfl

@[simp] theorem lines_control (strobe rs : Bool) (b : BitVec 8) :
    lines (control strobe rs ++ b) = ⟨rs, false, b⟩ := by
  have hrs : (control strobe rs ++ b).getLsbD 9 = rs := by
    rw [BitVec.getLsbD_append, if_neg (by decide)]
    cases strobe <;> cases rs <;> rfl
  have hrw : (control strobe rs ++ b).getLsbD 8 = false := by
    rw [BitVec.getLsbD_append, if_neg (by decide)]
    cases strobe <;> cases rs <;> rfl
  have hdata : (control strobe rs ++ b).setWidth 8 = b := BitVec.setWidth_append_eq_right
  exact congr (congrArg₂ Latch.mk hrs hrw) hdata

/-- The pulse of a byte, for the command register or the data register. -/
def bytePulse (rs : Bool) (b : BitVec 8) : Pulse csN lines where
  before := control true rs ++ b
  fall := control false rs ++ b
  after := control true rs ++ b
  strobe_before := by simp
  strobe_fall := by simp
  strobe_after := by simp
  payload_before := by simp
  payload_after := by simp

@[simp] theorem lines_bytePulse (rs : Bool) (b : BitVec 8) :
    lines (bytePulse rs b).fall = ⟨rs, false, b⟩ := by
  simp [bytePulse]

set_option maxRecDepth 4000 in
theorem sendCommand_eq :
    ∀ cmd : BitVec 8, (sendCommand cmd).map dataOut = (bytePulse false cmd).words := by
  decide +kernel

set_option maxRecDepth 4000 in
theorem sendData_eq :
    ∀ data : BitVec 8, (sendData data).map dataOut = (bytePulse true data).words := by
  decide +kernel

/-- The pulses of a call. -/
def Call.pulses : Call → List (Pulse csN lines)
  | .sendCommand cmd => [bytePulse false cmd]
  | .sendData data => [bytePulse true data]
  | .sendMessage msg => msg.chars.map (bytePulse true)

/-- Every call returns, and the port shows its pulses. -/
theorem Call.writes_eq (call : Call) :
    ∃ ws, call.writes = some ws ∧ ws.map dataOut = call.pulses.flatMap Pulse.words := by
  cases call with
  | sendCommand cmd =>
    refine ⟨_, rfl, ?_⟩
    simp [sendCommand_eq, Call.pulses]
  | sendData data =>
    refine ⟨_, rfl, ?_⟩
    simp [sendData_eq, Call.pulses]
  | sendMessage msg =>
    refine ⟨_, sendMessage_memory msg, ?_⟩
    rw [Call.pulses, List.flatMap_map, List.map_flatMap]
    exact List.flatMap_congr fun c _ => sendData_eq c

/-- The pulses of a call carry what it is to send. -/
theorem Call.pulses_sends (call : Call) :
    (call.pulses.map fun p => lines p.fall) = call.sends := by
  cases call with
  | sendCommand cmd => simp [Call.pulses, Call.sends]
  | sendData data => simp [Call.pulses, Call.sends]
  | sendMessage msg => simp [Call.pulses, Call.sends, Function.comp_def]

/-- A sequence of calls returns, and the port shows their pulses in order. -/
theorem program_eq (calls : List Call) :
    ∃ ws, program calls = some ws ∧
      ws.map dataOut = (calls.flatMap Call.pulses).flatMap Pulse.words := by
  induction calls with
  | nil => exact ⟨[], rfl, rfl⟩
  | cons call calls ih =>
    obtain ⟨ws, hws, hport⟩ := call.writes_eq
    obtain ⟨rest, hrest, hports⟩ := ih
    refine ⟨ws ++ rest, by simp [program, hws, hrest], ?_⟩
    rw [List.map_append, hport, hports, List.flatMap_cons, List.flatMap_append]

end Lcd

open Lcd in
/-- **The protocol of the display.**  For every word on the port before and every sequence of
calls, with any bytes and any strings: the calls return, the display takes exactly what
they send, in the order of the calls and byte by byte, and wherever the strobe falls the
other lines are the same in the word before, in the word of the fall and in the word after
it. -/
theorem lcd_protocol (w : BitVec 11) (calls : List Call) :
    ∃ ws, program calls = some ws ∧
      latched csN lines w (ws.map dataOut) = calls.flatMap Call.sends ∧
      Held csN lines (w :: ws.map dataOut) := by
  obtain ⟨ws, hws, hport⟩ := program_eq calls
  refine ⟨ws, hws, ?_, ?_⟩
  · rw [hport, latched_pulses, List.map_flatMap]
    exact List.flatMap_congr fun call _ => call.pulses_sends
  · rw [hport]
    exact held_pulses (calls.flatMap Call.pulses) w

/-- The function set command and a character, with the strobe high at first. -/
example :
    (Lcd.program [.sendCommand 0x38#8, .sendData 0x52#8]).map
        (fun ws => latched Lcd.csN Lcd.lines 0x7ff#11 (ws.map Lcd.dataOut)) =
      some [⟨false, false, 0x38#8⟩, ⟨true, false, 0x52#8⟩] := by decide

end BldcFpga
