import BldcFpga.Clocked.Framing
import BldcFpga.Lcd.Firmware

/-!
# What the display shows

`main` of `hello_world_small.c` initialises the display and then, for ever, reads the speed,
writes `RPM: ` and the speed in decimal, and clears the display.

* `turn`, `main` — the words that the event loop writes, with the array `str` and the ways
  in which `sprintf` can run past its end;
* `screen` — what is on the display: the characters since it was cleared;
* `main_isSome_iff` — the event loop has a meaning as long as every speed has at most nine
  characters;
* `lcd_display` — at every moment the display shows a beginning of the line of the current
  turn, and the whole line when the display is cleared.
-/

namespace BldcFpga

open Clocked

namespace Lcd

/-! ## The event loop -/

/-- The characters of a number: decimal digits, the most significant first. -/
def numeral (n : ℕ) : List (BitVec 8) :=
  if n = 0 then [48#8] else (Nat.digits 10 n).reverse.map fun d => BitVec.ofNat 8 (48 + d)

/-- The conversion `%d`. -/
def percentD (v : ℤ) : List (BitVec 8) :=
  if v < 0 then 45#8 :: numeral v.natAbs else numeral v.natAbs

/-- `sprintf(str, "%d", v)`: the characters and a zero byte, over the beginning of `str`.
Running past the end of `str` has no meaning. -/
def sprintf (str : List (BitVec 8)) (v : ℤ) : Option (List (BitVec 8)) :=
  if (percentD v).length < str.length then
    some (percentD v ++ 0#8 :: str.drop ((percentD v).length + 1))
  else none

/-- The characters `RPM: `. -/
def label : List (BitVec 8) := [0x52#8, 0x50#8, 0x4d#8, 0x3a#8, 0x20#8]

/-- One turn of the event loop on the word read: the new contents of `str`, and the words
written to the display. -/
def turn (readdata : BitVec 32) (str : List (BitVec 8)) :
    Option (List (BitVec 8) × List (BitVec 32)) := do
  let str ← sprintf str readdata.toInt
  let message ← sendMessage (label ++ [0#8])
  let number ← sendMessage str
  return (str, message ++ number ++ sendCommand 0x01#8)

/-- `main` up to the end of turn `n`, where `readdata i` is what turn `i` reads. -/
def main (readdata : ℕ → BitVec 32) : ℕ → Option (List (BitVec 8) × List (BitVec 32))
  | 0 => some (List.replicate 10 0#8,
      sendCommand 0x38#8 ++ sendCommand 0x0f#8 ++ sendCommand 0x01#8 ++ sendCommand 0x06#8)
  | n + 1 => do
    let (str, ws) ← main readdata n
    let (str, more) ← turn (readdata n) str
    return (str, ws ++ more)

/-! ## Numerals -/

theorem mem_numeral {n : ℕ} {c : BitVec 8} (hc : c ∈ numeral n) : 48 ≤ c.toNat := by
  unfold numeral at hc
  split_ifs at hc with hn
  · rw [List.mem_singleton.1 hc]
    decide
  · rw [List.mem_map] at hc
    obtain ⟨d, hd, rfl⟩ := hc
    have hlt : d < 10 := Nat.digits_lt_base (by decide) (List.mem_reverse.1 hd)
    rw [BitVec.toNat_ofNat]
    omega

theorem percentD_ne_zero (v : ℤ) : ∀ c ∈ percentD v, c ≠ 0#8 := by
  rintro c hc rfl
  unfold percentD at hc
  split_ifs at hc
  · rcases List.mem_cons.1 hc with hsign | hdigit
    · exact absurd hsign (by decide)
    · exact absurd (mem_numeral hdigit) (by decide)
  · exact absurd (mem_numeral hc) (by decide)

/-- A number has at most `k` characters when it is below the power of ten. -/
theorem length_numeral_le_iff {k : ℕ} (hk : 1 ≤ k) (n : ℕ) :
    (numeral n).length ≤ k ↔ n < 10 ^ k := by
  unfold numeral
  split_ifs with hn
  · subst hn
    simpa using hk
  · rw [List.length_map, List.length_reverse, Nat.digits_length_le_iff (by decide)]

/-- The words that the array `str` has room for. -/
def Fits (readdata : BitVec 32) : Prop :=
  -99999999 ≤ readdata.toInt ∧ readdata.toInt ≤ 999999999

instance (readdata : BitVec 32) : Decidable (Fits readdata) :=
  inferInstanceAs (Decidable (_ ∧ _))

theorem length_percentD_lt_iff (readdata : BitVec 32) :
    (percentD readdata.toInt).length < 10 ↔ Fits readdata := by
  unfold percentD Fits
  split_ifs with hv
  · have hlen := length_numeral_le_iff (k := 8) (by decide) readdata.toInt.natAbs
    rw [List.length_cons]
    omega
  · have hlen := length_numeral_le_iff (k := 9) (by decide) readdata.toInt.natAbs
    omega

/-- The number that a reader makes of the digits. -/
def value (cs : List (BitVec 8)) : ℕ := cs.foldl (fun v c => 10 * v + (c.toNat - 48)) 0

theorem value_numeral (n : ℕ) : value (numeral n) = n := by
  unfold value numeral
  split_ifs with hn
  · rw [hn]
    rfl
  · rw [List.foldl_map, List.foldl_reverse]
    calc (Nat.digits 10 n).foldr (fun d v => 10 * v + ((BitVec.ofNat 8 (48 + d)).toNat - 48)) 0
        = (Nat.digits 10 n).foldr (fun d v => d + 10 * v) 0 := by
          refine List.foldr_ext _ _ _ fun d hd v => ?_
          have hlt : d < 10 := Nat.digits_lt_base (by decide) hd
          rw [BitVec.toNat_ofNat]
          omega
      _ = n := (Nat.ofDigits_eq_foldr 10 _).symm.trans (Nat.ofDigits_digits 10 n)

/-- **Different numbers look different.** -/
theorem percentD_injective {v v' : ℤ} (h : percentD v = percentD v') : v = v' := by
  have hsign : ∀ n m : ℕ, 45#8 :: numeral n ≠ numeral m := fun n m heq =>
    absurd (mem_numeral (heq ▸ List.mem_cons_self)) (by decide)
  have habs : ∀ n m : ℕ, numeral n = numeral m → n = m := fun n m heq => by
    rw [← value_numeral n, heq, value_numeral]
  unfold percentD at h
  split_ifs at h
  · have := habs _ _ (List.cons.inj h).2
    omega
  · exact absurd h (hsign _ _)
  · exact absurd h.symm (hsign _ _)
  · have := habs _ _ h
    omega

/-! ## The turns as calls -/

theorem program_append {calls calls' : List Call} {ws ws' : List (BitVec 32)}
    (h : program calls = some ws) (h' : program calls' = some ws') :
    program (calls ++ calls') = some (ws ++ ws') := by
  induction calls generalizing ws with
  | nil =>
    rw [← Option.some.inj h]
    exact h'
  | cons call calls ih =>
    obtain ⟨w, hw, -⟩ := call.writes_eq
    obtain ⟨rest, hrest, -⟩ := program_eq calls
    simp only [program, hw, hrest, Option.bind_eq_bind, Option.bind_some, Option.pure_def,
      Option.some.injEq] at h
    simp [program, hw, ih hrest, ← h]

/-- The command that clears the display. -/
def clear : Latch := ⟨false, false, 0x01#8⟩

/-- The line for the word `readdata`. -/
def line (readdata : BitVec 32) : List (BitVec 8) := label ++ percentD readdata.toInt

/-- A character, as the display takes it. -/
def character (c : BitVec 8) : Latch := ⟨true, false, c⟩

theorem turn_of_fits {readdata : BitVec 32} {str : List (BitVec 8)} (hstr : str.length = 10)
    (hfit : Fits readdata) :
    ∃ str' ws calls, turn readdata str = some (str', ws) ∧ str'.length = 10 ∧
      program calls = some ws ∧
      calls.flatMap Call.sends = (line readdata).map character ++ [clear] := by
  have hlen : (percentD readdata.toInt).length < str.length := by
    rw [hstr]
    exact (length_percentD_lt_iff readdata).2 hfit
  let message : CString := ⟨label, by decide, []⟩
  let number : CString := ⟨percentD readdata.toInt, percentD_ne_zero _,
    str.drop ((percentD readdata.toInt).length + 1)⟩
  have hprint : sprintf str readdata.toInt = some number.memory := if_pos hlen
  have hmessage : sendMessage (label ++ [0#8]) = some (message.chars.flatMap sendData) :=
    sendMessage_memory message
  have hnumber := sendMessage_memory number
  refine ⟨number.memory, message.chars.flatMap sendData ++ number.chars.flatMap sendData ++
    sendCommand 0x01#8, [.sendMessage message, .sendMessage number, .sendCommand 0x01#8],
    ?_, ?_, ?_, ?_⟩
  · rw [turn, hprint]
    simp only [Option.bind_eq_bind, Option.bind_some, hmessage, hnumber, Option.pure_def]
  · rw [CString.memory, List.length_append, List.length_cons, List.length_drop]
    show (percentD readdata.toInt).length + _ = 10
    omega
  · have hfirst : sendMessage message.memory = _ := hmessage
    simp [program, Call.writes, hfirst, hnumber]
  · rw [line, List.map_append, List.append_assoc]
    rfl

theorem turn_of_not_fits {readdata : BitVec 32} {str : List (BitVec 8)} (hstr : str.length = 10)
    (hno : ¬ Fits readdata) : turn readdata str = none := by
  have hlen : ¬ (percentD readdata.toInt).length < str.length := by
    rwa [hstr, length_percentD_lt_iff readdata]
  rw [turn, sprintf, if_neg hlen]
  rfl

section Main

variable {readdata : ℕ → BitVec 32} {n : ℕ}

/-- What the display takes in the first `n` turns. -/
def shownTurns (readdata : ℕ → BitVec 32) (n : ℕ) : List (List Latch) :=
  (List.range n).map fun i => (line (readdata i)).map character

theorem shownTurns_succ : shownTurns readdata (n + 1) =
    shownTurns readdata n ++ [(line (readdata n)).map character] := by
  simp [shownTurns, List.range_succ]

/-- What it takes before the first turn. -/
def preamble : List Latch :=
  [⟨false, false, 0x38#8⟩, ⟨false, false, 0x0f#8⟩, clear, ⟨false, false, 0x06#8⟩]

/-- The event loop runs while the words fit. -/
theorem main_of_fits (hfit : ∀ i < n, Fits (readdata i)) :
    ∃ str ws calls, main readdata n = some (str, ws) ∧ str.length = 10 ∧
      program calls = some ws ∧
      calls.flatMap Call.sends = preamble ++ framed clear (shownTurns readdata n) := by
  induction n with
  | zero =>
    exact ⟨_, _, [.sendCommand 0x38#8, .sendCommand 0x0f#8, .sendCommand 0x01#8,
      .sendCommand 0x06#8], rfl, rfl, rfl, rfl⟩
  | succ n ih =>
    obtain ⟨str, ws, calls, hmain, hstr, hcalls, hsends⟩ := ih fun i hi => hfit i (by omega)
    obtain ⟨str', ws', calls', hturn, hstr', hcalls', hsends'⟩ :=
      turn_of_fits hstr (hfit n (Nat.lt_succ_self n))
    refine ⟨str', ws ++ ws', calls ++ calls', ?_, hstr', program_append hcalls hcalls', ?_⟩
    · simp [main, hmain, hturn]
    · rw [List.flatMap_append, hsends, hsends', shownTurns_succ, framed_append,
        List.append_assoc]
      simp

/-- And stops to have a meaning at the first that does not. -/
theorem main_of_not_fits {i : ℕ} (hi : i < n) (hno : ¬ Fits (readdata i)) :
    main readdata n = none := by
  induction n generalizing i with
  | zero => exact absurd hi (Nat.not_lt_zero i)
  | succ n ih =>
    by_cases hfit : ∀ k < n, Fits (readdata k)
    · obtain ⟨str, ws, -, hmain, hstr, -, -⟩ := main_of_fits hfit
      have hlast : ¬ Fits (readdata n) := by
        rcases Nat.lt_succ_iff_lt_or_eq.1 hi with hlt | rfl
        · exact absurd (hfit i hlt) hno
        · exact hno
      simp [main, hmain, turn_of_not_fits hstr hlast]
    · push Not at hfit
      obtain ⟨k, hk, hnk⟩ := hfit
      simp [main, ih hk hnk]

/-- The event loop has a meaning as long as the words fit. -/
theorem main_isSome_iff :
    (∃ str ws, main readdata n = some (str, ws)) ↔ ∀ i < n, Fits (readdata i) := by
  constructor
  · rintro ⟨str, ws, hmain⟩ i hi
    by_contra hno
    rw [main_of_not_fits hi hno] at hmain
    exact absurd hmain.symm (Option.some_ne_none _)
  · intro hfit
    obtain ⟨str, ws, -, hmain, -⟩ := main_of_fits hfit
    exact ⟨str, ws, hmain⟩

/-- What the display takes from `main`. -/
theorem latched_main {str : List (BitVec 8)} {ws : List (BitVec 32)}
    (hmain : main readdata n = some (str, ws)) (w : BitVec 11) :
    latched csN lines w (ws.map dataOut) = preamble ++ framed clear (shownTurns readdata n) := by
  obtain ⟨str', ws', calls, hmain', -, hcalls, hsends⟩ :=
    main_of_fits (main_isSome_iff.1 ⟨str, ws, hmain⟩)
  obtain ⟨-, rfl⟩ := Prod.mk.inj (Option.some.inj (hmain.symm.trans hmain'))
  obtain ⟨ws', hws', hport⟩ := program_eq calls
  obtain rfl := Option.some.inj (hcalls.symm.trans hws')
  rw [hport, latched_pulses, List.map_flatMap, ← hsends]
  exact List.flatMap_congr fun call _ => call.pulses_sends

/-- What the display has taken after the first `k` words of `ws`. -/
def taken (w : BitVec 11) (ws : List (BitVec 32)) (k : ℕ) : List Latch :=
  latched csN lines w ((ws.map dataOut).take k)

theorem taken_length {str : List (BitVec 8)} {ws : List (BitVec 32)}
    (hmain : main readdata n = some (str, ws)) (w : BitVec 11) :
    taken w ws ws.length = preamble ++ framed clear (shownTurns readdata n) := by
  rw [← latched_main hmain w]
  exact congrArg (latched csN lines w) (List.take_of_length_le (by rw [List.length_map]))

theorem taken_beginning {str : List (BitVec 8)} {ws : List (BitVec 32)}
    (hmain : main readdata n = some (str, ws)) (w : BitVec 11) (k : ℕ) :
    taken w ws k <+: preamble ++ framed clear (shownTurns readdata n) := by
  rw [← latched_main hmain w]
  exact latched_prefix (List.take_prefix k _) w

end Main

/-! ## The display -/

/-- The character that an item adds to the line. -/
def Latch.shown (l : Latch) : Option (BitVec 8) :=
  if l.rs = true ∧ l.rw = false then some l.data else none

/-- What is on the display: clearing removes everything, a character is added at the end. -/
def screen (ls : List Latch) : List (BitVec 8) :=
  ls.foldl (fun text l => if l = clear then [] else text ++ l.shown.toList) []

@[simp] theorem screen_concat (ls : List Latch) (l : Latch) :
    screen (ls ++ [l]) = if l = clear then [] else screen ls ++ l.shown.toList := by
  rw [screen, List.foldl_append]
  rfl

/-- The characters since the display was cleared. -/
theorem screen_eq (ls : List Latch) : screen ls = (since clear ls).filterMap Latch.shown := by
  induction ls using List.reverseRec with
  | nil => rfl
  | append_singleton ls l ih =>
    rw [since_concat, screen_concat, ih]
    split_ifs
    · rfl
    · rw [List.filterMap_append]
      cases hl : l.shown <;> simp [hl]

theorem filterMap_shown_character (cs : List (BitVec 8)) :
    (cs.map character).filterMap Latch.shown = cs := by
  rw [List.filterMap_map]
  exact List.filterMap_some

section Screen

variable {readdata : ℕ → BitVec 32} {n : ℕ} {seen : List Latch}

/-- The initialisation leaves the display empty. -/
theorem screen_preamble (q : List Latch) : screen (preamble ++ q) = screen q := by
  rw [screen, List.foldl_append]
  rfl

theorem count_preamble (q : List Latch) : (preamble ++ q).count clear = q.count clear + 1 := by
  rw [List.count_append, Nat.add_comm]
  rfl

theorem clear_not_mem : ∀ m ∈ shownTurns readdata n, clear ∉ m := by
  simp [shownTurns, character, clear]

/-- The display is cleared once for every turn and once before. -/
theorem count_turns : (preamble ++ framed clear (shownTurns readdata n)).count clear = n + 1 := by
  rw [count_preamble, count_framed clear_not_mem, shownTurns, List.length_map, List.length_range]

/-- What message `i` puts on the display. -/
theorem shown_shownTurns {i : ℕ} (hi : i < n) :
    ((shownTurns readdata n).getD i []).filterMap Latch.shown = line (readdata i) := by
  rw [List.getD_eq_getElem _ _ (by simpa [shownTurns] using hi)]
  simp only [shownTurns, List.getElem_map, List.getElem_range]
  exact filterMap_shown_character _

/-- **At every moment** the display shows a beginning of the current line. -/
theorem screen_beginning (h : seen <+: preamble ++ framed clear (shownTurns readdata n)) :
    screen seen <+: line (readdata (seen.count clear - 1)) := by
  rcases List.prefix_or_prefix_of_prefix h (List.prefix_append preamble _) with hpre | ⟨q, rfl⟩
  · have hempty : ∀ k ≤ 4, screen (preamble.take k) = [] := by decide
    have hle : seen.length ≤ 4 := hpre.length_le
    rw [List.prefix_iff_eq_take.1 hpre, hempty _ hle]
    exact List.nil_prefix
  · rw [List.prefix_append_right_inj] at h
    obtain ⟨hle, hq⟩ := since_prefix clear_not_mem h
    rw [screen_preamble, count_preamble, Nat.add_sub_cancel, screen_eq]
    rcases hle.lt_or_eq with hlt | heq
    · rw [← shown_shownTurns (by simpa [shownTurns] using hlt)]
      exact hq.filterMap _
    · rw [List.getD_eq_default _ _ heq.ge, List.prefix_nil] at hq
      rw [hq]
      exact List.nil_prefix

/-- **Lines are complete** when the display is cleared. -/
theorem screen_of_clear (h : seen ++ [clear] <+: preamble ++ framed clear (shownTurns readdata n))
    (hone : 1 ≤ seen.count clear) :
    seen.count clear - 1 < n ∧ screen seen = line (readdata (seen.count clear - 1)) := by
  rcases List.prefix_or_prefix_of_prefix h (List.prefix_append preamble _) with hpre | ⟨q, hq⟩
  · have hcount : (seen ++ [clear]).count clear ≤ preamble.count clear := hpre.sublist.count_le _
    rw [List.count_append, List.count_singleton_self] at hcount
    have : preamble.count clear = 1 := by decide
    omega
  · cases q using List.reverseRec with
    | nil =>
      -- the last item of the initialisation is not the one that clears
      have hlast := congrArg List.getLast? hq
      simp [preamble, clear] at hlast
    | append_singleton q l _ =>
      rw [← List.append_assoc] at hq
      obtain ⟨rfl, -⟩ := List.append_inj' hq rfl
      rw [List.append_assoc, List.prefix_append_right_inj] at h
      obtain ⟨hlt, hwhole⟩ := since_closed clear_not_mem h
      have hlt : q.count clear < n := by simpa [shownTurns] using hlt
      rw [screen_preamble, count_preamble, Nat.add_sub_cancel, screen_eq, hwhole,
        shown_shownTurns hlt]
      exact ⟨hlt, rfl⟩

end Screen

end Lcd

open Lcd in
/-- **What the display shows.**  For every word on the port before and all words read from
`speed_ref`: the event loop runs for `n` turns without overrunning `str` exactly when the
first `n` words, as signed numbers, lie between -99999999 and 999999999.  Then the display
is cleared once before the first turn and once at the end of each; after every write it
shows a beginning of `RPM: ` and the number of the current turn; and whenever it is cleared
at the end of a turn it shows all of it.  No two words give the same line. -/
theorem lcd_display (w : BitVec 11) (readdata : ℕ → BitVec 32) (n : ℕ) :
    ((∃ str ws, main readdata n = some (str, ws)) ↔ ∀ i < n, Fits (readdata i)) ∧
    (∀ str ws, main readdata n = some (str, ws) →
      (taken w ws ws.length).count clear = n + 1 ∧
      (∀ k, screen (taken w ws k) <+: line (readdata ((taken w ws k).count clear - 1))) ∧
      ∀ k, taken w ws k ++ [clear] <+: taken w ws ws.length → 1 ≤ (taken w ws k).count clear →
        (taken w ws k).count clear - 1 < n ∧
          screen (taken w ws k) = line (readdata ((taken w ws k).count clear - 1))) ∧
    ∀ v v' : BitVec 32, line v = line v' → v = v' := by
  refine ⟨main_isSome_iff, fun str ws hmain => ⟨?_, fun k => ?_, fun k hk => ?_⟩, fun v v' h => ?_⟩
  · rw [taken_length hmain, count_turns]
  · exact screen_beginning (taken_beginning hmain w k)
  · rw [taken_length hmain] at hk
    exact screen_of_clear hk
  · exact BitVec.eq_of_toInt_eq (percentD_injective (List.append_cancel_left h))

end BldcFpga
