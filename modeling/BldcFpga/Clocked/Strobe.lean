import Mathlib

/-!
# Receivers behind a strobe

A sender writes one word after another to a port; one bit of the port is a strobe, and the
receiver takes the rest of the word whenever the strobe falls.  The words form one stream:
what the receiver sees of a write depends on the word that stood on the port before.

* `latched` — what the receiver takes from a stream;
* `Held` — around every fall of the strobe the payload does not move: it is the same in
  the word before the fall, in the word that brings it, and in the next word;
* `Pulse` — three words that carry one payload, with the strobe high, low and high again;
* `latched_pulses`, `held_pulses` — a stream of pulses is received pulse by pulse,
  whatever stood on the port before;
* `latched_again`, `latched_prefix` — a word that stands is not taken twice, and nothing is
  taken back.
-/

namespace Clocked

variable {α β : Type*} (strobe : α → Bool) (payload : α → β)

/-- What the receiver takes from the words written after `w`. -/
def latched : α → List α → List β
  | _, [] => []
  | w, x :: xs =>
    if strobe w = true ∧ strobe x = false then payload x :: latched x xs else latched x xs

/-- Wherever the strobe falls between two successive words, a third word follows and all
three carry the same payload. -/
def Held (ws : List α) : Prop :=
  ∀ pre x y post, ws = pre ++ x :: y :: post → strobe x = true → strobe y = false →
    payload x = payload y ∧ ∃ z rest, post = z :: rest ∧ payload z = payload y

/-- Three words that carry one payload while the strobe is high, low and high again. -/
structure Pulse where
  before : α
  fall : α
  after : α
  strobe_before : strobe before = true
  strobe_fall : strobe fall = false
  strobe_after : strobe after = true
  payload_before : payload before = payload fall
  payload_after : payload after = payload fall

variable {strobe payload}

/-- The words of a pulse, in the order in which they are written. -/
def Pulse.words (p : Pulse strobe payload) : List α := [p.before, p.fall, p.after]

/-- A word with the strobe high is never latched. -/
@[simp] theorem latched_cons_high {x : α} (hx : strobe x = true) (w : α) (xs : List α) :
    latched strobe payload w (x :: xs) = latched strobe payload x xs := by
  simp [latched, hx]

/-- A pulse is latched once, and leaves the strobe high. -/
theorem latched_pulse (p : Pulse strobe payload) (w : α) (xs : List α) :
    latched strobe payload w (p.words ++ xs) =
      payload p.fall :: latched strobe payload p.after xs := by
  simp only [Pulse.words, List.cons_append, List.nil_append]
  rw [latched_cons_high p.strobe_before, latched, if_pos ⟨p.strobe_before, p.strobe_fall⟩,
    latched_cons_high p.strobe_after]

/-- **Nothing is lost and nothing comes twice.** -/
theorem latched_pulses (ps : List (Pulse strobe payload)) (w : α) :
    latched strobe payload w (ps.flatMap Pulse.words) = ps.map fun p => payload p.fall := by
  induction ps generalizing w with
  | nil => rfl
  | cons p ps ih => rw [List.flatMap_cons, latched_pulse, ih, List.map_cons]

/-- A stream is held when its tail is and its first two words bring no fall that is not. -/
theorem Held.cons {w x : α} {xs : List α} (h : Held strobe payload (x :: xs))
    (hfall : strobe w = true → strobe x = false →
      payload w = payload x ∧ ∃ z rest, xs = z :: rest ∧ payload z = payload x) :
    Held strobe payload (w :: x :: xs) := by
  intro pre a b post heq ha hb
  cases pre with
  | nil =>
    simp only [List.nil_append, List.cons.injEq] at heq
    obtain ⟨rfl, rfl, rfl⟩ := heq
    exact hfall ha hb
  | cons c pre =>
    simp only [List.cons_append, List.cons.injEq] at heq
    exact h pre a b post heq.2 ha hb

/-- A pulse in front of a stream that is held. -/
theorem held_pulse (p : Pulse strobe payload) {xs : List α}
    (h : Held strobe payload (p.after :: xs)) (w : α) :
    Held strobe payload (w :: (p.words ++ xs)) := by
  refine Held.cons (Held.cons (Held.cons h ?_) ?_) ?_
  · intro hlow
    simp [p.strobe_fall] at hlow
  · exact fun _ _ => ⟨p.payload_before, p.after, xs, rfl, p.payload_after⟩
  · intro _ hlow
    simp [p.strobe_before] at hlow

/-- **Setup and hold.** -/
theorem held_pulses (ps : List (Pulse strobe payload)) (w : α) :
    Held strobe payload (w :: ps.flatMap Pulse.words) := by
  induction ps generalizing w with
  | nil =>
    intro pre x y post heq
    have hlen := congrArg List.length heq
    simp at hlen
    omega
  | cons p ps ih =>
    rw [List.flatMap_cons]
    exact held_pulse p (ih p.after) w

/-- The word on the port after the words `xs`. -/
def standing (w : α) (xs : List α) : α := xs.foldl (fun _ x => x) w

@[simp] theorem standing_concat (w : α) (xs : List α) (x : α) : standing w (xs ++ [x]) = x := by
  rw [standing, List.foldl_append]
  rfl

/-- One more word. -/
theorem latched_concat (w : α) (xs : List α) (x : α) :
    latched strobe payload w (xs ++ [x]) = latched strobe payload w xs ++
      if strobe (standing w xs) = true ∧ strobe x = false then [payload x] else [] := by
  induction xs generalizing w with
  | nil =>
    simp only [List.nil_append, latched, standing, List.foldl_nil]
    rfl
  | cons y ys ih =>
    have hstanding : standing w (y :: ys) = standing y ys := rfl
    rw [List.cons_append, latched, latched, ih y, hstanding]
    split_ifs <;> simp

/-- A receiver that looks again before the word has changed takes nothing. -/
theorem latched_again (w : α) (xs : List α) :
    latched strobe payload w (xs ++ [standing w xs]) = latched strobe payload w xs := by
  rw [latched_concat, if_neg fun h => Bool.false_ne_true (h.2.symm.trans h.1), List.append_nil]

/-- What has been taken so far is a beginning of what will be. -/
theorem latched_prefix {xs ys : List α} (h : xs <+: ys) (w : α) :
    latched strobe payload w xs <+: latched strobe payload w ys := by
  induction xs generalizing w ys with
  | nil => exact List.nil_prefix
  | cons x xs ih =>
    obtain ⟨zs, rfl⟩ := h
    rw [List.cons_append, latched, latched]
    split_ifs
    · exact List.prefix_cons_inj _ |>.2 (ih (List.prefix_append xs zs) x)
    · exact ih (List.prefix_append xs zs) x

end Clocked
