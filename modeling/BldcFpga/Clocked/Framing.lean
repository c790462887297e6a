import Mathlib

/-!
# Streams of messages

A sender closes each of its messages with a mark that stands in none of them.  Whoever has
seen a part of the stream knows from the number of marks which message it is in, and has
seen a beginning of that message.

* `framed` — the stream of a list of messages;
* `since` — what has been seen since the latest mark;
* `exists_of_prefix` — a part of the stream is made of whole messages and a beginning of
  the next;
* `since_prefix`, `since_closed` — what has been seen since the latest mark is a beginning
  of that message, and the whole of it where the next item is a mark.
-/

namespace Clocked

variable {α : Type*} {mark : α} {ms : List (List α)} {p : List α}

/-- The stream of the messages `ms`. -/
def framed (mark : α) (ms : List (List α)) : List α := ms.flatMap (· ++ [mark])

@[simp] theorem framed_nil : framed mark [] = [] := rfl

@[simp] theorem framed_cons (m : List α) :
    framed mark (m :: ms) = m ++ mark :: framed mark ms := by
  simp [framed]

theorem framed_append (ms' : List (List α)) :
    framed mark (ms ++ ms') = framed mark ms ++ framed mark ms' := List.flatMap_append

/-- Whole messages, and a beginning of the next. -/
theorem exists_of_prefix (h : p <+: framed mark ms) :
    ∃ i r, i ≤ ms.length ∧ p = framed mark (ms.take i) ++ r ∧ r <+: ms.getD i [] := by
  induction ms generalizing p with
  | nil =>
    have hp : p = [] := List.prefix_nil.1 h
    exact ⟨0, [], le_rfl, by simp [hp], List.nil_prefix⟩
  | cons m ms ih =>
    rw [framed_cons] at h
    rcases List.prefix_or_prefix_of_prefix h (List.prefix_append m _) with hpm | ⟨q, rfl⟩
    · exact ⟨0, p, Nat.zero_le _, rfl, hpm⟩
    · rw [List.prefix_append_right_inj, List.prefix_cons_iff] at h
      rcases h with rfl | ⟨t, rfl, ht⟩
      · exact ⟨0, m, Nat.zero_le _, by simp, List.prefix_rfl⟩
      · obtain ⟨i, r, hi, rfl, hr⟩ := ih ht
        exact ⟨i + 1, r, Nat.succ_le_succ hi, by simp, hr⟩

theorem not_mem_getD (hno : ∀ m ∈ ms, mark ∉ m) (i : ℕ) : mark ∉ ms.getD i [] := by
  by_cases hi : i < ms.length
  · rw [List.getD_eq_getElem _ _ hi]
    exact hno _ (List.getElem_mem hi)
  · rw [List.getD_eq_default _ _ (by omega)]
    exact List.not_mem_nil

variable [DecidableEq α]

/-- What follows the latest mark. -/
def since (mark : α) (xs : List α) : List α :=
  xs.foldl (fun seen x => if x = mark then [] else seen ++ [x]) []

@[simp] theorem since_nil : since mark [] = [] := rfl

@[simp] theorem since_concat (xs : List α) (x : α) :
    since mark (xs ++ [x]) = if x = mark then [] else since mark xs ++ [x] := by
  rw [since, List.foldl_append]
  rfl

/-- A beginning of a message after a stream of whole ones. -/
theorem since_framed {r : List α} (hr : mark ∉ r) : since mark (framed mark ms ++ r) = r := by
  induction r using List.reverseRec with
  | nil =>
    rw [List.append_nil]
    induction ms using List.reverseRec with
    | nil => rfl
    | append_singleton ms m _ =>
      rw [framed_append, framed_cons, framed_nil, ← List.append_assoc, since_concat, if_pos rfl]
  | append_singleton r x ih =>
    rw [List.mem_append, not_or, List.mem_singleton] at hr
    rw [← List.append_assoc, since_concat, ih hr.1, if_neg (Ne.symm hr.2)]

/-- The marks number the messages. -/
theorem count_framed (hno : ∀ m ∈ ms, mark ∉ m) : (framed mark ms).count mark = ms.length := by
  induction ms with
  | nil => rfl
  | cons m ms ih =>
    have hm : m.count mark = 0 := List.count_eq_zero.2 (hno m (by simp))
    rw [framed_cons, List.count_append, hm, Nat.zero_add, List.count_cons_self,
      ih fun m' hm' => hno m' (by simp [hm']), List.length_cons]

/-- **Where one is in the stream.** -/
theorem since_prefix (hno : ∀ m ∈ ms, mark ∉ m) (h : p <+: framed mark ms) :
    p.count mark ≤ ms.length ∧ since mark p <+: ms.getD (p.count mark) [] := by
  obtain ⟨i, r, hi, rfl, hr⟩ := exists_of_prefix h
  have hmark : mark ∉ r := fun hmem => not_mem_getD hno i (hr.mem hmem)
  have hcount : (framed mark (ms.take i) ++ r).count mark = i := by
    rw [List.count_append, count_framed fun m hm => hno m (List.mem_of_mem_take hm),
      List.count_eq_zero.2 hmark, List.length_take]
    omega
  rw [hcount, since_framed hmark]
  exact ⟨hi, hr⟩

/-- **Messages arrive whole.** -/
theorem since_closed (hno : ∀ m ∈ ms, mark ∉ m) (h : p ++ [mark] <+: framed mark ms) :
    p.count mark < ms.length ∧ since mark p = ms.getD (p.count mark) [] := by
  obtain ⟨i, r, hi, hsplit, hr⟩ := exists_of_prefix h
  have hmark : mark ∉ r := fun hmem => not_mem_getD hno i (hr.mem hmem)
  -- the mark closes a message, so nothing of the next one has been seen
  have hnil : r = [] := by
    cases r using List.reverseRec with
    | nil => rfl
    | append_singleton r x _ =>
      rw [← List.append_assoc] at hsplit
      have hx := (List.append_inj' hsplit rfl).2
      simp only [List.cons.injEq, and_true] at hx
      exact absurd (hx ▸ List.mem_append_right r (List.mem_singleton.2 rfl)) hmark
  subst hnil
  cases i with
  | zero => simp at hsplit
  | succ i =>
    have hlt : i < ms.length := hi
    rw [List.take_succ_eq_append_getElem hlt, framed_append, framed_cons, framed_nil,
      List.append_nil, ← List.append_assoc] at hsplit
    obtain ⟨rfl, -⟩ := List.append_inj' hsplit rfl
    have hm : mark ∉ ms[i] := hno _ (List.getElem_mem hlt)
    have hcount : (framed mark (ms.take i) ++ ms[i]).count mark = i := by
      rw [List.count_append, count_framed fun m hm => hno m (List.mem_of_mem_take hm),
        List.count_eq_zero.2 hm, List.length_take]
      omega
    rw [hcount, since_framed hm, List.getD_eq_getElem _ _ hlt]
    exact ⟨hlt, rfl⟩

end Clocked
