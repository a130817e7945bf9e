import Mathlib.Data.List.TakeWhile

/-! Cutting a list at the first occurrence of a delimiter. -/
namespace Netsvc.Library.Delimiter

variable {α : Type*} [DecidableEq α] {delim : α} {left : List α}

theorem ne_of_mem (h : delim ∉ left) : ∀ x ∈ left, (x != delim) = true := by
  intro x hx
  simpa using fun heq : x = delim => h (heq ▸ hx)

theorem notMem_takeWhile (delim : α) (text : List α) :
    delim ∉ text.takeWhile (· != delim) := by
  intro hmem
  simpa using List.mem_takeWhile_imp hmem

/-- The first occurrence of the delimiter from `start` on. -/
structure NextAt (delim : α) (text : List α) (start i : ℕ) : Prop where
  le : start ≤ i
  get : text[i]? = some delim
  ne : ∀ j, start ≤ j → j < i → text[j]? ≠ some delim

theorem nextAt_idxOf {text : List α} {start : ℕ} (h : delim ∈ text.drop start) :
    NextAt delim text start (start + (text.drop start).idxOf delim) := by
  have hlt := List.idxOf_lt_length_iff.mpr h
  constructor
  · exact Nat.le_add_right _ _
  · rw [← List.getElem?_drop, List.getElem?_eq_getElem hlt, List.getElem_idxOf]
  · intro j hstart hj hget
    have hbefore : j - start < (text.drop start).findIdx (· == delim) := by
      change j - start < (text.drop start).idxOf delim
      omega
    have hdrop : (text.drop start)[j - start]? = some delim := by
      rw [List.getElem?_drop, Nat.add_sub_cancel' hstart]
      exact hget
    obtain ⟨hlt', heq⟩ := List.getElem?_eq_some_iff.mp hdrop
    have hne := List.not_of_lt_findIdx hbefore
    rw [heq, beq_self_eq_true] at hne
    exact absurd hne (by decide)

omit [DecidableEq α] in
theorem NextAt.eq {text : List α} {start i j : ℕ} (hi : NextAt delim text start i)
    (hj : NextAt delim text start j) : i = j := by
  rcases Nat.lt_trichotomy i j with hlt | heq | hgt
  · exact absurd hi.get (hj.ne i hi.le hlt)
  · exact heq
  · exact absurd hj.get (hi.ne j hj.le hgt)

omit [DecidableEq α] in
theorem mem_drop_of_getElem? {text : List α} {start i : ℕ} (hle : start ≤ i)
    (h : text[i]? = some delim) : delim ∈ text.drop start := by
  apply List.mem_of_getElem? (i := i - start)
  rw [List.getElem?_drop, Nat.add_sub_cancel' hle]
  exact h

theorem NextAt.idxOf_drop {text : List α} {start i : ℕ} (h : NextAt delim text start i) :
    (text.drop start).idxOf delim = i - start := by
  have heq := h.eq (nextAt_idxOf (mem_drop_of_getElem? h.le h.get))
  omega

theorem pieces_induction (delim : α) {motive : List α → Prop}
    (last : ∀ text, delim ∉ text → motive text)
    (piece : ∀ text rest, delim ∉ text → motive rest → motive (text ++ delim :: rest))
    (text : List α) : motive text := by
  induction hn : text.length using Nat.strong_induction_on generalizing text with
  | _ n ih =>
    by_cases hmem : delim ∈ text
    · obtain ⟨first, rest, rfl, hfirst⟩ := List.eq_append_cons_of_mem hmem
      apply piece first rest hfirst
      apply ih rest.length _ rest rfl
      simp only [List.length_append, List.length_cons] at hn
      omega
    · exact last text hmem

omit [DecidableEq α] in
theorem notMem_intercalate {c : α} (hc : c ≠ delim) {pieces : List (List α)} :
    c ∉ [delim].intercalate pieces ↔ ∀ piece ∈ pieces, c ∉ piece := by
  induction pieces with
  | nil => simp [List.intercalate]
  | cons first pieces ih =>
    cases pieces with
    | nil => simp [List.intercalate]
    | cons second pieces =>
      rw [List.intercalate_cons_cons, List.mem_append, List.mem_append, not_or, not_or, ih]
      simp [hc]

variable (h : delim ∉ left)
include h

theorem takeWhile_append (right : List α) :
    (left ++ delim :: right).takeWhile (· != delim) = left := by
  rw [List.takeWhile_append_of_pos (ne_of_mem h)]
  simp

theorem dropWhile_append (right : List α) :
    (left ++ delim :: right).dropWhile (· != delim) = delim :: right := by
  rw [List.dropWhile_append_of_pos (ne_of_mem h)]
  simp

theorem takeWhile_of_notMem : left.takeWhile (· != delim) = left :=
  List.takeWhile_eq_self_iff.mpr (ne_of_mem h)

theorem dropWhile_of_notMem : left.dropWhile (· != delim) = [] :=
  List.dropWhile_eq_nil_iff.mpr (ne_of_mem h)

end Netsvc.Library.Delimiter
