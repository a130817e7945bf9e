import Mathlib.Algebra.Group.Nat.Even
import Mathlib.Data.List.Basic
import Mathlib.Data.List.Count

/-! Quote parity in separated text. A separator is structural when an even
number of quote characters precede it. The definitions are over an arbitrary
alphabet and know nothing about fields, lines or files. -/
namespace Netsvc.Library.Quoting

variable {α : Type*} [DecidableEq α] {sep quote : α}

def strip (quote : α) (text : List α) : List α := text.filter (· ≠ quote)

/-- Number of structural separators of a text that follows `seen` quotes. -/
def separators (sep quote : α) (seen : Nat) : List α → Nat
  | [] => 0
  | c :: text =>
      if c = quote then separators sep quote (seen + 1) text
      else if c = sep ∧ Even seen then separators sep quote seen text + 1
      else separators sep quote seen text

/-- What is left of a text that follows `seen` quotes when its quotes and its
structural separators are deleted. -/
def payload (sep quote : α) (seen : Nat) : List α → List α
  | [] => []
  | c :: text =>
      if c = quote then payload sep quote (seen + 1) text
      else if c = sep ∧ Even seen then payload sep quote seen text
      else c :: payload sep quote seen text

@[simp] theorem strip_append (quote : α) (left right : List α) :
    strip quote (left ++ right) = strip quote left ++ strip quote right := by
  simp [strip]

@[simp] theorem strip_nil (quote : α) : strip quote [] = [] := rfl

@[simp] theorem strip_singleton_self (quote : α) : strip quote [quote] = [] := by
  simp [strip]

theorem strip_singleton_of_ne {c : α} (h : c ≠ quote) : strip quote [c] = [c] := by
  simp [strip, h]

@[simp] theorem separators_nil (seen : Nat) : separators sep quote seen [] = 0 := rfl

@[simp] theorem payload_nil (seen : Nat) : payload sep quote seen [] = [] := rfl

theorem separators_append (seen : Nat) (left right : List α) :
    separators sep quote seen (left ++ right) =
      separators sep quote seen left +
        separators sep quote (seen + left.count quote) right := by
  induction left generalizing seen with
  | nil => simp
  | cons c left ih =>
    simp only [List.cons_append, separators, ih, List.count_cons, beq_iff_eq]
    split_ifs <;> grind

theorem payload_append (seen : Nat) (left right : List α) :
    payload sep quote seen (left ++ right) =
      payload sep quote seen left ++
        payload sep quote (seen + left.count quote) right := by
  induction left generalizing seen with
  | nil => simp
  | cons c left ih =>
    simp only [List.cons_append, payload, ih, List.count_cons, beq_iff_eq]
    split_ifs <;> grind

section Snoc
variable (seen : Nat) (text : List α) (c : α)

theorem separators_snoc :
    separators sep quote seen (text ++ [c]) = separators sep quote seen text +
      if c ≠ quote ∧ c = sep ∧ Even (seen + text.count quote) then 1 else 0 := by
  rw [separators_append]
  simp only [separators]
  split_ifs <;> grind

theorem payload_snoc :
    payload sep quote seen (text ++ [c]) = payload sep quote seen text ++
      if c = quote ∨ c = sep ∧ Even (seen + text.count quote) then [] else [c] := by
  rw [payload_append]
  simp only [payload]
  split_ifs <;> grind

end Snoc

end Netsvc.Library.Quoting
