import Mathlib.Algebra.Order.Floor.Ring
import Mathlib.Algebra.Order.Field.Basic
import Mathlib.Tactic.Linarith

/-! Rounding to the nearest integer, ties to even. -/
namespace Netsvc.Library.Rounding

variable {α : Type*} [Field α] [LinearOrder α] [IsStrictOrderedRing α] [FloorRing α] {x : α} {m : ℤ}

def IsTie (x : α) : Prop := Int.fract x = 1 / 2

def roundHalfEven (x : α) : ℤ :=
  if Int.fract x < 1 / 2 then ⌊x⌋
  else if 1 / 2 < Int.fract x then ⌊x⌋ + 1
  else if Even ⌊x⌋ then ⌊x⌋ else ⌊x⌋ + 1

theorem floor_of_abs_sub_lt (h : |x - m| < 1 / 2) :
    (⌊x⌋ = m ∧ Int.fract x < 1 / 2) ∨ (⌊x⌋ + 1 = m ∧ 1 / 2 < Int.fract x) := by
  obtain ⟨hlo, hhi⟩ := abs_lt.mp h
  rcases le_or_gt (m : α) x with hle | hlt
  · have hfloor : ⌊x⌋ = m := Int.floor_eq_iff.mpr ⟨hle, by linarith⟩
    refine .inl ⟨hfloor, ?_⟩
    rw [← Int.self_sub_floor, hfloor]
    exact hhi
  · have hfloor : ⌊x⌋ = m - 1 := by
      apply Int.floor_eq_iff.mpr
      push_cast
      constructor <;> linarith
    refine .inr ⟨by rw [hfloor, sub_add_cancel], ?_⟩
    rw [← Int.self_sub_floor, hfloor]
    push_cast
    linarith

theorem not_isTie_of_abs_sub_lt (h : |x - m| < 1 / 2) : ¬IsTie x := by
  rcases floor_of_abs_sub_lt h with ⟨-, hlt⟩ | ⟨-, hgt⟩
  · exact hlt.ne
  · exact hgt.ne'

theorem roundHalfEven_of_abs_sub_lt (h : |x - m| < 1 / 2) : roundHalfEven x = m := by
  unfold roundHalfEven
  rcases floor_of_abs_sub_lt h with ⟨hfloor, hlt⟩ | ⟨hfloor, hgt⟩
  · rw [if_pos hlt, hfloor]
  · rw [if_neg hgt.not_gt, if_pos hgt, hfloor]

theorem abs_sub_roundHalfEven_le (x : α) : |x - roundHalfEven x| ≤ 1 / 2 := by
  have hsplit := Int.floor_add_fract x
  have hlo := Int.fract_nonneg x
  have hhi := Int.fract_lt_one x
  apply abs_le.mpr
  unfold roundHalfEven
  split_ifs with hbelow habove
  · constructor <;> linarith
  · push_cast
    constructor <;> linarith
  · constructor <;> linarith
  · push_cast
    constructor <;> linarith

omit [IsStrictOrderedRing α] in
theorem floor_le_roundHalfEven (x : α) : ⌊x⌋ ≤ roundHalfEven x := by
  unfold roundHalfEven
  split_ifs
  · exact le_rfl
  · exact Int.le_add_one le_rfl
  · exact le_rfl
  · exact Int.le_add_one le_rfl

omit [IsStrictOrderedRing α] in
theorem roundHalfEven_nonneg (h : 0 ≤ x) : 0 ≤ roundHalfEven x :=
  (Int.floor_nonneg.mpr h).trans (floor_le_roundHalfEven x)

end Netsvc.Library.Rounding
