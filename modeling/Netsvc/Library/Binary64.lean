import Mathlib.Data.Int.Log
import Mathlib.Data.Rat.Floor
import Mathlib.Tactic.FieldSimp
import Mathlib.Tactic.Positivity
import Mathlib.Tactic.Ring
import Netsvc.Library.Rounding

/-! Doubles as the rationals they stand for, and what is lost when a quotient is
computed in them. Zero has no sign here, and nothing overflows. -/
namespace Netsvc.Library.Binary64
open Netsvc.Library.Rounding

def spacing (q : ℚ) : ℚ := 2 ^ max (Int.log 2 |q| - 52) (-1074)

/-- The nearest double, of two the even one. -/
def nearest (q : ℚ) : ℚ := roundHalfEven (q / spacing q) * spacing q

inductive Double
  | nan
  | inf
  | finite (value : ℚ)
  deriving DecidableEq

/-- `x / y` for operands that are not negative. -/
def quotient (x y : ℚ) : Double :=
  if y ≠ 0 then .finite (nearest (x / y)) else if x = 0 then .nan else .inf

/-- `x * factor` for a positive factor. -/
def Double.scale (factor : ℚ) : Double → Double
  | .nan => .nan
  | .inf => .inf
  | .finite x => .finite (nearest (x * factor))

section Nearest
variable {q bound : ℚ}

theorem spacing_pos (q : ℚ) : 0 < spacing q := zpow_pos (by norm_num) _

theorem spacing_le (h : q ≠ 0) : spacing q ≤ |q| / 2 ^ 52 + 1 / 2 ^ 1074 := by
  unfold spacing
  rcases le_total (Int.log 2 |q| - 52) (-1074) with hsmall | hlarge
  · have hpower : (2 : ℚ) ^ (-1074 : ℤ) = 1 / 2 ^ 1074 := by
      rw [zpow_neg, ← one_div]
      norm_cast
    rw [max_eq_right hsmall, hpower]
    exact le_add_of_nonneg_left (by positivity)
  · have hpower : (2 : ℚ) ^ (Int.log 2 |q| - 52) = 2 ^ Int.log 2 |q| / 2 ^ 52 := by
      rw [zpow_sub₀ (by norm_num)]
      norm_cast
    have hlog : (2 : ℚ) ^ Int.log 2 |q| ≤ |q| :=
      Int.zpow_log_le_self (by decide) (abs_pos.mpr h)
    rw [max_eq_left hlarge, hpower]
    have hquotient : (2 : ℚ) ^ Int.log 2 |q| / 2 ^ 52 ≤ |q| / 2 ^ 52 := by gcongr
    exact hquotient.trans (le_add_of_nonneg_right (by positivity))

theorem nearest_zero : nearest 0 = 0 := by decide +kernel

theorem nearest_nonneg (h : 0 ≤ q) : 0 ≤ nearest q := by
  have hround : 0 ≤ roundHalfEven (q / spacing q) :=
    roundHalfEven_nonneg (div_nonneg h (spacing_pos q).le)
  exact mul_nonneg (by exact_mod_cast hround) (spacing_pos q).le

theorem abs_nearest_sub_le_spacing (q : ℚ) : |nearest q - q| ≤ spacing q / 2 := by
  have hpos := spacing_pos q
  have hround := abs_sub_roundHalfEven_le (q / spacing q)
  have hscaled : nearest q - q = -((q / spacing q - roundHalfEven (q / spacing q)) * spacing q) := by
    unfold nearest
    field_simp
    ring
  rw [hscaled, abs_neg, abs_mul, abs_of_pos hpos]
  calc |q / spacing q - roundHalfEven (q / spacing q)| * spacing q ≤ 1 / 2 * spacing q := by gcongr
    _ = spacing q / 2 := by ring

theorem abs_nearest_sub_le (hle : |q| ≤ bound) (hone : 1 ≤ bound) :
    |nearest q - q| ≤ bound / 2 ^ 52 := by
  rcases eq_or_ne q 0 with rfl | hne
  · rw [nearest_zero, sub_zero, abs_zero]
    positivity
  · have hpower : (2 : ℚ) ^ 52 ≤ 2 ^ 1074 := pow_le_pow_right₀ (by norm_num) (by norm_num)
    have hsmall : (1 : ℚ) / 2 ^ 1074 ≤ 1 / 2 ^ 52 :=
      one_div_le_one_div_of_le (by positivity) hpower
    have hspacing : spacing q ≤ 2 * (bound / 2 ^ 52) := by
      calc spacing q ≤ |q| / 2 ^ 52 + 1 / 2 ^ 1074 := spacing_le hne
        _ ≤ bound / 2 ^ 52 + bound / 2 ^ 52 := by
          have hbound : (1 : ℚ) / 2 ^ 52 ≤ bound / 2 ^ 52 := by gcongr
          have hquotient : |q| / 2 ^ 52 ≤ bound / 2 ^ 52 := by gcongr
          exact add_le_add hquotient (hsmall.trans hbound)
        _ = 2 * (bound / 2 ^ 52) := by ring
    have hnear := abs_nearest_sub_le_spacing q
    linarith

end Nearest

section Percent
variable {part whole : ℚ}

theorem half_le_nearest (hwhole : 1 ≤ whole) : whole / 2 ≤ nearest whole := by
  have hnear := (abs_le.mp (abs_nearest_sub_le (abs_of_pos (by linarith)).le hwhole)).1
  have hsmall : whole / 2 ^ 52 ≤ whole / 2 := by
    gcongr
    norm_num
  linarith

theorem abs_operands_sub_le (hpart : 0 ≤ part) (hle : part ≤ whole) (hwhole : 1 ≤ whole) :
    |nearest part / nearest whole - part / whole| ≤ 4 / 2 ^ 52 := by
  have hpos : 0 < whole := by linarith
  have hhalf := half_le_nearest hwhole
  have hnearest : 0 < nearest whole := by linarith
  have hpartNear : |nearest part - part| ≤ whole / 2 ^ 52 :=
    abs_nearest_sub_le (by rwa [abs_of_nonneg hpart]) hwhole
  have hwholeNear : |nearest whole - whole| ≤ whole / 2 ^ 52 :=
    abs_nearest_sub_le (abs_of_pos hpos).le hwhole
  have hsplit : nearest part / nearest whole - part / whole =
      ((nearest part - part) - part / whole * (nearest whole - whole)) / nearest whole := by
    field_simp
    ring
  have hshare : part / whole * |nearest whole - whole| ≤ whole / 2 ^ 52 := by
    have hone : part / whole ≤ 1 := (div_le_one hpos).mpr hle
    calc part / whole * |nearest whole - whole| ≤ 1 * |nearest whole - whole| := by gcongr
      _ ≤ whole / 2 ^ 52 := by rwa [one_mul]
  rw [hsplit, abs_div, abs_of_pos hnearest, div_le_iff₀ hnearest]
  calc |(nearest part - part) - part / whole * (nearest whole - whole)|
      ≤ |nearest part - part| + |part / whole * (nearest whole - whole)| := abs_sub _ _
    _ = |nearest part - part| + part / whole * |nearest whole - whole| := by
      rw [abs_mul, abs_of_nonneg (div_nonneg hpart hpos.le)]
    _ ≤ whole / 2 ^ 52 + whole / 2 ^ 52 := add_le_add hpartNear hshare
    _ = 4 / 2 ^ 52 * (whole / 2) := by ring
    _ ≤ 4 / 2 ^ 52 * nearest whole := by gcongr

/-- Both operands, the quotient and the product are rounded. -/
theorem abs_percent_sub_le (hpart : 0 ≤ part) (hle : part ≤ whole) (hwhole : 1 ≤ whole) :
    |nearest (nearest (nearest part / nearest whole) * 100) - part / whole * 100| ≤
      1 / 10 ^ 12 := by
  have hpos : 0 < whole := by linarith
  have hexact : 0 ≤ part / whole ∧ part / whole ≤ 1 :=
    ⟨div_nonneg hpart hpos.le, (div_le_one hpos).mpr hle⟩
  have hoperands := abs_le.mp (abs_operands_sub_le hpart hle hwhole)
  have hsize : |nearest part / nearest whole| ≤ 2 := by
    apply abs_le.mpr
    constructor <;> linarith [hoperands.1, hoperands.2]
  have hquotient := abs_le.mp (abs_nearest_sub_le hsize (by norm_num))
  set computed := nearest (nearest part / nearest whole)
  have hproduct : |computed * 100| ≤ 200 := by
    apply abs_le.mpr
    constructor <;> linarith [hoperands.1, hoperands.2, hquotient.1, hquotient.2]
  have hscaled := abs_le.mp (abs_nearest_sub_le hproduct (by norm_num))
  apply abs_le.mpr
  constructor <;> linarith [hoperands.1, hoperands.2, hquotient.1, hquotient.2, hscaled.1, hscaled.2]

theorem nearest_le (hpart : 0 ≤ part) (hbound : part ≤ whole) (hwhole : 1 ≤ whole) :
    nearest part ≤ 2 * whole := by
  have hnear := (abs_le.mp (abs_nearest_sub_le (by rwa [abs_of_nonneg hpart]) hwhole)).2
  have hsmall : whole / 2 ^ 52 ≤ whole := div_le_self (by linarith) (by norm_num)
  linarith

theorem scale_quotient (hpart : 0 ≤ part) (hle : part ≤ whole) (hwhole : 1 ≤ whole) :
    ∃ v, (quotient (nearest part) (nearest whole)).scale 100 = .finite v ∧
      |v - part / whole * 100| ≤ 1 / 10 ^ 12 := by
  have hhalf := half_le_nearest hwhole
  have hne : nearest whole ≠ 0 := by linarith
  refine ⟨_, ?_, abs_percent_sub_le hpart hle hwhole⟩
  unfold quotient
  rw [if_pos hne]
  rfl

theorem scale_quotient_abs_le {n : ℕ} {v bound : ℚ} (hpart : 0 ≤ part) (hle : part ≤ bound)
    (hbound : 1 ≤ bound)
    (h : (quotient (nearest part) (nearest n)).scale 100 = .finite v) : |v| ≤ 1600 * bound := by
  unfold quotient at h
  split_ifs at h with hwhole hzero
  · have hn : n ≠ 0 := by
      rintro rfl
      exact hwhole nearest_zero
    have hhalf : 1 / 2 ≤ nearest (n : ℚ) := by
      have hone : (1 : ℚ) ≤ n := by exact_mod_cast Nat.one_le_iff_ne_zero.mpr hn
      have hhalf := half_le_nearest hone
      linarith
    have hupper := nearest_le hpart hle hbound
    set computed := nearest part / nearest n with hcomputed
    have hnonneg : 0 ≤ computed := div_nonneg (nearest_nonneg hpart) (by linarith)
    have hquotient : computed ≤ 4 * bound := by
      rw [hcomputed, div_le_iff₀ (by linarith)]
      nlinarith
    have hrounded := nearest_le hnonneg hquotient (by linarith)
    have hfactor : 0 ≤ nearest computed * 100 := by
      have hcomputedRounded := nearest_nonneg hnonneg
      linarith
    have hproduct : nearest computed * 100 ≤ 800 * bound := by linarith
    have hlast := nearest_le hfactor hproduct (by linarith)
    have hvalue : nearest (nearest computed * 100) = v := Double.finite.inj h
    rw [← hvalue, abs_of_nonneg (nearest_nonneg hfactor)]
    linarith
  · cases h
  · cases h

end Percent

end Netsvc.Library.Binary64
