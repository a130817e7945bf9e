import Mathlib.Data.Rat.Floor
import Mathlib.Tactic.FieldSimp
import Mathlib.Tactic.Positivity
import Mathlib.Tactic.Ring
import Netsvc.Library.Rounding

/-! Decimal texts with a fixed number of places, and the numbers they stand for. -/
namespace Netsvc.Library.Decimal
open Netsvc.Library.Rounding

abbrev Text := List Char

def padded (width n : ℕ) : Text :=
  List.replicate (width - (Nat.toDigits 10 n).length) '0' ++ Nat.toDigits 10 n

/-- `n` units of the last of `places` places. -/
def pointed (places n : ℕ) : Text :=
  Nat.toDigits 10 (n / 10 ^ places) ++ '.' :: padded places (n % 10 ^ places)

/-- `q` rounded to `places` places, ties to even. -/
def fixed (places : ℕ) (q : ℚ) : Text :=
  (if q < 0 then ['-'] else []) ++ pointed places (roundHalfEven (|q| * 10 ^ places)).toNat

def unsignedValue (text : Text) : Option ℚ :=
  let whole := text.takeWhile Char.isDigit
  match text.dropWhile Char.isDigit with
  | '.' :: fraction =>
    if whole ≠ [] ∧ fraction ≠ [] ∧ fraction.all Char.isDigit then
      some (Nat.ofDigitChars 10 whole 0 +
        Nat.ofDigitChars 10 fraction 0 / 10 ^ fraction.length)
    else none
  | _ => none

def value : Text → Option ℚ
  | '-' :: text => (unsignedValue text).map fun q => -q
  | text => unsignedValue text

example : fixed 2 (-1 / 8) = ['-', '0', '.', '1', '2'] := by decide +kernel

section Pointed
variable {places n : ℕ}

theorem isDigit_of_mem_toDigits {c : Char} (h : c ∈ Nat.toDigits 10 n) : c.isDigit :=
  Nat.isDigit_of_mem_toDigits (by decide) le_rfl h

theorem isDigit_of_mem_padded {c : Char} (h : c ∈ padded places n) : c.isDigit := by
  rcases List.mem_append.mp h with hzero | hdigit
  · rw [List.eq_of_mem_replicate hzero]
    decide
  · exact isDigit_of_mem_toDigits hdigit

theorem ofDigitChars_padded : Nat.ofDigitChars 10 (padded places n) 0 = n := by
  unfold padded
  rw [Nat.ofDigitChars_append, Nat.ofDigitChars_replicate_zero, Nat.mul_zero,
    Nat.ofDigitChars_ten_toDigits]

theorem length_padded (hplaces : 0 < places) (h : n < 10 ^ places) :
    (padded places n).length = places := by
  have hle : (Nat.toDigits 10 n).length ≤ places :=
    (Nat.length_toDigits_le_iff (by decide) hplaces).mpr h
  unfold padded
  rw [List.length_append, List.length_replicate]
  omega

theorem takeWhile_pointed :
    (pointed places n).takeWhile Char.isDigit = Nat.toDigits 10 (n / 10 ^ places) := by
  unfold pointed
  rw [List.takeWhile_append_of_pos fun c hc => isDigit_of_mem_toDigits hc]
  simp

theorem dropWhile_pointed :
    (pointed places n).dropWhile Char.isDigit = '.' :: padded places (n % 10 ^ places) := by
  unfold pointed
  rw [List.dropWhile_append_of_pos fun c hc => isDigit_of_mem_toDigits hc]
  simp

theorem unsignedValue_pointed (hplaces : 0 < places) :
    unsignedValue (pointed places n) = some ((n : ℚ) / 10 ^ places) := by
  have hlength : (padded places (n % 10 ^ places)).length = places :=
    length_padded hplaces (Nat.mod_lt _ (by positivity))
  have hfraction : padded places (n % 10 ^ places) ≠ [] := by
    intro hnil
    rw [hnil] at hlength
    exact hplaces.ne hlength
  have hdigits : (padded places (n % 10 ^ places)).all Char.isDigit :=
    List.all_eq_true.mpr fun c hc => isDigit_of_mem_padded hc
  unfold unsignedValue
  simp only [takeWhile_pointed, dropWhile_pointed]
  rw [if_pos ⟨Nat.toDigits_ne_nil, hfraction, hdigits⟩, Nat.ofDigitChars_ten_toDigits,
    ofDigitChars_padded, hlength]
  congr 1
  have hsplit := Nat.div_add_mod n (10 ^ places)
  have hcast : ((10 ^ places * (n / 10 ^ places) + n % 10 ^ places : ℕ) : ℚ) = n :=
    congrArg Nat.cast hsplit
  rw [← hcast]
  push_cast
  field_simp

theorem length_pointed_le {width : ℕ} (hplaces : 0 < places) (hwidth : 0 < width)
    (h : n < 10 ^ (width + places)) : (pointed places n).length ≤ width + 1 + places := by
  have hwhole : n / 10 ^ places < 10 ^ width := by
    apply Nat.div_lt_of_lt_mul
    rwa [← pow_add, Nat.add_comm]
  have hle : (Nat.toDigits 10 (n / 10 ^ places)).length ≤ width :=
    (Nat.length_toDigits_le_iff (by decide) hwidth).mpr hwhole
  unfold pointed
  rw [List.length_append, List.length_cons,
    length_padded hplaces (Nat.mod_lt _ (by positivity))]
  omega

theorem pointed_head_isDigit : ∃ c text, pointed places n = c :: text ∧ c.isDigit := by
  cases hdigits : Nat.toDigits 10 (n / 10 ^ places) with
  | nil => exact absurd hdigits Nat.toDigits_ne_nil
  | cons c rest =>
    refine ⟨c, rest ++ '.' :: padded places (n % 10 ^ places), ?_, ?_⟩
    · unfold pointed
      rw [hdigits]
      rfl
    · apply isDigit_of_mem_toDigits (n := n / 10 ^ places)
      rw [hdigits]
      exact List.mem_cons_self

end Pointed

section Fixed
variable {places : ℕ} {q : ℚ}

/-- The text is off the number by at most half a unit of the last place. -/
theorem value_fixed (hplaces : 0 < places) (q : ℚ) :
    ∃ w, value (fixed places q) = some w ∧ |w - q| ≤ 1 / 2 / 10 ^ places := by
  set n := (roundHalfEven (|q| * 10 ^ places)).toNat with hn
  have hpos : (0 : ℚ) < 10 ^ places := by positivity
  have hcast : (n : ℚ) = roundHalfEven (|q| * 10 ^ places) := by
    have hnonneg : 0 ≤ roundHalfEven (|q| * 10 ^ places) := roundHalfEven_nonneg (by positivity)
    rw [hn]
    exact_mod_cast Int.toNat_of_nonneg hnonneg
  have hnear : |(n : ℚ) / 10 ^ places - (|q|)| ≤ 1 / 2 / 10 ^ places := by
    have herror := abs_sub_roundHalfEven_le (|q| * 10 ^ places)
    rw [← hcast, abs_sub_comm] at herror
    rw [le_div_iff₀ hpos, ← abs_of_pos hpos, ← abs_mul, abs_of_pos hpos, sub_mul,
      div_mul_cancel₀ _ hpos.ne']
    exact herror
  unfold fixed
  rcases lt_or_ge q 0 with hneg | hge
  · refine ⟨-((n : ℚ) / 10 ^ places), ?_, ?_⟩
    · rw [if_pos hneg, ← hn]
      change (unsignedValue (pointed places n)).map _ = _
      rw [unsignedValue_pointed hplaces, Option.map_some]
    · rw [abs_of_neg hneg] at hnear
      rw [← abs_neg]
      calc |-(-((n : ℚ) / 10 ^ places) - q)| = |(n : ℚ) / 10 ^ places - -q| := by congr 1; ring
        _ ≤ 1 / 2 / 10 ^ places := hnear
  · refine ⟨(n : ℚ) / 10 ^ places, ?_, ?_⟩
    · obtain ⟨c, text, htext, hc⟩ : ∃ c text, pointed places n = c :: text ∧ c.isDigit :=
        pointed_head_isDigit
      have hminus : c ≠ '-' := by
        rintro rfl
        exact absurd hc (by decide)
      rw [if_neg (not_lt.mpr hge), ← hn, List.nil_append, ← unsignedValue_pointed hplaces, htext]
      unfold value
      split
      · rename_i heq
        exact absurd (List.cons.inj heq).1 hminus
      · rfl
    · rwa [abs_of_nonneg hge] at hnear

theorem mem_fixed {c : Char} (h : c ∈ fixed places q) : c = '-' ∨ c = '.' ∨ c.isDigit := by
  unfold fixed pointed at h
  rcases List.mem_append.mp h with hsign | hpointed
  · split_ifs at hsign
    · exact .inl (List.mem_singleton.mp hsign)
    · exact absurd hsign List.not_mem_nil
  · rcases List.mem_append.mp hpointed with hwhole | hrest
    · exact .inr (.inr (isDigit_of_mem_toDigits hwhole))
    · rcases List.mem_cons.mp hrest with rfl | hfraction
      · exact .inr (.inl rfl)
      · exact .inr (.inr (isDigit_of_mem_padded hfraction))

theorem length_fixed_le {width : ℕ} (hplaces : 0 < places) (h : |q| < 10 ^ width) :
    (fixed places q).length ≤ width + places + 3 := by
  have hpos : (0 : ℚ) < 10 ^ places := by positivity
  have hround : roundHalfEven (|q| * 10 ^ places) < (10 ^ (width + 1 + places) : ℕ) := by
    have hnear := (abs_le.mp (abs_sub_roundHalfEven_le (|q| * 10 ^ places))).1
    have hone : (1 : ℚ) ≤ 10 ^ width * 10 ^ places := by
      rw [← pow_add]
      exact one_le_pow₀ (by norm_num)
    have hlarge : (roundHalfEven (|q| * 10 ^ places) : ℚ) < 10 ^ (width + 1 + places) := by
      calc (roundHalfEven (|q| * 10 ^ places) : ℚ) ≤ |q| * 10 ^ places + 1 / 2 := by linarith
        _ < 10 ^ width * 10 ^ places + 10 ^ width * 10 ^ places := by
          have hscaled := mul_lt_mul_of_pos_right h hpos
          linarith
        _ ≤ 10 ^ width * 10 * 10 ^ places := by nlinarith
        _ = 10 ^ (width + 1 + places) := by ring
    exact_mod_cast hlarge
  have hnat : (roundHalfEven (|q| * 10 ^ places)).toNat < 10 ^ (width + 1 + places) := by
    have hpower : 0 < 10 ^ (width + 1 + places) := by positivity
    omega
  have hpointed := length_pointed_le hplaces width.succ_pos hnat
  have hsign : (if q < 0 then ['-'] else []).length ≤ 1 := by split_ifs <;> decide
  unfold fixed
  rw [List.length_append]
  omega

end Fixed

end Netsvc.Library.Decimal
