import Mathlib.Tactic.Ring
import Netsvc.CClientServer.Rows

/-! `qotd` of `server.c`: the row chosen from the time of the start. -/
namespace Netsvc.CClientServer

/-- `time(NULL) / SECS_IN_DAY`: the macro's text `60 * 60 * 24` comes without
parentheses. An overflow, undefined in C, wraps around. -/
def daysOf (time : Int64) : Int64 := time / 60 * 60 * 24

def qotd (time : Int64) (rows : Nat) : Int := (daysOf time).toInt.tmod rows

def dayOf (time : Int64) : Int := time.toInt / 86400

/-- One row for each day, and each row once in as many days as there are rows. -/
structure QuoteOfTheDay (rows : Nat) : Prop where
  daily : ∀ t₁ t₂ : Int64, 0 ≤ t₁ → 0 ≤ t₂ → dayOf t₁ = dayOf t₂ → qotd t₁ rows = qotd t₂ rows
  cycle : ∀ (first : ℕ) (times : ℕ → Int64),
    (∀ k < rows, 0 ≤ times k ∧ dayOf (times k) = first + k) →
      ((List.range rows).map fun k => qotd (times k) rows).Perm
        ((List.range rows).map fun k : ℕ => (k : Int))

theorem toInt_daysOf {n : ℕ} (h : n < 2 ^ 58) :
    (daysOf (Int64.ofNat n)).toInt = n / 60 * 1440 := by
  have htime : (Int64.ofNat n).toInt = n := Int64.toInt_ofNat_of_lt (by omega)
  have hsixty : (60 : Int64).toInt = 60 := by decide
  have htwentyFour : (24 : Int64).toInt = 24 := by decide
  have hminutes : (Int64.ofNat n / 60).toInt = n / 60 := by
    rw [Int64.toInt_div_of_ne_right _ _ (by decide), htime, hsixty]
    exact Int.tdiv_eq_ediv_of_nonneg (Int.natCast_nonneg n)
  have hhours : (Int64.ofNat n / 60 * 60).toInt = n / 60 * 60 := by
    rw [Int64.toInt_mul, hminutes, hsixty]
    apply Int.bmod_eq_of_le <;> omega
  unfold daysOf
  rw [Int64.toInt_mul, hhours, htwentyFour, Int.bmod_eq_of_le] <;> omega

theorem qotd_ofNat {n : ℕ} (h : n < 2 ^ 58) (rows : ℕ) :
    qotd (Int64.ofNat n) rows = (n / 60 * 1440 % rows : ℕ) := by
  unfold qotd
  rw [toInt_daysOf h]
  norm_cast

theorem QuoteOfTheDay.dvd {rows : ℕ} (h : QuoteOfTheDay rows) : rows ∣ 1440 := by
  have hsame := h.daily (Int64.ofNat 0) (Int64.ofNat 60) (by decide) (by decide) (by decide)
  rw [qotd_ofNat (by decide), qotd_ofNat (by decide)] at hsame
  apply Nat.dvd_of_mod_eq_zero
  have hmod := Int.natCast_inj.mp hsame
  rw [Nat.zero_div, Nat.zero_mul, Nat.zero_mod] at hmod
  exact hmod.symm

theorem qotd_one (time : Int64) : qotd time 1 = 0 := Int.tmod_one _

/-- Only a table of one row has a quote for every day. -/
theorem quoteOfTheDay_rows_iff {rows : ℕ} (hrows : 0 < rows) :
    QuoteOfTheDay rows ↔ rows = 1 := by
  constructor
  · intro h
    have hle : rows ≤ 1440 := Nat.le_of_dvd (by decide) h.dvd
    obtain ⟨factor, hfactor⟩ := h.dvd
    have hvalid : ∀ k < rows, 0 ≤ Int64.ofNat (86400 * k) ∧
        dayOf (Int64.ofNat (86400 * k)) = ((0 : ℕ) : Int) + k := by
      intro k hk
      have htime : (Int64.ofNat (86400 * k)).toInt = (86400 * k : ℕ) :=
        Int64.toInt_ofNat_of_lt (by omega)
      constructor
      · rw [Int64.le_iff_toInt_le, htime]
        exact Int.natCast_nonneg _
      · unfold dayOf
        rw [htime]
        omega
    have hperm := h.cycle 0 (fun k => Int64.ofNat (86400 * k)) hvalid
    by_contra hne
    have hmem : ((1 : ℕ) : Int) ∈ (List.range rows).map fun k : ℕ => (k : Int) :=
      List.mem_map.mpr ⟨1, List.mem_range.mpr (by omega), rfl⟩
    obtain ⟨k, hk, hvalue⟩ := List.mem_map.mp (hperm.mem_iff.mpr hmem)
    have hlt := List.mem_range.mp hk
    rw [qotd_ofNat (by omega)] at hvalue
    -- midnight is a whole number of minutes, and `rows` divides 1440
    have hzero : 86400 * k / 60 * 1440 % rows = 0 := by
      rw [hfactor]
      exact Nat.mod_eq_zero_of_dvd ⟨86400 * k / 60 * factor, by ring⟩
    omega
  · rintro rfl
    refine ⟨fun t₁ t₂ _ _ _ => ?_, fun first times _ => ?_⟩
    · rw [qotd_one, qotd_one]
    · rw [List.range_one, List.map_singleton, List.map_singleton, qotd_one]
      rfl

theorem quoteOfTheDay_iff (file : Text) (separator : Char) :
    QuoteOfTheDay (csvInit file separator).1.rows ↔ (linesOf file).length ≤ 1 := by
  have hrows := csvInit_rows file separator
  rw [quoteOfTheDay_rows_iff (by omega)]
  omega

/-- Seven lines: the row changes after a minute. -/
theorem quoteOfTheDay_fails :
    ¬∀ file separator, QuoteOfTheDay (csvInit file separator).1.rows := by
  intro hall
  have hdvd := (hall (List.replicate 7 '\n') ',').dvd
  exact absurd hdvd (by decide)

end Netsvc.CClientServer
