import Mathlib.Data.Nat.Fib.Basic
import Mathlib.Data.Nat.Prime.Basic
import Mathlib.Tactic.IntervalCases
import Mathlib.Tactic.Positivity
import Mathlib.Tactic.Ring

/-! Fibonacci-like sequences in any addition, and which Fibonacci numbers a power
of two divides. -/
namespace Netsvc.Library.Fibonacci

def FibonacciLike {α : Type*} [Add α] (f : ℕ → α) : Prop := ∀ n, f (n + 2) = f n + f (n + 1)

theorem FibonacciLike.map {α β : Type*} [Add α] [Add β] {f : ℕ → α} (hf : FibonacciLike f)
    (g : α → β) (hg : ∀ a b, g (a + b) = g a + g b) : FibonacciLike fun n => g (f n) := by
  intro n
  change g (f (n + 2)) = g (f n) + g (f (n + 1))
  rw [hf n, hg]

theorem fibonacciLike_fib : FibonacciLike Nat.fib := fun _ => Nat.fib_add_two

theorem fib_three_mul_two_pow (j : ℕ) :
    ∃ c, ¬ 2 ∣ c ∧ Nat.fib (3 * 2 ^ (j + 1)) = 2 ^ (j + 3) * c := by
  induction j with
  | zero => exact ⟨1, by decide, by decide⟩
  | succ j ih =>
    obtain ⟨c, hc, hfib⟩ := ih
    set m := 3 * 2 ^ (j + 1) with hm
    have hdouble : 3 * 2 ^ (j + 1 + 1) = 2 * m := by rw [hm]; ring
    have hcoprime := Nat.fib_coprime_fib_succ m
    have heven : Nat.fib m = 4 * (2 ^ (j + 1) * c) := by rw [hfib]; ring
    have hodd : ¬ 2 ∣ Nat.fib (m + 1) := by
      intro h
      have htwo : 2 ∣ Nat.fib m := ⟨2 * (2 ^ (j + 1) * c), by rw [heven]; ring⟩
      exact absurd (Nat.dvd_gcd htwo h) (by rw [hcoprime.gcd_eq_one]; decide)
    have hmono : Nat.fib m ≤ Nat.fib (m + 1) := Nat.fib_le_fib_succ
    obtain ⟨d, hd⟩ : ∃ d, 2 * Nat.fib (m + 1) - Nat.fib m = 2 * d ∧ ¬ 2 ∣ d :=
      ⟨Nat.fib (m + 1) - 2 * (2 ^ (j + 1) * c), by omega, by omega⟩
    refine ⟨c * d, ?_, ?_⟩
    · rw [Nat.prime_two.dvd_mul]
      exact not_or.mpr ⟨hc, hd.2⟩
    · rw [hdouble, Nat.fib_two_mul, hd.1, hfib]
      ring

theorem not_two_pow_dvd_fib (j : ℕ) : ¬ 2 ^ (j + 4) ∣ Nat.fib (3 * 2 ^ (j + 1)) := by
  obtain ⟨c, hc, hfib⟩ := fib_three_mul_two_pow j
  rw [hfib, pow_succ, Nat.mul_dvd_mul_iff_left (by positivity)]
  exact hc

theorem two_pow_dvd_fib (j : ℕ) : 2 ^ (j + 3) ∣ Nat.fib (3 * 2 ^ (j + 1)) := by
  obtain ⟨c, -, hfib⟩ := fib_three_mul_two_pow j
  exact ⟨c, hfib⟩

theorem eight_dvd_fib {n : ℕ} (h : 8 ∣ Nat.fib n) : 6 ∣ n := by
  have hgcd : Nat.fib (Nat.gcd 6 n) = 8 := by
    rw [Nat.fib_gcd]
    exact Nat.gcd_eq_left h
  have hbound := Nat.le_of_dvd (by decide) (Nat.gcd_dvd_left 6 n)
  have hsix : Nat.gcd 6 n = 6 := by
    interval_cases hg : Nat.gcd 6 n <;> first | rfl | simp [Nat.fib_add_two] at hgcd
  have hself : 6 ∣ Nat.gcd 6 n := by rw [hsix]
  exact hself.trans (Nat.gcd_dvd_right 6 n)

theorem two_pow_dvd_fib_iff (j n : ℕ) : 2 ^ (j + 3) ∣ Nat.fib n ↔ 3 * 2 ^ (j + 1) ∣ n := by
  constructor
  · induction j with
    | zero => exact eight_dvd_fib
    | succ j ih =>
      intro h
      obtain ⟨q, rfl⟩ := ih ((pow_dvd_pow 2 (by omega)).trans h)
      -- an odd `q` would leave `3 * 2 ^ (j + 1)` as the common divisor of the two indexes
      have heven : 2 ∣ q := by
        by_contra hq
        have hcoprime : Nat.gcd 2 q = 1 := (Nat.prime_two.coprime_iff_not_dvd).mpr hq
        have hgcd : Nat.gcd (3 * 2 ^ (j + 1 + 1)) (3 * 2 ^ (j + 1) * q) = 3 * 2 ^ (j + 1) := by
          rw [pow_succ, ← mul_assoc, Nat.gcd_mul_left, hcoprime, mul_one]
        apply not_two_pow_dvd_fib j
        rw [← hgcd, Nat.fib_gcd]
        exact Nat.dvd_gcd (two_pow_dvd_fib (j + 1)) h
      obtain ⟨r, rfl⟩ := heven
      exact ⟨r, by ring⟩
  · intro h
    exact (two_pow_dvd_fib j).trans (Nat.fib_dvd _ _ h)

end Netsvc.Library.Fibonacci
