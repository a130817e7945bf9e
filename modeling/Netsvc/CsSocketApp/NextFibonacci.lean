import Mathlib.NumberTheory.Real.GoldenRatio
import Netsvc.Library.Rounding

/-! `nextFibonacci` of `FibSocketServer.cs` and `FibSocketClient.cs`, the same in
both, with its `double` read as a real number. -/
namespace Netsvc.CsSocketApp
open Netsvc.Library.Rounding Real

/-- `n * (1 + Math.Sqrt(5)) / 2.0`. -/
noncomputable def golden (n : ℤ) : ℝ := n * (1 + √5) / 2.0

/-- `(int)` of a `double` without a fraction. Out of the range of `int` the value is
`unspecified` by the language. -/
def castInt (unspecified : ℤ → Int32) (value : ℤ) : Int32 :=
  if -2 ^ 31 ≤ value ∧ value < 2 ^ 31 then Int32.ofInt value else unspecified value

noncomputable def nextFibonacci (unspecified : ℤ → Int32) (n : Int32) : Int32 :=
  castInt unspecified (roundHalfEven (golden n.toInt))

theorem toInt_castInt {unspecified : ℤ → Int32} {value : ℤ}
    (h : -2 ^ 31 ≤ value ∧ value < 2 ^ 31) : (castInt unspecified value).toInt = value := by
  unfold castInt
  rw [if_pos h]
  exact Int32.toInt_ofInt_of_le h.1 h.2

theorem abs_goldenConj_pow_lt {k : ℕ} (hk : 2 ≤ k) : |goldenConj ^ k| < 1 / 2 := by
  have hlo := neg_one_lt_goldenConj
  have hneg := goldenConj_neg
  have hle : |goldenConj| ≤ 1 := (abs_lt.mpr ⟨hlo, by linarith⟩).le
  have hsqrt : (2 : ℝ) < √5 := Real.lt_sqrt_of_sq_lt (by norm_num)
  calc |goldenConj ^ k| = |goldenConj| ^ k := abs_pow _ _
    _ ≤ |goldenConj| ^ 2 := pow_le_pow_of_le_one (abs_nonneg _) hle hk
    _ = goldenConj + 1 := by rw [sq_abs, goldenConj_sq]
    _ < 1 / 2 := by
      unfold goldenConj
      linarith

theorem golden_eq (n : ℤ) : golden n = goldenRatio * n := by
  have htwo : (2.0 : ℝ) = 2 := by norm_num
  unfold golden goldenRatio
  rw [htwo]
  ring

/-- The product is off the next Fibonacci number by a power of the conjugate. -/
theorem golden_fib_sub (k : ℕ) :
    golden (Nat.fib k) - (Nat.fib (k + 1) : ℤ) = -goldenConj ^ k := by
  rw [golden_eq, ← fib_succ_sub_goldenRatio_mul_fib, neg_sub]
  push_cast
  rfl

theorem abs_golden_fib_sub_lt {k : ℕ} (hk : 2 ≤ k) :
    |golden (Nat.fib k) - (Nat.fib (k + 1) : ℤ)| < 1 / 2 := by
  rw [golden_fib_sub, abs_neg]
  exact abs_goldenConj_pow_lt hk

theorem nextFibonacci_fib (unspecified : ℤ → Int32) {k : ℕ} (hk : 2 ≤ k) {n : Int32}
    (hn : n.toInt = Nat.fib k) (hint : Nat.fib (k + 1) < 2 ^ 31) :
    (nextFibonacci unspecified n).toInt = Nat.fib (k + 1) := by
  unfold nextFibonacci
  rw [hn, roundHalfEven_of_abs_sub_lt (abs_golden_fib_sub_lt hk)]
  apply toInt_castInt
  omega

end Netsvc.CsSocketApp
