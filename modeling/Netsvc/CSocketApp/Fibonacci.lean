import Netsvc.Library.Fibonacci

/-! `fibonacci.h`: the loop over three `unsigned long` variables. -/
namespace Netsvc.CSocketApp
open Netsvc.Library.Fibonacci

def fibonacciLoop : Nat → UInt64 → UInt64 → UInt64 → UInt64
  | 0, _, _, fib3 => fib3
  | count + 1, _, fib2, fib3 => fibonacciLoop count fib2 fib3 (fib2 + fib3)

/-- `none` is the `exit(1)` on index 0. -/
def fibonacci (index : UInt64) : Option UInt64 :=
  if index = 0 then none
  else if index = 1 ∨ index = 2 then some 1
  else some (fibonacciLoop (index.toNat - 2) 1 1 (1 + 1))

example : fibonacci 10 = some 89 := by decide

theorem fibonacci_eq_none_iff {index : UInt64} : fibonacci index = none ↔ index = 0 := by
  unfold fibonacci
  split_ifs with hzero
  · simp [hzero]
  · simp [hzero]
  · simp [hzero]

/-- The variables hold three neighbours of a Fibonacci-like sequence; `fib3` is
one ahead of the loop counter. -/
theorem fibonacciLoop_eq {f : ℕ → UInt64} (hf : FibonacciLike f) (count n : ℕ) :
    fibonacciLoop count (f n) (f (n + 1)) (f (n + 2)) = f (n + 2 + count) := by
  induction count generalizing n with
  | zero => rfl
  | succ count ih =>
    have hnext := ih (n + 1)
    rw [hf (n + 1)] at hnext
    unfold fibonacciLoop
    rw [hnext]
    congr 1
    omega

theorem fibonacciLike_ofNat : FibonacciLike fun n => UInt64.ofNat (Nat.fib n) :=
  fibonacciLike_fib.map UInt64.ofNat UInt64.ofNat_add

theorem fibonacci_of_three_le {index : UInt64} (h : 3 ≤ index.toNat) :
    fibonacci index = some (UInt64.ofNat (Nat.fib (index.toNat + 1))) := by
  have hzero : index ≠ 0 := by rintro rfl; simp at h
  have hsmall : ¬(index = 1 ∨ index = 2) := by rintro (rfl | rfl) <;> simp at h
  have hloop := fibonacciLoop_eq fibonacciLike_ofNat (index.toNat - 2) 1
  unfold fibonacci
  rw [if_neg hzero, if_neg hsmall]
  refine congrArg some (hloop.trans ?_)
  congr 2
  omega

theorem ofNat_fib_succ_eq_iff {n : ℕ} (hn : 1 ≤ n) :
    UInt64.ofNat (Nat.fib (n + 1)) = UInt64.ofNat (Nat.fib n) ↔ 3 * 2 ^ 62 ∣ n - 1 := by
  obtain ⟨m, rfl⟩ := Nat.exists_eq_add_of_le' hn
  have hfib : Nat.fib (m + 1 + 1) = Nat.fib m + Nat.fib (m + 1) := Nat.fib_add_two
  have hdvd : 2 ^ 64 ∣ Nat.fib m ↔ 3 * 2 ^ 62 ∣ m := two_pow_dvd_fib_iff 61 m
  rw [← UInt64.toNat_inj, UInt64.toNat_ofNat', UInt64.toNat_ofNat', hfib, Nat.add_sub_cancel,
    ← hdvd]
  omega

theorem three_mul_two_pow_dvd_iff {n : ℕ} (hn : n < 2 ^ 64) :
    3 * 2 ^ 62 ∣ n ↔ n = 0 ∨ n = 3 * 2 ^ 62 := by
  omega

/-- The result is the Fibonacci number asked for at three indexes only. -/
theorem fibonacci_eq_fib_iff (index : UInt64) (h : 1 ≤ index) :
    fibonacci index = some (UInt64.ofNat (Nat.fib index.toNat)) ↔
      index.toNat = 1 ∨ index.toNat = 2 ∨ index.toNat = 3 * 2 ^ 62 + 1 := by
  have hpos : 1 ≤ index.toNat := UInt64.le_iff_toNat_le.mp h
  have hlt : index.toNat < 2 ^ 64 := index.toNat_lt
  rcases Nat.lt_or_ge index.toNat 3 with hsmall | hbig
  · have hone : index = 1 ↔ index.toNat = 1 := UInt64.toNat_inj.symm
    have htwo : index = 2 ↔ index.toNat = 2 := UInt64.toNat_inj.symm
    have hvalue : index = 1 ∨ index = 2 := by
      rw [hone, htwo]
      omega
    apply iff_of_true
    · rcases hvalue with rfl | rfl <;> decide
    · omega
  · rw [fibonacci_of_three_le hbig, Option.some_inj, ofNat_fib_succ_eq_iff hpos,
      three_mul_two_pow_dvd_iff (by omega)]
    omega

theorem fibonacci_eq_fib_at_the_ends :
    fibonacci 1 = some (UInt64.ofNat (Nat.fib (UInt64.toNat 1))) ∧
      fibonacci 13835058055282163713 =
        some (UInt64.ofNat (Nat.fib (UInt64.toNat 13835058055282163713))) :=
  ⟨(fibonacci_eq_fib_iff 1 (by decide)).mpr (.inl rfl),
    (fibonacci_eq_fib_iff 13835058055282163713 (by decide)).mpr (.inr (.inr (by decide)))⟩

theorem fibonacci_three_ne :
    ¬∀ index : UInt64, 1 ≤ index →
      fibonacci index = some (UInt64.ofNat (Nat.fib index.toNat)) := by
  intro hall
  exact absurd (hall 3 (by decide)) (by decide)

end Netsvc.CSocketApp
