import Netsvc.JavaSocketApp.FibSocket

/-! `host_functions.h`: the recursive `fibonacci`, next to the loop of the Java
server. -/
namespace Netsvc.CppSocketApp
open Netsvc.JavaSocketApp (fibWithin fibWithin_eq fib_eq fibonacciLike_ofNat)

/-- `fibonacci` with room for `depth` nested calls; `none` when they do not
suffice, as for every negative argument. -/
def fibonacci : Nat → Int32 → Option Int32
  | 0, _ => none
  | depth + 1, n =>
    if n = 0 then some 0
    else if n = 1 ∨ n = 2 then some 1
    else do
      let first ← fibonacci depth (n - 1)
      let second ← fibonacci depth (n - 2)
      some (first + second)

example : fibonacci 8 8 = some 21 := by decide

theorem ofNat_ne_of_lt {k m : ℕ} (hk : k < 2 ^ 31) (hm : m < 2 ^ 31) (h : k ≠ m) :
    Int32.ofNat k ≠ Int32.ofNat m := by
  intro heq
  have hvalue := congrArg Int32.toNatClampNeg heq
  rw [Int32.toNatClampNeg_ofNat_of_lt hk, Int32.toNatClampNeg_ofNat_of_lt hm] at hvalue
  exact h hvalue

theorem fibonacci_ofNat {k depth : ℕ} (hk : k < 2 ^ 31) (hdepth : k < depth) :
    fibonacci depth (Int32.ofNat k) = some (Int32.ofNat (Nat.fib k)) := by
  induction depth generalizing k with
  | zero => omega
  | succ depth ih =>
    match k, hk, hdepth with
    | 0, _, _ => rfl
    | 1, _, _ => rfl
    | 2, _, _ => rfl
    | k + 3, hk, hdepth =>
      have hzero : Int32.ofNat (k + 3) ≠ 0 := ofNat_ne_of_lt (m := 0) hk (by decide) (by omega)
      have hone : Int32.ofNat (k + 3) ≠ 1 := ofNat_ne_of_lt (m := 1) hk (by decide) (by omega)
      have htwo : Int32.ofNat (k + 3) ≠ 2 := ofNat_ne_of_lt (m := 2) hk (by decide) (by omega)
      have hfirst : Int32.ofNat (k + 3) - 1 = Int32.ofNat (k + 2) :=
        (Int32.ofNat_sub (k + 3) 1 (by omega)).symm
      have hsecond : Int32.ofNat (k + 3) - 2 = Int32.ofNat (k + 1) :=
        (Int32.ofNat_sub (k + 3) 2 (by omega)).symm
      unfold fibonacci
      rw [if_neg hzero, if_neg (not_or.mpr ⟨hone, htwo⟩), hfirst, hsecond,
        ih (by omega) (by omega), ih (by omega) (by omega)]
      exact congrArg some ((Int32.add_comm _ _).trans (fibonacciLike_ofNat (k + 1)).symm)

/-- The recursion returns what the loop of the Java server does, the Fibonacci
number modulo `2 ^ 32`. -/
theorem fibonacci_eq_fib (n : Int32) (hn : 0 ≤ n) (hmax : n.toInt < 2 ^ 31 - 1) (limit : ℕ)
    (hlimit : n.toInt < limit) :
    fibonacci limit n = fibWithin limit n ∧
      fibWithin limit n = some (Int32.ofNat (Nat.fib n.toNatClampNeg)) := by
  have hcast : n.toInt = n.toNatClampNeg := Int32.toInt_eq_toNatClampNeg hn
  have hrec : fibonacci limit (Int32.ofNat n.toNatClampNeg) =
      some (Int32.ofNat (Nat.fib n.toNatClampNeg)) :=
    fibonacci_ofNat n.toNatClampNeg_lt (by omega)
  have hloop : fibWithin limit n = some (Int32.ofNat (Nat.fib n.toNatClampNeg)) := by
    rw [fibWithin_eq hn hmax hlimit, fib_eq hn]
  rw [Int32.ofNat_toNatClampNeg n hn] at hrec
  exact ⟨hrec.trans hloop.symm, hloop⟩

theorem fibonacci_eq_fib_forty_seven :
    fibonacci 48 47 = fibWithin 48 47 ∧
      fibWithin 48 47 = some (Int32.ofNat (Nat.fib (Int32.toNatClampNeg 47))) :=
  fibonacci_eq_fib 47 (by decide) (by decide) 48 (by decide)

end Netsvc.CppSocketApp
