import Netsvc.CSocketApp.Completion
import Netsvc.CppSocketApp.Completion

/-! The exchange of `main.c` beside that of `host.cpp`, with the same numbers drawn. -/
namespace Netsvc
open Netsvc.Library.Transition

theorem fibResultOf_ofNat {n : ℕ} (hpos : 1 ≤ n) (hlt : n < 30) :
    CSocketApp.fibResultOf (Int32.ofNat n) =
      some (Int32.ofNat (Nat.fib (if n ≤ 2 then n else n + 1))) := by
  have hall : ∀ m : Fin 30, 1 ≤ (m : ℕ) → CSocketApp.fibResultOf (Int32.ofNat m) =
      some (Int32.ofNat (Nat.fib (if (m : ℕ) ≤ 2 then m else m + 1))) := by decide +kernel
  exact hall ⟨n, hlt⟩ hpos

theorem ofNat_fib_succ_ne {n : ℕ} (htwo : ¬n ≤ 2) (hlt : n < 30) :
    Int32.ofNat (Nat.fib (n + 1)) ≠ Int32.ofNat (Nat.fib n) := by
  have hall : ∀ m : Fin 30, ¬(m : ℕ) ≤ 2 →
      Int32.ofNat (Nat.fib (m + 1)) ≠ Int32.ofNat (Nat.fib m) := by decide +kernel
  exact hall ⟨n, hlt⟩ htwo

section Runs
variable {c : CSocketApp.Setup} {cpp : CppSocketApp.Setup} {k : ℕ}

theorem c_result {x : CSocketApp.Exchange}
    (hreach : Reachable (CSocketApp.Exchange.Step c) .start x)
    (hfinal : Final (CSocketApp.Exchange.Step c) x) (hk : k < c.maxMessages) :
    x.host.results[k]? = CSocketApp.fibResultOf (c.fibIndex k) := by
  have hreports := congrArg (·[k]?) (CSocketApp.Exchange.complete hreach hfinal).2
  simp only [CSocketApp.Setup.reports, List.getElem?_map, List.getElem?_range hk,
    Option.map_some] at hreports
  cases hget : x.host.results[k]? with
  | none => simp [hget] at hreports
  | some result => simpa [hget] using hreports

theorem cpp_result {hostNumb secondaryNumb : Int32} {y : CppSocketApp.Exchange}
    (hreach : Reachable (CppSocketApp.Exchange.Step cpp) (.start hostNumb secondaryNumb) y)
    (hfinal : Final (CppSocketApp.Exchange.Step cpp) y)
    (horder : cpp.hostOrder = cpp.secondaryOrder) (hk : k < 10) :
    y.host.results[k]? = some (Int32.ofNat (Nat.fib (cpp.fibInput k))) := by
  rw [(CppSocketApp.Exchange.complete hreach hfinal fun _ _ => .inl horder).2,
    CppSocketApp.Setup.fibNumbers, List.getElem?_map, List.getElem?_range hk, Option.map_some]

end Runs

/-- In all complete runs with the same numbers drawn, the host of `host.cpp` reports the
Fibonacci number it has asked for, and the host of `main.c` the one behind it, unless
it has asked for the first or the second. So the two agree only there. -/
theorem hosts_agree_iff (c : CSocketApp.Setup) (cpp : CppSocketApp.Setup)
    (hostNumb secondaryNumb : Int32) (hmessages : c.maxMessages = 10)
    (horder : cpp.hostOrder = cpp.secondaryOrder)
    (hsame : ∀ k < 10, c.fibIndex k = Int32.ofNat (cpp.fibInput k))
    (x : CSocketApp.Exchange) (hx : Reachable (CSocketApp.Exchange.Step c) .start x)
    (hxfinal : Final (CSocketApp.Exchange.Step c) x) (y : CppSocketApp.Exchange)
    (hy : Reachable (CppSocketApp.Exchange.Step cpp) (.start hostNumb secondaryNumb) y)
    (hyfinal : Final (CppSocketApp.Exchange.Step cpp) y) (k : ℕ) (hk : k < 10) :
    let n := (cpp.fibInput k : ℕ)
    y.host.results[k]? = some (Int32.ofNat (Nat.fib n)) ∧
    (2 < n → x.host.results[k]? = some (Int32.ofNat (Nat.fib (n + 1)))) ∧
    (x.host.results[k]? = y.host.results[k]? ↔ n ≤ 2) := by
  intro n
  have hlt : n < 30 := (cpp.fibInput k).isLt
  have hpos : 1 ≤ n := by
    refine Nat.one_le_iff_ne_zero.mpr fun hzero => ?_
    have hpositive := c.positive k (hmessages ▸ hk)
    rw [hsame k hk] at hpositive
    change 1 ≤ Int32.ofNat n at hpositive
    rw [hzero] at hpositive
    exact absurd hpositive (by decide)
  have hc := c_result hx hxfinal (hmessages ▸ hk)
  rw [hsame k hk, fibResultOf_ofNat hpos hlt] at hc
  have hcpp := cpp_result hy hyfinal horder hk
  refine ⟨hcpp, fun htwo => ?_, ?_⟩
  · rw [hc, if_neg (Nat.not_le.mpr htwo)]
  · rw [hc, hcpp, Option.some_inj]
    by_cases htwo : n ≤ 2
    · rw [if_pos htwo]
      exact iff_of_true rfl htwo
    · rw [if_neg htwo]
      exact iff_of_false (ofNat_fib_succ_ne htwo hlt) htwo

theorem hosts_agree_iff_fifth : ∃ x y,
    Reachable (CSocketApp.Exchange.Step ⟨.big, .little, 10, fun _ => 5, fun _ _ => by decide⟩)
      .start x ∧
    Reachable (CppSocketApp.Exchange.Step ⟨.big, .big, fun _ => 5, 1000, by decide⟩)
      (.start 0 0) y ∧
    x.host.results[3]? = some 8 ∧ y.host.results[3]? = some 5 := by
  obtain ⟨x, hx, hxfinal⟩ : ∃ x, Reachable (CSocketApp.Exchange.Step
      ⟨.big, .little, 10, fun _ => 5, fun _ _ => by decide⟩) .start x ∧ Final _ x :=
    CSocketApp.Exchange.exists_final _
  obtain ⟨y, hy, hyfinal⟩ : ∃ y, Reachable (CppSocketApp.Exchange.Step
      ⟨.big, .big, fun _ => 5, 1000, by decide⟩) (.start 0 0) y ∧ Final _ y :=
    CppSocketApp.Exchange.exists_final _
  obtain ⟨hcpp, hc, -⟩ := hosts_agree_iff _ _ 0 0 rfl rfl (fun _ _ => rfl) x hx hxfinal y hy
    hyfinal 3 (by decide)
  exact ⟨x, y, hx, hy, hc (by decide), hcpp⟩

end Netsvc
