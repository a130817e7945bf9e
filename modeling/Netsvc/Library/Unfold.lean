import Mathlib.Tactic.TypeStar

/-! The list a partial step gives when it is taken again and again. -/
namespace Netsvc.Library.Unfold

variable {σ α : Type*} {next : σ → Option (α × σ)} {size : σ → Nat}

def collect (next : σ → Option (α × σ)) : Nat → σ → List α
  | 0, _ => []
  | fuel + 1, s =>
    match next s with
    | none => []
    | some (a, rest) => a :: collect next fuel rest

def Shrinks (next : σ → Option (α × σ)) (size : σ → Nat) : Prop :=
  ∀ s a rest, next s = some (a, rest) → size rest < size s

theorem collect_of_none {s : σ} (h : next s = none) (fuel : Nat) : collect next fuel s = [] := by
  cases fuel with
  | zero => rfl
  | succ fuel => simp only [collect, h]

variable (hshrinks : Shrinks next size)
include hshrinks

theorem collect_eq {s : σ} {m n : Nat} (hm : size s ≤ m) (hn : size s ≤ n) :
    collect next m s = collect next n s := by
  induction m generalizing s n with
  | zero =>
    have hnone : next s = none := by
      rw [Option.eq_none_iff_forall_ne_some]
      rintro ⟨a, rest⟩ h
      exact absurd (hshrinks s a rest h) (by omega)
    rw [collect_of_none hnone, collect_of_none hnone]
  | succ m ih =>
    cases hnext : next s with
    | none => rw [collect_of_none hnext, collect_of_none hnext]
    | some step =>
      obtain ⟨a, rest⟩ := step
      have hlt := hshrinks s a rest hnext
      have hpos := Nat.lt_of_lt_of_le hlt hn
      obtain ⟨n, rfl⟩ := Nat.exists_eq_succ_of_ne_zero (Nat.ne_zero_of_lt hpos)
      simp only [collect, hnext]
      rw [ih (by omega) (by omega : size rest ≤ n)]

theorem collect_of_some {s rest : σ} {a : α} (h : next s = some (a, rest)) :
    collect next (size s) s = a :: collect next (size rest) rest := by
  have hlt := hshrinks s a rest h
  obtain ⟨n, hn⟩ := Nat.exists_eq_succ_of_ne_zero (Nat.ne_zero_of_lt hlt)
  rw [hn]
  simp only [collect, h]
  rw [collect_eq hshrinks (by omega : size rest ≤ n) (Nat.le_refl _)]

end Netsvc.Library.Unfold
