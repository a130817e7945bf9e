import Mathlib.Tactic.TypeStar

/-! Loops that run on fuel: getting from one state to a later one, and never
coming to an end. -/
namespace Netsvc.Library.Fuel

variable {σ ρ : Type*} {run : Nat → σ → ρ} {s t u : σ}

/-- The loop started at `s` comes to `t` at a fixed cost. -/
def Reaches (run : Nat → σ → ρ) (s t : σ) : Prop :=
  ∃ cost, ∀ fuel, run (cost + fuel) s = run fuel t

theorem Reaches.refl (run : Nat → σ → ρ) (s : σ) : Reaches run s s :=
  ⟨0, fun fuel => by rw [Nat.zero_add]⟩

theorem Reaches.head (hstep : ∀ fuel, run (fuel + 1) s = run fuel t) (h : Reaches run t u) :
    Reaches run s u := by
  obtain ⟨cost, hcost⟩ := h
  refine ⟨cost + 1, fun fuel => ?_⟩
  rw [Nat.add_right_comm, hstep, hcost]

theorem Reaches.exists_run (h : Reaches run s t) (good : ρ → Prop) {fuel : Nat}
    (hgood : good (run fuel t)) : ∃ fuel, good (run fuel s) := by
  obtain ⟨cost, hcost⟩ := h
  refine ⟨cost + fuel, ?_⟩
  rwa [hcost]

/-- What holds of every large fuel at `t` holds of every large fuel at `s`. -/
theorem Reaches.eventually (h : Reaches run s t) (good : ρ → Prop) (least : Nat)
    (hgood : ∀ fuel, least ≤ fuel → good (run fuel t)) :
    ∃ least, ∀ fuel, least ≤ fuel → good (run fuel s) := by
  obtain ⟨cost, hcost⟩ := h
  refine ⟨cost + least, fun fuel hle => ?_⟩
  obtain ⟨rest, rfl⟩ := Nat.exists_eq_add_of_le (Nat.le_of_add_right_le hle)
  rw [hcost]
  exact hgood rest (Nat.le_of_add_le_add_left hle)

theorem forall_run_of_invariant (run : Nat → σ → ρ) (inv : σ → Prop) (bad : ρ → Prop)
    (hzero : ∀ s, inv s → bad (run 0 s))
    (hstep : ∀ s fuel, inv s → bad (run (fuel + 1) s) ∨
      ∃ t, inv t ∧ run (fuel + 1) s = run fuel t)
    (hs : inv s) (fuel : Nat) : bad (run fuel s) := by
  induction fuel generalizing s with
  | zero => exact hzero s hs
  | succ fuel ih =>
    rcases hstep s fuel hs with hbad | ⟨t, ht, hrun⟩
    · exact hbad
    · rw [hrun]
      exact ih ht

end Netsvc.Library.Fuel
