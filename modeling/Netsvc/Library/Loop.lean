import Mathlib.Logic.Relation

/-! A `while` loop as the relation between its states at two tests of the condition. -/
namespace Netsvc.Library.Loop

variable {σ : Type*} {exit : σ → Prop} {round : σ → σ → Prop} {s : σ}

def Ends (exit : σ → Prop) (round : σ → σ → Prop) (s : σ) : Prop :=
  ∃ t, Relation.ReflTransGen round s t ∧ exit t

theorem ends_iff : Ends exit round s ↔ exit s ∨ ∃ t, round s t ∧ Ends exit round t := by
  constructor
  · rintro ⟨t, hsteps, hexit⟩
    rcases hsteps.cases_head with rfl | ⟨next, hround, hrest⟩
    · exact .inl hexit
    · exact .inr ⟨next, hround, t, hrest, hexit⟩
  · rintro (hexit | ⟨next, hround, t, hrest, hexit⟩)
    · exact ⟨s, .refl, hexit⟩
    · exact ⟨t, .head hround hrest, hexit⟩

/-- States the loop does not leave, and in none of which it stops. -/
theorem not_ends_of_invariant (inv : σ → Prop) (hexit : ∀ s, inv s → ¬exit s)
    (hround : ∀ s t, inv s → round s t → inv t) (hs : inv s) : ¬Ends exit round s := by
  rintro ⟨t, hsteps, ht⟩
  refine hexit t ?_ ht
  clear ht
  induction hsteps with
  | refl => exact hs
  | tail _ hstep ih => exact hround _ _ ih hstep

/-- Where the loop has one way to go on, its only run comes to an end. -/
theorem Ends.not_forever (hone : ∀ s t u, round s t → round s u → t = u)
    (hstop : ∀ s t, exit s → ¬round s t) (h : Ends exit round s) :
    ¬∃ run : Nat → σ, run 0 = s ∧ ∀ n, round (run n) (run (n + 1)) := by
  rintro ⟨run, hzero, hrun⟩
  obtain ⟨t, hsteps, hexit⟩ := h
  have hreached : ∃ n, run n = t := by
    clear hexit
    induction hsteps with
    | refl => exact ⟨0, hzero⟩
    | tail _ hstep ih =>
      obtain ⟨n, rfl⟩ := ih
      exact ⟨n + 1, hone _ _ _ (hrun n) hstep⟩
  obtain ⟨n, rfl⟩ := hreached
  exact hstop _ _ hexit (hrun n)

end Netsvc.Library.Loop
