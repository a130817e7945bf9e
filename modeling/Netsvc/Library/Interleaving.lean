import Mathlib.Algebra.Order.BigOperators.Group.Finset
import Mathlib.Logic.Function.Basic
import Netsvc.Library.Transition

/-! Systems side by side that share nothing: each step is one of a single system. -/
namespace Netsvc.Library.Interleaving
open Netsvc.Library.Transition

variable {ι State Event : Type*} [DecidableEq ι] {step : ι → State → Event → State → Prop}

inductive Interleaved (step : ι → State → Event → State → Prop) :
    (ι → State) → ι × Event → (ι → State) → Prop
  | move {x : ι → State} {e : Event} {s : State} (i : ι) (hstep : step i (x i) e s) :
      Interleaved step x (i, e) (Function.update x i s)

theorem Interleaved.component {x y : ι → State} (h : Reachable (Interleaved step) x y) (i : ι) :
    Reachable (step i) (x i) (y i) := by
  refine h.invariant (fun z => Reachable (step i) (x i) (z i)) ?_ (.refl _)
  intro z e w hz hstep
  cases hstep with
  | @move e s j hstep =>
    rcases eq_or_ne j i with rfl | hne
    · rw [Function.update_self]
      exact hz.tail ⟨e, hstep⟩
    · rwa [Function.update_of_ne hne.symm]

/-- What a system can do alone it can do beside the others, which stay where they are. -/
theorem Interleaved.lift {x : ι → State} {i : ι} {s : State} (h : Reachable (step i) (x i) s) :
    Reachable (Interleaved step) x (Function.update x i s) := by
  induction h with
  | refl =>
    rw [Function.update_eq_self]
    exact .refl x
  | @tail s t _ hstep ih =>
    obtain ⟨e, hstep⟩ := hstep
    have hmove : Interleaved step (Function.update x i s) (i, e)
        (Function.update (Function.update x i s) i t) := by
      refine .move i ?_
      rwa [Function.update_self]
    rw [Function.update_idem] at hmove
    exact ih.tail ⟨_, hmove⟩

theorem sum_rank_update_lt [Fintype ι] {rank : State → Nat} {x : ι → State} {i : ι} {s : State}
    (h : rank s < rank (x i)) :
    ∑ j, rank (Function.update x i s j) < ∑ j, rank (x j) := by
  refine Finset.sum_lt_sum (fun j _ => ?_) ⟨i, Finset.mem_univ i, by rwa [Function.update_self]⟩
  rcases eq_or_ne j i with rfl | hne
  · rw [Function.update_self]
    exact h.le
  · rw [Function.update_of_ne hne]

end Netsvc.Library.Interleaving
