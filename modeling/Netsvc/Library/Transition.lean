import Mathlib.Logic.Relation
import Mathlib.Tactic.ByContra
import Mathlib.Tactic.Push

/-! Labelled transition systems: what holds in every reachable state, and in
every state of one run. -/
namespace Netsvc.Library.Transition

variable {State Event : Type*} {step : State → Event → State → Prop}

def Reachable (step : State → Event → State → Prop) : State → State → Prop :=
  Relation.ReflTransGen fun s s' => ∃ e, step s e s'

theorem Reachable.refl (s : State) : Reachable step s s := Relation.ReflTransGen.refl

theorem reachable_of_step {s s' : State} {e : Event} (h : step s e s') : Reachable step s s' :=
  Relation.ReflTransGen.single ⟨e, h⟩

theorem Reachable.head {s s' t : State} {e : Event} (h : step s e s')
    (tail : Reachable step s' t) : Reachable step s t :=
  Relation.ReflTransGen.head ⟨e, h⟩ tail

theorem Reachable.trans {s t u : State} (left : Reachable step s t)
    (right : Reachable step t u) : Reachable step s u :=
  Relation.ReflTransGen.trans left right

theorem Reachable.map {Image Label : Type*} {spec : Image → Label → Image → Prop}
    (f : State → Image) (h : ∀ s e s', step s e s' → ∃ l, spec (f s) l (f s')) {s t : State}
    (hreach : Reachable step s t) : Reachable spec (f s) (f t) := by
  induction hreach with
  | refl => exact .refl _
  | tail _ hstep ih =>
    obtain ⟨e, hstep⟩ := hstep
    exact ih.tail (h _ e _ hstep)

theorem Reachable.mono {Label : Type*} {spec : State → Label → State → Prop}
    (h : ∀ s e s', step s e s' → ∃ l, spec s l s') {s t : State} (hreach : Reachable step s t) :
    Reachable spec s t :=
  hreach.map id h

theorem Reachable.invariant (inv : State → Prop)
    (preserves : ∀ s e s', inv s → step s e s' → inv s') {s t : State}
    (h : Reachable step s t) (hs : inv s) : inv t := by
  induction h with
  | refl => exact hs
  | tail _ hstep ih =>
    obtain ⟨e, hstep⟩ := hstep
    exact preserves _ e _ ih hstep

/-- A run: the events in order, each with the state it leads to. -/
def Run (step : State → Event → State → Prop) : State → List (Event × State) → Prop
  | _, [] => True
  | s, (e, s') :: run => step s e s' ∧ Run step s' run

def Guarded (good : State → Event → Prop) : State → List (Event × State) → Prop
  | _, [] => True
  | s, (e, s') :: run => good s e ∧ Guarded good s' run

/-- When good steps keep the invariant and every other step leads out of the
safe states, a run stays safe exactly when all its steps are good. -/
theorem Run.safe_iff_guarded (inv : State → Prop) {safe : State → Prop}
    (good : State → Event → Prop) (isSafe : ∀ s, inv s → safe s)
    (preserves : ∀ s e s', inv s → step s e s' → good s e → inv s')
    (exposes : ∀ s e s', inv s → step s e s' → ¬good s e → ¬safe s')
    {start : State} (hstart : inv start) {run : List (Event × State)} (h : Run step start run) :
    (safe start ∧ ∀ p ∈ run, safe p.2) ↔ Guarded good start run := by
  induction run generalizing start with
  | nil => simpa [Guarded] using isSafe start hstart
  | cons p run ih =>
    obtain ⟨e, s'⟩ := p
    obtain ⟨hstep, hrun⟩ := h
    constructor
    · rintro ⟨-, hall⟩
      have hgood : good start e := by
        by_contra hbad
        exact exposes start e s' hstart hstep hbad (hall (e, s') List.mem_cons_self)
      have hnext := preserves start e s' hstart hstep hgood
      refine ⟨hgood, (ih hnext hrun).mp ⟨isSafe s' hnext, ?_⟩⟩
      exact fun p hp => hall p (List.mem_cons_of_mem _ hp)
    · rintro ⟨hgood, hguarded⟩
      have hnext := preserves start e s' hstart hstep hgood
      obtain ⟨hsafe, hall⟩ := (ih hnext hrun).mpr hguarded
      refine ⟨isSafe start hstart, fun p hp => ?_⟩
      rcases List.mem_cons.mp hp with rfl | hp
      · exact hsafe
      · exact hall p hp

def Final (step : State → Event → State → Prop) (s : State) : Prop := ∀ e s', ¬step s e s'

section Rank
variable (inv : State → Prop) {rank : State → Nat}
  (preserves : ∀ s e s', inv s → step s e s' → inv s')
  (decreases : ∀ s e s', inv s → step s e s' → rank s' < rank s)
include preserves decreases

theorem Run.length_le {s : State} (hs : inv s) {run : List (Event × State)} (h : Run step s run) :
    run.length ≤ rank s := by
  induction run generalizing s with
  | nil => exact Nat.zero_le _
  | cons p run ih =>
    obtain ⟨e, s'⟩ := p
    obtain ⟨hstep, hrun⟩ := h
    have hle := ih (preserves s e s' hs hstep) hrun
    exact Nat.succ_le_of_lt (Nat.lt_of_le_of_lt hle (decreases s e s' hs hstep))

theorem exists_final {s : State} (hs : inv s) : ∃ t, Reachable step s t ∧ Final step t := by
  induction hm : rank s using Nat.strongRecOn generalizing s with
  | ind m ih =>
    subst hm
    by_cases hfinal : Final step s
    · exact ⟨s, .refl s, hfinal⟩
    · unfold Final at hfinal
      push Not at hfinal
      obtain ⟨e, s', hstep⟩ := hfinal
      obtain ⟨t, hreach, ht⟩ := ih _ (decreases s e s' hs hstep) (preserves s e s' hs hstep) rfl
      exact ⟨t, .head hstep hreach, ht⟩

end Rank

section Decreasing
variable {rank : State → Nat} (decreases : ∀ s e s', step s e s' → rank s' < rank s)
include decreases

theorem Run.length_le_rank {s : State} {run : List (Event × State)} (h : Run step s run) :
    run.length ≤ rank s :=
  h.length_le (fun _ => True) (fun _ _ _ _ _ => trivial) (fun s e s' _ => decreases s e s') trivial

theorem exists_final_of_decreasing (s : State) : ∃ t, Reachable step s t ∧ Final step t :=
  exists_final (fun _ => True) (fun _ _ _ _ _ => trivial) (fun s e s' _ => decreases s e s') trivial

end Decreasing

section Simulation
variable {Abstract Label : Type*} {spec : Abstract → Label → Abstract → Prop}

/-- Every step is one of the abstract system, or several, or none. -/
structure Simulation (step : State → Event → State → Prop)
    (spec : Abstract → Label → Abstract → Prop) (rel : State → Abstract → Prop) : Prop where
  match_step : ∀ s a e s', rel s a → step s e s' → ∃ b, Reachable spec a b ∧ rel s' b

/-- What a run reaches, the abstract system reaches too. -/
theorem Simulation.reachable {rel : State → Abstract → Prop} (h : Simulation step spec rel)
    {s t : State} {a : Abstract} (hrel : rel s a) (hreach : Reachable step s t) :
    ∃ b, Reachable spec a b ∧ rel t b := by
  induction hreach with
  | refl => exact ⟨a, .refl a, hrel⟩
  | tail _ hstep ih =>
    obtain ⟨e, hstep⟩ := hstep
    obtain ⟨b, hb, hrel⟩ := ih
    obtain ⟨c, hc, hrel⟩ := h.match_step _ b e _ hrel hstep
    exact ⟨c, hb.trans hc, hrel⟩

end Simulation

end Netsvc.Library.Transition
