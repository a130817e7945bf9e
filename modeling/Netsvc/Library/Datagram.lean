import Mathlib.Algebra.Order.Group.Multiset
import Netsvc.Library.Transition

/-! A network of datagrams. It may lose them, deliver them in any order, and where
`duplicates` holds make copies of them. -/
namespace Netsvc.Library.Datagram
open Netsvc.Library.Transition

/-- All datagrams `sent` and `delivered` so far, and those on their way. -/
structure Network (Message : Type*) where
  sent : Multiset Message
  inFlight : Multiset Message
  delivered : Multiset Message

inductive Event (Message : Type*)
  | send (message : Message)
  | lose
  | duplicate
  | deliver (message : Message)

variable {Message : Type*} {duplicates : Prop}

def Network.start : Network Message := ⟨0, 0, 0⟩

inductive Network.Step (duplicates : Prop) :
    Network Message → Event Message → Network Message → Prop
  | send {sent inFlight delivered : Multiset Message} (message : Message) :
      Step duplicates ⟨sent, inFlight, delivered⟩ (.send message)
        ⟨message ::ₘ sent, message ::ₘ inFlight, delivered⟩
  | lose {sent inFlight delivered : Multiset Message} (message : Message) :
      Step duplicates ⟨sent, message ::ₘ inFlight, delivered⟩ .lose ⟨sent, inFlight, delivered⟩
  | duplicate {sent inFlight delivered : Multiset Message} (message : Message)
      (hallowed : duplicates) (hmem : message ∈ inFlight) :
      Step duplicates ⟨sent, inFlight, delivered⟩ .duplicate
        ⟨sent, message ::ₘ inFlight, delivered⟩
  | deliver {sent inFlight delivered : Multiset Message} (message : Message) :
      Step duplicates ⟨sent, message ::ₘ inFlight, delivered⟩ (.deliver message)
        ⟨sent, inFlight, message ::ₘ delivered⟩

section Counts
variable {n m : Network Message} {message : Message}

theorem Network.Step.of_send (h : Network.Step duplicates n (.send message) m) :
    m.sent = message ::ₘ n.sent ∧ m.delivered = n.delivered := by
  cases h
  exact ⟨rfl, rfl⟩

theorem Network.Step.of_deliver (h : Network.Step duplicates n (.deliver message) m) :
    m.sent = n.sent ∧ m.delivered = message ::ₘ n.delivered := by
  cases h
  exact ⟨rfl, rfl⟩

theorem Network.Step.of_lose (h : Network.Step duplicates n .lose m) :
    m.sent = n.sent ∧ m.delivered = n.delivered := by
  cases h
  exact ⟨rfl, rfl⟩

theorem Network.Step.of_duplicate (h : Network.Step duplicates n .duplicate m) :
    m.sent = n.sent ∧ m.delivered = n.delivered := by
  cases h
  exact ⟨rfl, rfl⟩

end Counts

structure Network.Genuine (n : Network Message) : Prop where
  inFlight : n.inFlight ⊆ n.sent
  delivered : n.delivered ⊆ n.sent

theorem Network.Genuine.start : (Network.start : Network Message).Genuine :=
  ⟨Multiset.Subset.refl _, Multiset.Subset.refl _⟩

theorem Network.Genuine.step {n m : Network Message} {e : Event Message} (h : n.Genuine)
    (hstep : Network.Step duplicates n e m) : m.Genuine := by
  cases hstep with
  | send message =>
    refine ⟨Multiset.cons_subset_cons h.inFlight, ?_⟩
    exact Multiset.Subset.trans h.delivered (Multiset.subset_cons _ _)
  | lose message => exact ⟨(Multiset.cons_subset.mp h.inFlight).2, h.delivered⟩
  | duplicate message _ hmem =>
    exact ⟨Multiset.cons_subset.mpr ⟨h.inFlight hmem, h.inFlight⟩, h.delivered⟩
  | deliver message =>
    obtain ⟨hmessage, hrest⟩ := Multiset.cons_subset.mp h.inFlight
    exact ⟨hrest, Multiset.cons_subset.mpr ⟨hmessage, h.delivered⟩⟩

def Network.Conserved (n : Network Message) : Prop := n.delivered + n.inFlight ≤ n.sent

theorem Network.Conserved.start : (Network.start : Network Message).Conserved :=
  (zero_add 0).le

theorem Network.Conserved.step {n m : Network Message} {e : Event Message} (h : n.Conserved)
    (hnone : ¬duplicates) (hstep : Network.Step duplicates n e m) : m.Conserved := by
  unfold Network.Conserved at *
  cases hstep with
  | send message =>
    rw [Multiset.add_cons]
    exact Multiset.cons_le_cons message h
  | lose message =>
    refine le_trans ?_ h
    rw [Multiset.add_cons]
    exact Multiset.le_cons_self _ message
  | duplicate _ hallowed => exact absurd hallowed hnone
  | deliver message =>
    rw [Multiset.cons_add, ← Multiset.add_cons]
    exact h

end Netsvc.Library.Datagram
