import Netsvc.Library.Transition

/-! A caller that sends its requests one by one, each after the reply to the one
before it, and a server that may fail on a request. -/
namespace Netsvc.Library.RequestReply
open Netsvc.Library.Transition

/-- `answer` is `none` where the server fails. -/
structure Service (Request Reply : Type*) where
  rounds : Nat
  request : Nat → Request
  answer : Request → Option Reply

/-- How many requests are sent, the replies to them, and what the caller took for
their results. -/
structure Calls (Reply : Type*) where
  asked : Nat
  served : List Reply
  results : List Reply

inductive Event
  | ask
  | serve
  | report
  | guess

variable {Request Reply : Type*}

def Calls.start : Calls Reply := ⟨0, [], []⟩

inductive Service.Step (service : Service Request Reply) :
    Calls Reply → Event → Calls Reply → Prop
  | ask {asked : Nat} {served results : List Reply} (hlt : asked < service.rounds)
      (hdone : results.length = asked) :
      Step service ⟨asked, served, results⟩ .ask ⟨asked + 1, served, results⟩
  | serve {asked : Nat} {served results : List Reply} (reply : Reply)
      (hopen : served.length < asked)
      (hanswer : service.answer (service.request served.length) = some reply) :
      Step service ⟨asked, served, results⟩ .serve ⟨asked, served ++ [reply], results⟩
  | report {asked : Nat} {served results : List Reply} (reply : Reply)
      (hreply : served[results.length]? = some reply) :
      Step service ⟨asked, served, results⟩ .report ⟨asked, served, results ++ [reply]⟩
  -- the caller takes anything for the reply of a server that has failed
  | guess {asked : Nat} {served results : List Reply} (reply : Reply)
      (hopen : results.length < asked) (hserved : served.length ≤ results.length)
      (hfailed : ∃ k ≤ results.length, service.answer (service.request k) = none) :
      Step service ⟨asked, served, results⟩ .guess ⟨asked, served, results ++ [reply]⟩

namespace Service
variable (service : Service Request Reply)

def answers (k : Nat) : List (Option Reply) :=
  (List.range k).map fun j => service.answer (service.request j)

theorem answers_succ (k : Nat) :
    service.answers (k + 1) = service.answers k ++ [service.answer (service.request k)] := by
  unfold answers
  rw [List.range_succ, List.map_append, List.map_singleton]

theorem getElem?_answers {j k : Nat} (h : j < k) :
    (service.answers k)[j]? = some (service.answer (service.request j)) := by
  unfold answers
  rw [List.getElem?_map, List.getElem?_range h]
  rfl

structure Sound (c : Calls Reply) : Prop where
  served_eq : c.served.map some = service.answers c.served.length
  served_le : c.served.length ≤ c.asked
  results_le : c.results.length ≤ c.asked
  asked_le : c.asked ≤ service.rounds
  results_eq : (∀ k < c.results.length, service.answer (service.request k) ≠ none) →
    c.results.map some = service.answers c.results.length

variable {service}

theorem Sound.start : service.Sound .start :=
  ⟨rfl, Nat.le_refl _, Nat.le_refl _, Nat.zero_le _, fun _ => rfl⟩

theorem Sound.results_append {asked : Nat} {served results : List Reply} {reply : Reply}
    (h : service.Sound ⟨asked, served, results⟩)
    (hreply : service.answer (service.request results.length) ≠ none →
      service.answer (service.request results.length) = some reply)
    (hall : ∀ k < (results ++ [reply]).length, service.answer (service.request k) ≠ none) :
    (results ++ [reply]).map some = service.answers (results ++ [reply]).length := by
  rw [List.length_append, List.length_singleton] at hall ⊢
  have hearlier := h.results_eq fun k hk => hall k (Nat.lt_succ_of_lt hk)
  rw [service.answers_succ, List.map_append, hreply (hall _ (Nat.lt_succ_self _))]
  exact congrArg (· ++ [some reply]) hearlier

theorem Sound.step {c d : Calls Reply} {e : Event} (h : service.Sound c)
    (hstep : service.Step c e d) : service.Sound d := by
  cases hstep with
  | ask hlt _ =>
    exact ⟨h.served_eq, Nat.le_succ_of_le h.served_le, Nat.le_succ_of_le h.results_le, hlt,
      h.results_eq⟩
  | @serve asked served results reply hopen hanswer =>
    have hserved : (served ++ [reply]).map some = service.answers (served ++ [reply]).length := by
      rw [List.length_append, List.length_singleton, service.answers_succ, List.map_append,
        hanswer]
      exact congrArg (· ++ [some reply]) h.served_eq
    refine ⟨hserved, ?_, h.results_le, h.asked_le, h.results_eq⟩
    rw [List.length_append]
    exact hopen
  | @report asked served results reply hreply =>
    obtain ⟨hlt, -⟩ := List.getElem?_eq_some_iff.mp hreply
    have hanswer : service.answer (service.request results.length) = some reply := by
      have hplace := congrArg (·[results.length]?) h.served_eq
      simp only [List.getElem?_map, hreply, service.getElem?_answers hlt] at hplace
      exact (Option.some_inj.mp hplace).symm
    refine ⟨h.served_eq, h.served_le, ?_, h.asked_le, h.results_append fun _ => hanswer⟩
    rw [List.length_append]
    exact Nat.lt_of_lt_of_le hlt h.served_le
  | @guess asked served results reply hopen _ hfailed =>
    refine ⟨h.served_eq, h.served_le, ?_, h.asked_le, fun hall => ?_⟩
    · rw [List.length_append]
      exact hopen
    · obtain ⟨k, hk, hnone⟩ := hfailed
      rw [List.length_append] at hall
      exact absurd hnone (hall k (Nat.lt_succ_of_le hk))

theorem sound {c : Calls Reply} (h : Reachable service.Step .start c) : service.Sound c :=
  h.invariant service.Sound (fun _ _ _ hc hstep => hc.step hstep) .start

/-- No request from a failed one on is replied to. -/
theorem Sound.served_le_of_none {c : Calls Reply} (h : service.Sound c) {k : Nat}
    (hnone : service.answer (service.request k) = none) : c.served.length ≤ k := by
  refine Nat.le_of_not_lt fun hlt => ?_
  have hplace := congrArg (·[k]?) h.served_eq
  simp only [List.getElem?_map, service.getElem?_answers hlt, hnone] at hplace
  cases hget : c.served[k]? with
  | none => simp [hget] at hplace
  | some reply => simp [hget] at hplace

end Service

end Netsvc.Library.RequestReply
