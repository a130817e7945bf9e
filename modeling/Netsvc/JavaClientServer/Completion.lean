import Netsvc.JavaClientServer.ServerMain

/-! How the sessions of `WOTD.java` end: no run goes on for ever, and where nobody can go
on the clients have what they asked for. -/
namespace Netsvc.JavaClientServer
open Netsvc.Library.Interleaving Netsvc.Library.Transition

section Single
variable {qotd : Option (List Text)} {typed : List Text} {s s' : Session} {party : Party}

def Session.remaining (s : Session) : Nat :=
  4 * s.typed.length + 3 * s.toWorker.length +
    (match s.worker with
      | .handling _ => 2
      | _ => 0) + s.toClient.length

theorem Session.remaining_handle_lt {response : Text} (hw : s.worker = .handling response) :
    (s.handle qotd response).remaining < s.remaining := by
  have hbefore : s.remaining = 4 * s.typed.length + 3 * s.toWorker.length + 2 +
      s.toClient.length := by rw [Session.remaining, hw]
  rw [hbefore]
  unfold Session.handle Session.remaining
  split_ifs
  · split
    · dsimp only
      omega
    · split_ifs
      · simp only [List.length_append, List.length_singleton]
        omega
      · dsimp only
        omega
  · dsimp only
    omega
  · dsimp only
    omega

theorem Session.Step.remaining_lt (h : Session.Step qotd s party s') :
    s'.remaining < s.remaining := by
  cases h with
  | enter _ ht =>
    unfold Session.enter Session.remaining
    split_ifs <;> simp only [ht, List.length_append, List.length_cons, List.length_nil] <;> omega
  | receive _ hr =>
    simp only [Session.remaining, hr, List.length_cons]
    omega
  | accept hw hr =>
    simp only [Session.remaining, hw, hr, List.length_cons]
    omega
  | handle hw => exact Session.remaining_handle_lt hw

def Session.outstanding (s : Session) : List Text :=
  match s.client with
  | .prompting => beforeExit s.typed
  | .reading => s.lastRequest.toList ++ beforeExit s.typed
  | .closed => []

def Session.Accounted (qotd : Option (List Text)) (typed : List Text) (s : Session) : Prop :=
  (s.answers.map fun p => (p.1, some p.2)) ++
      (s.outstanding.map fun t => (some t, answer qotd t)) =
    (beforeExit typed).map fun t => (some t, answer qotd t)

theorem beforeExit_cons {t : Text} (h : t ≠ ['E']) (typed : List Text) :
    beforeExit (t :: typed) = t :: beforeExit typed := by
  unfold beforeExit
  rw [List.takeWhile_cons, if_pos (by simpa using h)]

theorem Session.Accounted.enter (h : s.Accounted qotd typed) (hinv : s.Invariant qotd)
    {response : Text} {rest : List Text} (hc : s.client = .prompting)
    (ht : s.typed = response :: rest) : (s.enter response rest).Accounted qotd typed := by
  have hbefore : s.outstanding = beforeExit (response :: rest) := by
    rw [Session.outstanding, hc, ht]
  unfold Session.Accounted at h ⊢
  rw [← h, hbefore]
  unfold Session.enter
  split_ifs with hmem hexit
  · have hne : response ≠ ['E'] := by
      rintro rfl
      exact absurd hmem (by decide)
    rw [beforeExit_cons hne]
    rfl
  · subst hexit
    rfl
  · -- a string the client rejects has no answer
    have hanswered : Answered qotd response := by
      refine hinv.typed (by rw [hc]; decide) response ?_
      rw [ht, beforeExit_cons hexit]
      exact List.mem_cons_self
    obtain ⟨reply, hreply, -⟩ := hanswered
    exact absurd (mem_requests_of_answer hreply) hmem

theorem Session.Accounted.receive (h : s.Accounted qotd typed) (hinv : s.Invariant qotd)
    {result : Text} {rest : List Text} (hc : s.client = .reading)
    (hr : s.toClient = result :: rest) :
    Session.Accounted qotd typed { s with
      client := .prompting, toClient := rest
      answers := s.answers ++ [(s.lastRequest, result)] } := by
  obtain ⟨request, hlast, -, hprogress⟩ := hinv.busy hc
  have hbefore : s.outstanding = request :: beforeExit s.typed := by
    rw [Session.outstanding, hc, hlast]
    rfl
  cases hprogress with
  | sent _ _ hback | handled _ _ hback => simp [hback] at hr
  | replied _ _ hback ha =>
    obtain ⟨rfl, rfl⟩ := List.cons.inj (hback.symm.trans hr)
    unfold Session.Accounted at h ⊢
    rw [← h, hbefore, hlast, List.map_append, List.append_assoc, List.map_cons, List.map_cons, ha]
    rfl

theorem Session.Accounted.step (h : s.Accounted qotd typed) (hinv : s.Invariant qotd)
    (hstep : Session.Step qotd s party s') : s'.Accounted qotd typed := by
  cases hstep with
  | enter hc ht => exact h.enter hinv hc ht
  | receive hc hr => exact h.receive hinv hc hr
  | accept => exact h
  | @handle response hw =>
    obtain ⟨worker, toClient, hs⟩ := s.handle_frame qotd response
    rw [hs]
    exact h

theorem Session.accounted (hanswered : ∀ t ∈ beforeExit typed, Answered qotd t)
    (h : Reachable (Session.Step qotd) (Session.start typed) s) :
    s.Invariant qotd ∧ s.Accounted qotd typed := by
  refine h.invariant (fun s => s.Invariant qotd ∧ s.Accounted qotd typed) ?_
    ⟨Session.start_invariant hanswered, rfl⟩
  rintro s party s' ⟨hinv, haccounted⟩ hstep
  exact ⟨hinv.step hstep, haccounted.step hinv hstep⟩

theorem Session.Invariant.outstanding_eq_nil (h : s.Invariant qotd)
    (hfinal : Final (Session.Step qotd) s) : s.outstanding = [] := by
  cases hc : s.client with
  | prompting =>
    cases ht : s.typed with
    | nil =>
      rw [Session.outstanding, hc, ht]
      rfl
    | cons response rest => exact absurd (.enter hc ht) (hfinal .client _)
  | reading =>
    obtain ⟨request, -, -, hprogress⟩ := h.busy hc
    cases hprogress with
    | sent hw hto => exact absurd (.accept hw hto) (hfinal .worker _)
    | handled hw => exact absurd (.handle hw) (hfinal .worker _)
    | replied _ _ hback => exact absurd (.receive hc hback) (hfinal .client _)
  | closed => rw [Session.outstanding, hc]

end Single

section System
variable {ι : Type*} [DecidableEq ι] {qotd : Option (List Text)} {typed : ι → List Text}
  {x y : ServerMain ι}

def ServerMain.remaining [Fintype ι] (x : ServerMain ι) : Nat :=
  (3 - x.curr) + ∑ i, (x.sessions i).remaining

theorem ServerMain.Step.remaining_lt [Fintype ι] {e : ServerMain.Event ι}
    (h : ServerMain.Step qotd x e y) : y.remaining < x.remaining := by
  unfold ServerMain.remaining
  cases h with
  | accept i hcurr =>
    dsimp only
    omega
  | client i hstep => exact Nat.add_lt_add_left (sum_rank_update_lt hstep.remaining_lt) _
  | worker i _ hstep => exact Nat.add_lt_add_left (sum_rank_update_lt hstep.remaining_lt) _

theorem ServerMain.final_session {i : ι} (hfinal : Final (ServerMain.Step qotd) x)
    (haccepted : i ∈ x.accepted) : Final (Session.Step qotd) (x.sessions i) := by
  intro party s hstep
  cases party with
  | client => exact hfinal _ _ (.client i hstep)
  | worker => exact hfinal _ _ (.worker i haccepted hstep)

end System

/-- Every run of the server with finitely many clients is short. Where nobody can go on
three clients are accepted, or all of them, and an accepted client that has typed only
what can be answered has the answers to all of it, in order. -/
theorem serverMain_completes {ι : Type*} [Fintype ι] [DecidableEq ι]
    (qotd : Option (List Text)) (typed : ι → List Text) :
    (∀ run, Run (ServerMain.Step qotd) (.start typed) run →
      run.length ≤ 3 + ∑ i, 4 * (typed i).length) ∧
    ∀ x, Reachable (ServerMain.Step qotd) (.start typed) x → Final (ServerMain.Step qotd) x →
      (x.accepted.length = 3 ∨ ∀ i, i ∈ x.accepted) ∧
      ∀ i ∈ x.accepted, (∀ t ∈ beforeExit (typed i), Answered qotd t) →
        ((x.sessions i).answers.map fun p => (p.1, some p.2)) =
          (beforeExit (typed i)).map fun t => (some t, answer qotd t) := by
  refine ⟨fun run hrun => ?_, fun x hreach hfinal => ⟨?_, fun i haccepted hanswered => ?_⟩⟩
  · exact hrun.length_le_rank fun _ _ _ hstep => hstep.remaining_lt
  · have haccepting := ServerMain.accepting hreach
    rw [haccepting.length_eq]
    rcases Nat.lt_or_ge x.curr 3 with hlt | hge
    · refine .inr fun i => ?_
      by_contra hnot
      exact hfinal _ _ (.accept i (Nat.le_of_lt_succ hlt) hnot)
    · exact .inl (le_antisymm haccepting.curr_le hge)
  · obtain ⟨hinv, haccounted⟩ :=
      Session.accounted hanswered (ServerMain.session_reachable hreach i)
    have hnone := hinv.outstanding_eq_nil (ServerMain.final_session hfinal haccepted)
    rw [← haccounted, hnone, List.map_nil, List.append_nil]

end Netsvc.JavaClientServer
