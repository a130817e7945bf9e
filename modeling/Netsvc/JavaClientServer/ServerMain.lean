import Mathlib.Data.List.Nodup
import Netsvc.JavaClientServer.Session
import Netsvc.Library.Interleaving

/-! `ServerMain` of `WOTD.java`: a worker for each client it accepts, all of them with
the same `qotd`. -/
namespace Netsvc.JavaClientServer
open Netsvc.Library.Interleaving Netsvc.Library.Transition

/-- A client is connected, and can write, before it is accepted. -/
structure ServerMain (ι : Type*) where
  curr : Nat
  accepted : List ι
  sessions : ι → Session

def ServerMain.start {ι : Type*} (typed : ι → List Text) : ServerMain ι :=
  ⟨0, [], fun i => Session.start (typed i)⟩

inductive ServerMain.Event (ι : Type*)
  | accept (i : ι)
  | client (i : ι)
  | worker (i : ι)

inductive ServerMain.Step {ι : Type*} [DecidableEq ι] (qotd : Option (List Text)) :
    ServerMain ι → ServerMain.Event ι → ServerMain ι → Prop
  | accept {x : ServerMain ι} (i : ι) (hcurr : x.curr ≤ 2) (hnew : i ∉ x.accepted) :
      Step qotd x (.accept i) ⟨x.curr + 1, x.accepted ++ [i], x.sessions⟩
  | client {x : ServerMain ι} {s : Session} (i : ι)
      (hstep : Session.Step qotd (x.sessions i) .client s) :
      Step qotd x (.client i) ⟨x.curr, x.accepted, Function.update x.sessions i s⟩
  | worker {x : ServerMain ι} {s : Session} (i : ι) (haccepted : i ∈ x.accepted)
      (hstep : Session.Step qotd (x.sessions i) .worker s) :
      Step qotd x (.worker i) ⟨x.curr, x.accepted, Function.update x.sessions i s⟩

section Single
variable {qotd : Option (List Text)} {s : Session}

inductive Session.Pending (qotd : Option (List Text)) (s : Session) : Prop
  | progress {request : Text} (hlast : s.lastRequest = some request) (hmem : request ∈ requests)
      (hprogress : s.Progress qotd request)
  | stuck (hto : s.toWorker = []) (hback : s.toClient = [])
      (hw : ∀ response, s.worker ≠ .handling response)

/-- Every answer is the one to the request before it, whatever is typed. -/
structure Session.Truthful (qotd : Option (List Text)) (s : Session) : Prop where
  answers : ∀ p ∈ s.answers, ∃ request, p.1 = some request ∧ answer qotd request = some p.2
  idle : s.client = .prompting → s.worker = .waiting ∧ s.toWorker = [] ∧ s.toClient = []
  pending : s.client = .reading → s.Pending qotd

theorem Session.start_truthful (typed : List Text) : (Session.start typed).Truthful qotd :=
  ⟨nofun, fun _ => ⟨rfl, rfl, rfl⟩, nofun⟩

theorem Session.Truthful.enter (h : s.Truthful qotd) {response : Text} {typed : List Text}
    (hc : s.client = .prompting) : (s.enter response typed).Truthful qotd := by
  obtain ⟨hw, hto, hback⟩ := h.idle hc
  unfold Session.enter
  split_ifs with hmem
  · refine ⟨h.answers, nofun, fun _ => .progress rfl hmem (.sent hw ?_ hback)⟩
    rw [hto, List.nil_append]
  · exact ⟨h.answers, nofun, nofun⟩
  · exact ⟨h.answers, nofun, fun _ => .stuck hto hback (by simp [hw])⟩

theorem Session.Truthful.receive (h : s.Truthful qotd) {result : Text} {rest : List Text}
    (hc : s.client = .reading) (hr : s.toClient = result :: rest) :
    Session.Truthful qotd { s with
      client := .prompting, toClient := rest
      answers := s.answers ++ [(s.lastRequest, result)] } := by
  cases h.pending hc with
  | stuck _ hback => simp [hback] at hr
  | progress hlast _ hprogress =>
    cases hprogress with
    | sent _ _ hback | handled _ _ hback => simp [hback] at hr
    | replied hw hto hback ha =>
      obtain ⟨rfl, rfl⟩ := List.cons.inj (hback.symm.trans hr)
      refine ⟨?_, fun _ => ⟨hw, hto, rfl⟩, nofun⟩
      exact List.forall_mem_append.mpr
        ⟨h.answers, List.forall_mem_singleton.mpr ⟨_, hlast, ha⟩⟩

theorem Session.Truthful.accept (h : s.Truthful qotd) {response : Text} {rest : List Text}
    (hw : s.worker = .waiting) (hr : s.toWorker = response :: rest) :
    Session.Truthful qotd { s with worker := .handling response, toWorker := rest } := by
  refine ⟨h.answers, fun hc => ?_, fun hc => ?_⟩
  · simp [(h.idle hc).2.1] at hr
  · cases h.pending hc with
    | stuck hto => simp [hto] at hr
    | progress hlast hmem hprogress =>
      cases hprogress with
      | sent _ hto hback =>
        obtain ⟨rfl, rfl⟩ := List.cons.inj (hto.symm.trans hr)
        exact .progress hlast hmem (.handled rfl rfl hback)
      | handled hw' => simp [hw] at hw'
      | replied _ hto => simp [hto] at hr

theorem Session.Truthful.handle (h : s.Truthful qotd) {response : Text}
    (hw : s.worker = .handling response) : (s.handle qotd response).Truthful qotd := by
  obtain ⟨worker, toClient, hs⟩ := s.handle_frame qotd response
  have hkeeps : (s.handle qotd response).answers = s.answers ∧
      (s.handle qotd response).client = s.client := by rw [hs]; exact ⟨rfl, rfl⟩
  refine ⟨hkeeps.1 ▸ h.answers, fun hc => ?_, fun hc => ?_⟩
  · rw [hkeeps.2] at hc
    simp [(h.idle hc).1] at hw
  · rw [hkeeps.2] at hc
    cases h.pending hc with
    | stuck _ _ hnone => exact absurd hw (hnone response)
    | progress hlast hmem hprogress =>
      cases hprogress with
      | sent hw' | replied hw' => simp [hw'] at hw
      | handled hw' hto hback =>
        obtain rfl : _ = response := by simpa [hw'] using hw
        unfold Session.handle
        rw [if_pos hmem]
        cases hanswer : answer qotd _ with
        | none => exact .stuck hto hback nofun
        | some text =>
          dsimp only
          split_ifs
          · exact .progress hlast hmem (.replied rfl hto (by simp [hback]) hanswer)
          · exact .stuck hto hback nofun

theorem Session.Truthful.step {s' : Session} {party : Party} (h : s.Truthful qotd)
    (hstep : Session.Step qotd s party s') : s'.Truthful qotd := by
  cases hstep with
  | enter hc => exact h.enter hc
  | receive hc hr => exact h.receive hc hr
  | accept hw hr => exact h.accept hw hr
  | handle hw => exact h.handle hw

theorem Session.truthful {typed : List Text}
    (h : Reachable (Session.Step qotd) (Session.start typed) s) : s.Truthful qotd :=
  h.invariant (Session.Truthful qotd) (fun _ _ _ hs hstep => hs.step hstep)
    (Session.start_truthful typed)

structure Session.Unserved (s : Session) : Prop where
  worker : s.worker = .waiting
  toClient : s.toClient = []
  answers : s.answers = []

theorem Session.Unserved.client_step {s' : Session} (h : s.Unserved)
    (hstep : Session.Step qotd s .client s') : s'.Unserved := by
  cases hstep with
  | enter =>
    unfold Session.enter
    split_ifs <;> exact ⟨h.worker, h.toClient, h.answers⟩
  | receive _ hr =>
    rw [h.toClient] at hr
    cases hr

end Single

section System
variable {ι : Type*} {qotd : Option (List Text)} {typed : ι → List Text} {x y : ServerMain ι}

structure ServerMain.Accepting (x : ServerMain ι) : Prop where
  nodup : x.accepted.Nodup
  length_eq : x.accepted.length = x.curr
  curr_le : x.curr ≤ 3
  unserved : ∀ i ∉ x.accepted, (x.sessions i).Unserved

theorem ServerMain.start_accepting : (ServerMain.start typed).Accepting :=
  ⟨List.nodup_nil, rfl, Nat.zero_le _, fun _ _ => ⟨rfl, rfl, rfl⟩⟩

variable [DecidableEq ι]

theorem ServerMain.simulates : Simulation (ServerMain.Step qotd)
    (Interleaved fun _ : ι => Session.Step qotd) fun x sessions => x.sessions = sessions where
  match_step := by
    rintro x _ e y rfl hstep
    cases hstep with
    | accept => exact ⟨_, .refl _, rfl⟩
    | client i hstep => exact ⟨_, reachable_of_step (.move i hstep), rfl⟩
    | worker i _ hstep => exact ⟨_, reachable_of_step (.move i hstep), rfl⟩

theorem ServerMain.session_reachable
    (h : Reachable (ServerMain.Step qotd) (.start typed) x) (i : ι) :
    Reachable (Session.Step qotd) (Session.start (typed i)) (x.sessions i) := by
  obtain ⟨sessions, hreach, rfl⟩ := ServerMain.simulates.reachable rfl h
  exact Interleaved.component hreach i

theorem ServerMain.Accepting.step {e : ServerMain.Event ι} (h : x.Accepting)
    (hstep : ServerMain.Step qotd x e y) : y.Accepting := by
  cases hstep with
  | accept i hcurr hnew =>
    refine ⟨?_, ?_, Nat.succ_le_succ hcurr, fun j hj => h.unserved j ?_⟩
    · rw [← List.concat_eq_append]
      exact List.Nodup.concat hnew h.nodup
    · rw [List.length_append, h.length_eq]
      rfl
    · exact fun hmem => hj (List.mem_append_left _ hmem)
  | client i hstep =>
    refine ⟨h.nodup, h.length_eq, h.curr_le, fun j hj => ?_⟩
    change (Function.update x.sessions i _ j).Unserved
    rcases eq_or_ne j i with rfl | hne
    · rw [Function.update_self]
      exact (h.unserved j hj).client_step hstep
    · rw [Function.update_of_ne hne]
      exact h.unserved j hj
  | worker i haccepted hstep =>
    refine ⟨h.nodup, h.length_eq, h.curr_le, fun j hj => ?_⟩
    have hne : j ≠ i := fun heq => hj (heq ▸ haccepted)
    change (Function.update x.sessions i _ j).Unserved
    rw [Function.update_of_ne hne]
    exact h.unserved j hj

theorem ServerMain.accepting (h : Reachable (ServerMain.Step qotd) (.start typed) x) :
    x.Accepting :=
  h.invariant ServerMain.Accepting (fun _ _ _ hx hstep => hx.step hstep) start_accepting

theorem ServerMain.accepted_eq_of_full (h : Reachable (ServerMain.Step qotd) x y)
    (hfull : x.curr = 3) : y.curr = 3 ∧ y.accepted = x.accepted := by
  refine h.invariant (fun z => z.curr = 3 ∧ z.accepted = x.accepted) ?_ ⟨hfull, rfl⟩
  rintro z e w ⟨hcurr, haccepted⟩ hstep
  cases hstep with
  | accept _ hle => omega
  | client | worker => exact ⟨hcurr, haccepted⟩

theorem ServerMain.lift {i : ι} {s : Session} (haccepted : i ∈ x.accepted)
    (h : Reachable (Session.Step qotd) (x.sessions i) s) :
    Reachable (ServerMain.Step qotd) x ⟨x.curr, x.accepted, Function.update x.sessions i s⟩ := by
  have hmoves : ∀ s party t, Session.Step qotd s party t → ∃ e, ServerMain.Step qotd
      ⟨x.curr, x.accepted, Function.update x.sessions i s⟩ e
      ⟨x.curr, x.accepted, Function.update x.sessions i t⟩ := by
    intro s party t hstep
    have hmove : Session.Step qotd (Function.update x.sessions i s i) party t := by
      rwa [Function.update_self]
    rw [← Function.update_idem s t x.sessions]
    cases party with
    | client => exact ⟨_, .client i hmove⟩
    | worker => exact ⟨_, .worker i haccepted hmove⟩
  have hmap :=
    h.map (fun s => ServerMain.mk x.curr x.accepted (Function.update x.sessions i s)) hmoves
  rwa [Function.update_eq_self] at hmap

end System

theorem ServerMain.reach_answer {qotd : Option (List Text)} {request reply : Text}
    (hmem : request ∈ requests) (hanswer : answer qotd request = some reply)
    (hfits : writable reply) :
    Reachable (ServerMain.Step qotd) (.start fun _ : Unit => [request])
      ⟨1, [()], Function.update (fun _ => Session.start [request]) ()
        ⟨[], .prompting, .waiting, [], [], some request, [(some request, reply)]⟩⟩ := by
  have hsession : Reachable (Session.Step qotd) (Session.start [request])
      ⟨[], .prompting, .waiting, [], [], some request, [(some request, reply)]⟩ := by
    apply Reachable.head (.enter rfl rfl)
    rw [Session.enter, if_pos hmem]
    apply Reachable.head (.accept rfl rfl)
    apply Reachable.head (.handle rfl)
    rw [Session.handle, if_pos hmem, hanswer]
    simp only [hfits, if_true]
    exact reachable_of_step (.receive rfl rfl)
  have haccept : Reachable (ServerMain.Step qotd) (.start fun _ : Unit => [request])
      ⟨1, [()], fun _ => Session.start [request]⟩ :=
    reachable_of_step (.accept () (Nat.zero_le _) List.not_mem_nil)
  exact haccept.trans (ServerMain.lift (List.mem_singleton_self ()) hsession)

/-- However the clients and workers take turns, at most three clients get answers, each
session is one the client and its worker could have alone, and every answer belongs to
the request before it and to the one quote of the server. -/
theorem serverMain_serves {ι : Type*} [DecidableEq ι] (qotd : Option (List Text))
    (typed : ι → List Text) (x : ServerMain ι)
    (h : Reachable (ServerMain.Step qotd) (.start typed) x) :
    (x.accepted.Nodup ∧ x.accepted.length ≤ 3) ∧
    (∀ i, Reachable (Session.Step qotd) (Session.start (typed i)) (x.sessions i)) ∧
    ∀ i, ∀ p ∈ (x.sessions i).answers,
      i ∈ x.accepted ∧ ∃ request, p.1 = some request ∧ answer qotd request = some p.2 := by
  have haccepting := ServerMain.accepting h
  refine ⟨⟨haccepting.nodup, haccepting.length_eq ▸ haccepting.curr_le⟩,
    ServerMain.session_reachable h, fun i p hp => ⟨?_, ?_⟩⟩
  · by_contra hnot
    rw [(haccepting.unserved i hnot).answers] at hp
    exact absurd hp List.not_mem_nil
  · exact (Session.truthful (ServerMain.session_reachable h i)).answers p hp

theorem serverMain_serves_quote :
    ∃ x : ServerMain Unit, (x.sessions ()).answers = [(some ['Q'], ['q'])] ∧ () ∈ x.accepted := by
  have hanswer : answer (some [['a'], ['q'], ['d']]) ['Q'] = some ['q'] := rfl
  have hreach := ServerMain.reach_answer (by decide) hanswer (by decide)
  obtain ⟨-, -, hserved⟩ := serverMain_serves _ _ _ hreach
  exact ⟨_, rfl, (hserved () _ (List.mem_singleton_self _)).1⟩

/-- A client that is accepted is never held up by the others; once three are accepted,
no other client gets an answer any more. -/
theorem serverMain_isolates {ι : Type*} [DecidableEq ι] (qotd : Option (List Text))
    (typed : ι → List Text) (x : ServerMain ι)
    (h : Reachable (ServerMain.Step qotd) (.start typed) x) :
    (∀ i ∈ x.accepted, ∀ s, Reachable (Session.Step qotd) (x.sessions i) s →
      ∃ y, Reachable (ServerMain.Step qotd) x y ∧ y.sessions i = s ∧
        ∀ j, j ≠ i → y.sessions j = x.sessions j) ∧
    (x.curr = 3 → ∀ i ∉ x.accepted, ∀ y, Reachable (ServerMain.Step qotd) x y →
      (y.sessions i).answers = []) := by
  refine ⟨fun i haccepted s hs => ?_, fun hfull i hnot y hy => ?_⟩
  · exact ⟨_, ServerMain.lift haccepted hs, Function.update_self ..,
      fun j hne => Function.update_of_ne hne ..⟩
  · obtain ⟨-, hsame⟩ := ServerMain.accepted_eq_of_full hy hfull
    rw [← hsame] at hnot
    exact ((ServerMain.accepting (h.trans hy)).unserved i hnot).answers

theorem serverMain_isolates_fourth :
    ∃ x, Reachable (ServerMain.Step none) (.start fun _ : Fin 4 => [['Q']]) x ∧
      x.accepted = [0, 1, 2] ∧
      ∀ y, Reachable (ServerMain.Step none) x y → (y.sessions 3).answers = [] := by
  have hreach : Reachable (ServerMain.Step none) (.start fun _ : Fin 4 => [['Q']])
      ⟨3, [0, 1, 2], fun _ : Fin 4 => Session.start [['Q']]⟩ := by
    apply Reachable.head (.accept 0 (by decide) (by decide))
    apply Reachable.head (.accept 1 (by decide) (by decide))
    exact reachable_of_step (.accept 2 (by decide) (by decide))
  exact ⟨_, hreach, rfl, (serverMain_isolates none _ _ hreach).2 rfl 3 (by decide)⟩

end Netsvc.JavaClientServer
