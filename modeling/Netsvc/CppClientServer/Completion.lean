import Netsvc.CppClientServer.Printing

/-! How the sessions of `client_server.cpp` end, while all replies arrive whole: no child
goes round its loop without a request, and no client waits for ever but for a child that
never comes back from `stringToQuote`, or has died in it. -/
namespace Netsvc.CppClientServer
open Netsvc.Library.Interleaving Netsvc.Library.Transition

section Single
variable {arr : Fin maxQuotes → Text} {first : Fin maxQuotes} {typed : List Text}
  {s s' : Session} {e : Event}

def issuedBy (typed : List Text) : List Text :=
  (typed.takeWhile (· ≠ ['e'])).filter (· ∈ requests)

theorem issuedBy_request {dataAsk : Text} (h : dataAsk ∈ requests) (typed : List Text) :
    issuedBy (dataAsk :: typed) = dataAsk :: issuedBy typed := by
  have hexit : dataAsk ≠ ['e'] := fun heq => exit_notMem_requests (heq ▸ h)
  unfold issuedBy
  rw [List.takeWhile_cons_of_pos (by simpa using hexit), List.filter_cons_of_pos (by simpa using h)]

theorem issuedBy_invalid {dataAsk : Text} (h : dataAsk ∉ requests) (hexit : dataAsk ≠ ['e'])
    (typed : List Text) : issuedBy (dataAsk :: typed) = issuedBy typed := by
  unfold issuedBy
  rw [List.takeWhile_cons_of_pos (by simpa using hexit), List.filter_cons_of_neg (by simpa using h)]

def Session.unissued (s : Session) : List Text :=
  match s.client with
  | .closed => []
  | _ => issuedBy s.typed

/-- A client that has gone has sent `e`, and its child has not got it yet or ends with it. -/
structure Session.Attended (typed : List Text) (s : Session) : Prop where
  waiting : s.client = .closed → s.server = .waiting → s.toServer = ['e']
  handling : s.client = .closed → ∀ dataAsk quote, s.server = .handling dataAsk quote →
    dataAsk = ['e']
  issued : s.issued ++ s.unissued = issuedBy typed

theorem Session.start_attended : (Session.start first typed).Attended typed :=
  ⟨nofun, nofun, rfl⟩

theorem Session.Attended.ask (h : s.Attended typed) (hinv : s.Invariant arr first)
    {dataAsk : Text} {rest : List Text} (hc : s.client = .prompting)
    (ht : s.typed = dataAsk :: rest) : (s.handleDataRequest dataAsk rest).Attended typed := by
  have hunissued : s.unissued = issuedBy (dataAsk :: rest) := by
    rw [Session.unissued, hc, ht]
  have hissued := h.issued
  simp only [Session.Invariant, hc] at hinv
  rw [hunissued] at hissued
  unfold Session.handleDataRequest
  split_ifs with hmem hexit
  · rw [issuedBy_request hmem] at hissued
    refine ⟨by simp, by simp, ?_⟩
    rw [← hissued, List.append_assoc]
    rfl
  · subst hexit
    refine ⟨fun _ _ => ?_, fun _ _ _ hs => absurd hs hinv.2.server.ne_handling, hissued⟩
    rw [hinv.2.toServer, List.nil_append]
  · rw [issuedBy_invalid hmem hexit] at hissued
    refine ⟨by simp [hc], by simp [hc], ?_⟩
    simpa only [Session.unissued, hc] using hissued

/-- Every child ends with an `e`, not with the end of the stream. -/
theorem Session.Attended.not_receiveEnd (h : s.Attended typed) :
    ¬Session.Step arr s .receiveEnd s' := by
  intro hstep
  cases hstep with
  | receiveEnd hs _ hr hc =>
    have hto := h.waiting hc hs
    rw [hr] at hto
    cases hto

theorem Session.Attended.step (h : s.Attended typed) (hinv : s.Invariant arr first)
    (hcurrent : s.Current) (hstep : Session.Step arr s e s') : s'.Attended typed := by
  cases hstep with
  | ask hc ht => exact h.ask hinv hc ht
  | read hc | print hc =>
    refine ⟨nofun, nofun, ?_⟩
    rw [← h.issued, Session.unissued, Session.unissued, hc]
  | abort hc hp hf => exact absurd (.abort hc hp hf) (hinv.not_abort hcurrent)
  | receive hs _ hr =>
    refine ⟨nofun, fun hc dataAsk quote hs' => ?_, h.issued⟩
    obtain ⟨rfl, -⟩ := ServerState.handling.inj hs'
    have hto := h.waiting hc hs
    rw [(hr.of_length_one (by rw [hto]; rfl)).1, hto]
  | receiveEnd hs hq hr hc => exact absurd (.receiveEnd hs hq hr hc) h.not_receiveEnd
  | crash => exact ⟨nofun, nofun, h.issued⟩
  | answer hs =>
    refine ⟨fun hc hwaiting => ?_, fun _ _ _ hhandling => ?_, h.issued⟩
    · unfold Session.answer at hwaiting
      rw [h.handling hc _ _ hs] at hwaiting
      cases hwaiting
    · unfold Session.answer at hhandling
      dsimp only at hhandling
      split_ifs at hhandling

def ClientState.remaining : ClientState → ℕ
  | .reading _ => 2
  | .printing _ _ => 1
  | .prompting | .closed => 0

def ServerState.remaining : ServerState → ℕ
  | .handling _ _ => 2
  | .waiting => 1
  | .closed | .crashed => 0

def Session.remaining (s : Session) : ℕ :=
  5 * s.typed.length + s.client.remaining + 2 * s.toServer.length + s.server.remaining

theorem Session.Step.remaining_lt (h : Session.Step arr s e s') (he : e ≠ .receiveEnd) :
    s'.remaining < s.remaining := by
  unfold Session.remaining
  cases h with
  | ask hc ht =>
    unfold Session.handleDataRequest
    rw [hc, ht]
    split_ifs with hmem hexit
    · simp only [ClientState.remaining, List.length_append, List.length_cons,
        length_of_mem_requests hmem]
      omega
    · simp only [ClientState.remaining, List.length_append, List.length_cons, List.length_nil]
      omega
    · simp only [List.length_cons]
      omega
  | read hc | print hc | abort hc =>
    simp only [hc, ClientState.remaining]
    omega
  | receive hs _ hr =>
    have hpos := List.length_pos_iff.mpr hr.pos
    simp only [hs, hr.split, ServerState.remaining, List.length_append]
    omega
  | receiveEnd => exact absurd rfl he
  | crash hs =>
    simp only [hs, ServerState.remaining]
    omega
  | answer hs =>
    unfold Session.answer
    simp only [hs]
    split_ifs <;> simp only [ServerState.remaining] <;> omega

def Session.Spins (arr : Fin maxQuotes → Text) (s : Session) : Prop :=
  (∃ dataAsk, s.client = .reading dataAsk) ∧ s.server = .waiting ∧
    ∀ fuel, stringToQuote fuel (arr s.random) = .error .outOfFuel

def Session.Fallen (arr : Fin maxQuotes → Text) (s : Session) : Prop :=
  s.server = .crashed →
    ∃ fuel fault, stringToQuote fuel (arr s.random) = .error fault ∧ fault ≠ .outOfFuel

theorem Session.Fallen.step (h : s.Fallen arr) (hstep : Session.Step arr s e s') :
    s'.Fallen arr := by
  cases hstep with
  | ask =>
    unfold Session.handleDataRequest
    split_ifs <;> exact h
  | read | print | abort => exact h
  | receive | receiveEnd => exact nofun
  | crash _ hq hf => exact fun _ => ⟨_, _, hq, hf⟩
  | answer =>
    intro hcrashed
    unfold Session.answer at hcrashed
    dsimp only at hcrashed
    split_ifs at hcrashed

def Session.Orphaned (arr : Fin maxQuotes → Text) (s : Session) : Prop :=
  (∃ dataAsk, s.client = .reading dataAsk) ∧ s.server = .crashed ∧
    ∃ fuel fault, stringToQuote fuel (arr s.random) = .error fault ∧ fault ≠ .outOfFuel

theorem Session.outOfFuel_of_final (hfinal : Final (Session.Step arr) s)
    (hs : s.server = .waiting) {dataAsk : Text} (hmem : dataAsk ∈ requests)
    (hto : s.toServer = dataAsk) (fuel : ℕ) :
    stringToQuote fuel (arr s.random) = .error .outOfFuel := by
  cases hresult : stringToQuote fuel (arr s.random) with
  | ok quote =>
    have hlength := length_of_mem_requests hmem
    have hsegment : Segment dataAsk [] s.toServer :=
      ⟨by rw [hto, List.append_nil], List.length_pos_iff.mp (by omega), by
        rw [hlength]
        decide⟩
    exact absurd (.receive hs hresult hsegment) (hfinal _ _)
  | error fault =>
    by_contra hne
    exact hfinal _ _ (.crash hs hresult fun heq => hne (heq ▸ rfl))

/-- Where neither side can go on the client has made all its requests and read all the
replies, or waits for a child that spins or has died. -/
theorem Session.Invariant.final (hinv : s.Invariant arr first) (hcurrent : s.Current)
    (hfallen : s.Fallen arr) (hfinal : Final (Session.Step arr) s) :
    s.Spins arr ∨ s.Orphaned arr ∨ s.unissued = [] ∧ s.Settled arr first := by
  have h := hinv
  unfold Session.Invariant at h
  cases hc : s.client with
  | prompting =>
    simp only [hc] at h
    cases ht : s.typed with
    | nil =>
      refine .inr (.inr ⟨?_, h.1⟩)
      rw [Session.unissued, hc, ht]
      rfl
    | cons dataAsk typed => exact absurd (.ask hc ht) (hfinal _ _)
  | printing dataAsk readQuote =>
    refine absurd (.print hc ?_) (hfinal _ _)
    rintro rfl
    exact hinv.splits_printing hcurrent hc
  | closed =>
    simp only [hc] at h
    refine .inr (.inr ⟨?_, h.1⟩)
    rw [Session.unissued, hc]
  | reading dataAsk =>
    simp only [hc] at h
    obtain ⟨hmem, hprogress⟩ := h
    cases hprogress with
    | sent hidle hto hback =>
      rcases hidle with hs | hs
      · exact .inl ⟨⟨_, hc⟩, hs, Session.outOfFuel_of_final hfinal hs hmem hto⟩
      · exact .inr (.inl ⟨⟨_, hc⟩, hs, hfallen hs⟩)
    | handled hs => exact absurd (.answer hs fun _ => rfl) (hfinal _ _)
    | replied _ _ hne =>
      have hsegment : Segment (s.toClient.take bufferSize) (s.toClient.drop bufferSize)
          s.toClient :=
        ⟨(List.take_append_drop _ _).symm, by simpa [bufferSize] using hne,
          List.length_take_le _ _⟩
      exact absurd (.read hc hsegment) (hfinal _ _)

end Single

section System
variable {ι : Type*} [DecidableEq ι] {arr : Fin maxQuotes → Text} {first : Fin maxQuotes}
  {draws : ℕ → Fin maxQuotes} {typed : ι → List Text} {x y : Server ι}

theorem Conversation.attended {typed : List Text} {c : Conversation}
    (h : Reachable (Conversation.GoodStep arr draws) ⟨Session.start first typed, 0⟩ c) :
    c.session.Attended typed := by
  induction h with
  | refl => exact Session.start_attended
  | tail hbefore hstep ih =>
    obtain ⟨e, hstep⟩ := hstep
    obtain ⟨hinv, -, hcurrent⟩ := Conversation.recorded hbefore
    exact ih.step hinv hcurrent hstep.1.session

theorem Conversation.fallen {typed : List Text} {c : Conversation}
    (h : Reachable (Conversation.GoodStep arr draws) ⟨Session.start first typed, 0⟩ c) :
    c.session.Fallen arr :=
  h.invariant (fun c => c.session.Fallen arr)
    (fun _ _ _ hfallen hstep => hfallen.step hstep.1.session) nofun

theorem Conversation.exists_step (draws : ℕ → Fin maxQuotes) {c : Conversation} {e : Event}
    {s : Session} (h : Session.Step arr c.session e s) : ∃ d, Conversation.Step arr draws c e d := by
  by_cases hdraw : e = .answer ∧ ∃ quote, c.session.server = .handling ['n'] quote
  · obtain ⟨rfl, quote, hs⟩ := hdraw
    exact ⟨_, .draw hs⟩
  · exact ⟨_, .plain h fun he quote hs => hdraw ⟨he, quote, hs⟩⟩

theorem Server.final_session (hfinal : Final (Server.Step arr draws) x) (i : ι) :
    Final (Session.Step arr) (x.conversations i).session := by
  intro e s hstep
  have hforked : i ∈ x.forked := by
    by_contra hnew
    exact hfinal _ _ (.fork i hnew)
  obtain ⟨c, hc⟩ := Conversation.exists_step draws hstep
  exact hfinal _ _ (.move i (fun _ => hforked) hc)

def Conversation.remaining (c : Conversation) : ℕ := c.session.remaining

def Server.remaining [Fintype ι] (x : Server ι) : ℕ :=
  ∑ i, (if i ∈ x.forked then 0 else 1) + ∑ i, (x.conversations i).remaining

theorem Server.remaining_lt [Fintype ι] {e : Server.Event ι}
    (hreach : Reachable (Server.GoodStep arr draws) (.start first typed) x)
    (h : Server.GoodStep arr draws x e y) : y.remaining < x.remaining := by
  obtain ⟨hstep, -⟩ := h
  unfold Server.remaining
  cases hstep with
  | fork i hnew =>
    refine Nat.add_lt_add_right (Finset.sum_lt_sum (fun j _ => ?_) ⟨i, Finset.mem_univ i, ?_⟩) _
    · split_ifs with hafter hbefore hbefore
      · exact le_rfl
      · exact Nat.zero_le 1
      · exact absurd (List.mem_append_left _ hbefore) hafter
      · exact le_rfl
    · rw [if_neg hnew, if_pos (List.mem_append_right _ (List.mem_singleton_self i))]
      exact Nat.zero_lt_one
  | @move e c i _ hstep =>
    have hattended := Conversation.attended (Server.conversation_reachable hreach i)
    have hlt : c.remaining < (x.conversations i).remaining := by
      refine hstep.session.remaining_lt ?_
      rintro rfl
      exact hattended.not_receiveEnd hstep.session
    exact Nat.add_lt_add_left (sum_rank_update_lt hlt) _

end System

/-- While all replies arrive whole, every run of finitely many clients is short. Where
nobody can go on each client has sent all its requests before its first `e` and has read
the answers to them in order, or it waits for a child that spins or has died. -/
theorem clients_complete {ι : Type*} [Fintype ι] [DecidableEq ι] (arr : Fin maxQuotes → Text)
    (first : Fin maxQuotes) (draws : ℕ → Fin maxQuotes) (typed : ι → List Text) :
    (∀ run, Run (Server.GoodStep arr draws) (.start first typed) run →
      run.length ≤ ∑ i, (5 * (typed i).length + 2)) ∧
    ∀ x, Reachable (Server.GoodStep arr draws) (.start first typed) x →
      Final (Server.Step arr draws) x →
      ∀ i, (x.conversations i).session.Spins arr ∨ (x.conversations i).session.Orphaned arr ∨
        (x.conversations i).session.obtained.length = (issuedBy (typed i)).length ∧
        ∀ k text, (x.conversations i).session.obtained[k]? = some text →
          Told arr first draws (issuedBy (typed i)) k text := by
  refine ⟨fun run hrun => ?_, fun x hreach hfinal i => ?_⟩
  · refine (hrun.length_le (Reachable (Server.GoodStep arr draws) (.start first typed))
      (fun _ e _ hreach hstep => hreach.tail ⟨e, hstep⟩)
      (fun _ _ _ hreach hstep => Server.remaining_lt hreach hstep) (.refl _)).trans_eq ?_
    unfold Server.remaining
    rw [← Finset.sum_add_distrib]
    refine Finset.sum_congr rfl fun i _ => ?_
    change 1 + (5 * (typed i).length + 0 + 0 + 1) = _
    omega
  · obtain ⟨hinv, -, hcurrent⟩ := Server.recorded hreach i
    have hfallen := Conversation.fallen (Server.conversation_reachable hreach i)
    rcases hinv.final hcurrent hfallen (Server.final_session hfinal i) with
      hspins | horphaned | ⟨hnone, hsettled⟩
    · exact .inl hspins
    · exact .inr (.inl horphaned)
    · have hissued := (Conversation.attended (Server.conversation_reachable hreach i)).issued
      rw [hnone, List.append_nil] at hissued
      rw [← hissued]
      refine .inr (.inr ⟨?_, fun k text => Server.told hreach i⟩)
      rw [hsettled.obtained, hsettled.serves.length_eq]

end Netsvc.CppClientServer
