import Netsvc.Library.Transition
import Netsvc.QuotesFile

/-! One `Client` and its `ServerWorker` of `WOTD.java`. `writeUTF` and `readUTF`
carry whole strings, so each channel is a FIFO list of strings. -/
namespace Netsvc.JavaClientServer
open Netsvc.Library.Transition

/-- Bytes `writeUTF` needs for one character; a supplementary character is two
surrogates of three bytes. -/
def utfLength (c : Char) : Nat :=
  if 1 ≤ c.toNat ∧ c.toNat ≤ 0x7f then 1
  else if c.toNat ≤ 0x7ff then 2
  else if c.toNat ≤ 0xffff then 3 else 6

/-- `writeUTF` throws an `IOException`, and writes nothing, above 65535 bytes. -/
def writable (text : Text) : Bool := (text.map utfLength).sum ≤ 65535

/-- `qotd[index]`, which throws when the array is null or too short. -/
def field (qotd : Option (List Text)) (index : Nat) : Option Text := qotd.bind (·[index]?)

/-- The text the worker's `switch` passes to `writeUTF`. It is `none` for the
branches that send nothing and where evaluating the text throws. -/
def answer (qotd : Option (List Text)) : Text → Option Text
  | ['Q'] => field qotd 1
  | ['D'] => field qotd 2
  | ['A'] => field qotd 0
  | ['R'] => do
      let quote ← field qotd 1
      let author ← field qotd 0
      let date ← field qotd 2
      pure ("Quote: ".toList ++ quote ++ " Author: ".toList ++ author ++ " Date: ".toList ++ date)
  | _ => none

def requests : List Text := [['Q'], ['D'], ['A'], ['R']]

inductive ClientState
  | prompting
  | reading
  | closed
  deriving DecidableEq

inductive WorkerState
  | waiting
  | handling (response : Text)
  | closed
  | dead
  deriving DecidableEq

/-- `lastRequest` and `answers` record what the client sent last and what it
has read since; the program has no such variables. -/
structure Session where
  typed : List Text
  client : ClientState
  worker : WorkerState
  toWorker : List Text
  toClient : List Text
  lastRequest : Option Text
  answers : List (Option Text × Text)

def Session.start (typed : List Text) : Session := ⟨typed, .prompting, .waiting, [], [], none, []⟩

/-- One pass of the client's `switch`. The default branch sends nothing but
goes on to `readUTF` like the others. -/
def Session.enter (s : Session) (response : Text) (typed : List Text) : Session :=
  if response ∈ requests then
    { s with
      typed := typed, client := .reading
      toWorker := s.toWorker ++ [response], lastRequest := some response }
  else if response = ['E'] then
    { s with typed := typed, client := .closed, toWorker := s.toWorker ++ [['E']] }
  else { s with typed := typed, client := .reading }

/-- One pass of the worker's `switch`. An `IOException` is printed and the loop
goes on; any other exception ends the thread. -/
def Session.handle (qotd : Option (List Text)) (s : Session) (response : Text) : Session :=
  if response ∈ requests then
    match answer qotd response with
    | none => { s with worker := .dead }
    | some text =>
        if writable text then { s with worker := .waiting, toClient := s.toClient ++ [text] }
        else { s with worker := .waiting }
  else if response = ['E'] then { s with worker := .closed }
  else { s with worker := .waiting }

theorem Session.handle_frame (s : Session) (qotd : Option (List Text)) (response : Text) :
    ∃ worker toClient,
      s.handle qotd response = { s with worker := worker, toClient := toClient } := by
  unfold Session.handle
  split_ifs <;> [split; exact ⟨_, _, rfl⟩; exact ⟨_, _, rfl⟩]
  · exact ⟨_, _, rfl⟩
  · split_ifs <;> exact ⟨_, _, rfl⟩

inductive Party
  | client
  | worker

inductive Session.Step (qotd : Option (List Text)) : Session → Party → Session → Prop
  | enter {s : Session} {response : Text} {typed : List Text} (hc : s.client = .prompting)
      (ht : s.typed = response :: typed) : Step qotd s .client (s.enter response typed)
  | receive {s : Session} {result : Text} {rest : List Text} (hc : s.client = .reading)
      (hr : s.toClient = result :: rest) :
      Step qotd s .client { s with
        client := .prompting, toClient := rest, answers := s.answers ++ [(s.lastRequest, result)] }
  | accept {s : Session} {response : Text} {rest : List Text} (hw : s.worker = .waiting)
      (hr : s.toWorker = response :: rest) :
      Step qotd s .worker { s with worker := .handling response, toWorker := rest }
  | handle {s : Session} {response : Text} (hw : s.worker = .handling response) :
      Step qotd s .worker (s.handle qotd response)

/-- Nobody waits in vain, and every reply read answers the last request sent. -/
structure Session.Safe (qotd : Option (List Text)) (s : Session) : Prop where
  waits : s.client = .reading →
    s.toWorker ≠ [] ∨ (∃ response, s.worker = .handling response) ∨ s.toClient ≠ []
  answers : ∀ p ∈ s.answers, ∃ request, p.1 = some request ∧ answer qotd request = some p.2

def Answered (qotd : Option (List Text)) (typed : Text) : Prop :=
  ∃ reply, answer qotd typed = some reply ∧ writable reply

def beforeExit (typed : List Text) : List Text := typed.takeWhile (· ≠ ['E'])

theorem mem_requests_of_answer {qotd : Option (List Text)} {typed reply : Text}
    (h : answer qotd typed = some reply) : typed ∈ requests := by
  unfold answer at h
  split at h <;> simp [requests] at h ⊢

inductive Session.Progress (qotd : Option (List Text)) (request : Text) (s : Session) : Prop
  | sent (hw : s.worker = .waiting) (hr : s.toWorker = [request]) (hc : s.toClient = [])
  | handled (hw : s.worker = .handling request) (hr : s.toWorker = []) (hc : s.toClient = [])
  | replied {reply : Text} (hw : s.worker = .waiting) (hr : s.toWorker = [])
      (hc : s.toClient = [reply]) (ha : answer qotd request = some reply)

structure Session.Invariant (qotd : Option (List Text)) (s : Session) : Prop where
  answers : ∀ p ∈ s.answers, ∃ request, p.1 = some request ∧ answer qotd request = some p.2
  typed : s.client ≠ .closed → ∀ t ∈ beforeExit s.typed, Answered qotd t
  idle : s.client = .prompting → s.worker = .waiting ∧ s.toWorker = [] ∧ s.toClient = []
  busy : s.client = .reading →
    ∃ request, s.lastRequest = some request ∧ Answered qotd request ∧ s.Progress qotd request

theorem Session.Invariant.safe {qotd : Option (List Text)} {s : Session}
    (h : s.Invariant qotd) : s.Safe qotd := by
  refine ⟨fun hc => ?_, h.answers⟩
  obtain ⟨request, _, _, hprogress⟩ := h.busy hc
  cases hprogress with
  | sent hw hr _ => exact Or.inl (by simp [hr])
  | handled hw _ _ => exact Or.inr (Or.inl ⟨request, hw⟩)
  | replied _ _ hr _ => exact Or.inr (Or.inr (by simp [hr]))

theorem Session.Invariant.enter {qotd : Option (List Text)} {s : Session} (h : s.Invariant qotd)
    {response : Text} {typed : List Text} (hc : s.client = .prompting)
    (ht : s.typed = response :: typed) : (s.enter response typed).Invariant qotd := by
  obtain ⟨hw, hr, hempty⟩ := h.idle hc
  have htyped := h.typed (by simp [hc])
  rw [ht] at htyped
  unfold Session.enter
  split_ifs with hmem hexit
  · have hne : response ≠ ['E'] := fun heq => by simp [heq, requests] at hmem
    have hanswered := htyped response (by simp [beforeExit, hne])
    refine ⟨h.answers, fun _ t hmem' => htyped t ?_, by simp, fun _ => ?_⟩
    · simp [beforeExit, hne] at hmem' ⊢
      exact Or.inr hmem'
    · exact ⟨response, rfl, hanswered, .sent hw (by simp [hr]) hempty⟩
  · exact ⟨h.answers, by simp, by simp, by simp⟩
  · -- the branch that sends nothing is not taken for a string with an answer
    obtain ⟨reply, hreply, _⟩ := htyped response (by simp [beforeExit, hexit])
    exact absurd (mem_requests_of_answer hreply) hmem

theorem Session.Invariant.receive {qotd : Option (List Text)} {s : Session} (h : s.Invariant qotd)
    {result : Text} {rest : List Text} (hc : s.client = .reading)
    (hr : s.toClient = result :: rest) :
    Session.Invariant qotd { s with
      client := .prompting, toClient := rest
      answers := s.answers ++ [(s.lastRequest, result)] } := by
  obtain ⟨request, hlast, _, hprogress⟩ := h.busy hc
  cases hprogress with
  | sent _ _ hempty => simp [hempty] at hr
  | handled _ _ hempty => simp [hempty] at hr
  | @replied reply hw hto hone ha =>
    rw [hone] at hr
    obtain ⟨rfl, rfl⟩ := List.cons.inj hr
    refine ⟨?_, fun _ => h.typed (by simp [hc]), fun _ => ⟨hw, hto, rfl⟩, by simp⟩
    exact List.forall_mem_append.mpr
      ⟨h.answers, List.forall_mem_singleton.mpr ⟨request, hlast, ha⟩⟩

theorem Session.Invariant.accept {qotd : Option (List Text)} {s : Session} (h : s.Invariant qotd)
    {response : Text} {rest : List Text} (hw : s.worker = .waiting)
    (hr : s.toWorker = response :: rest) :
    Session.Invariant qotd { s with worker := .handling response, toWorker := rest } := by
  refine ⟨h.answers, h.typed, ?_, ?_⟩
  · intro hc
    simp [(h.idle hc).2.1] at hr
  · intro hc
    obtain ⟨request, hlast, hanswered, hprogress⟩ := h.busy hc
    cases hprogress with
    | sent _ hone hempty =>
      rw [hone] at hr
      obtain ⟨rfl, rfl⟩ := List.cons.inj hr
      exact ⟨request, hlast, hanswered, .handled rfl rfl hempty⟩
    | handled hw' => simp [hw] at hw'
    | replied _ hempty => simp [hempty] at hr

theorem Session.Invariant.handle {qotd : Option (List Text)} {s : Session} (h : s.Invariant qotd)
    {response : Text} (hw : s.worker = .handling response) :
    (s.handle qotd response).Invariant qotd := by
  cases hc : s.client with
  | prompting => simp [(h.idle hc).1] at hw
  | closed =>
    obtain ⟨worker, toClient, hs⟩ := s.handle_frame qotd response
    rw [hs]
    exact ⟨h.answers, by simp [hc], by simp [hc], by simp [hc]⟩
  | reading =>
    obtain ⟨request, hlast, ⟨reply, hreply, hfits⟩, hprogress⟩ := h.busy hc
    cases hprogress with
    | sent hw' => simp [hw] at hw'
    | replied hw' => simp [hw] at hw'
    | handled hw' hto hempty =>
      obtain rfl : request = response := by simpa [hw] using hw'.symm
      have hstate : s.handle qotd request =
          { s with worker := .waiting, toClient := s.toClient ++ [reply] } := by
        simp [Session.handle, mem_requests_of_answer hreply, hreply, hfits]
      rw [hstate]
      exact ⟨h.answers, h.typed, by simp [hc], fun _ => ⟨request, hlast, ⟨reply, hreply, hfits⟩,
        .replied rfl hto (by simp [hempty]) hreply⟩⟩

theorem Session.Invariant.step {qotd : Option (List Text)} {s s' : Session} {party : Party}
    (h : s.Invariant qotd) (hstep : Session.Step qotd s party s') : s'.Invariant qotd := by
  cases hstep with
  | enter hc ht => exact h.enter hc ht
  | receive hc hr => exact h.receive hc hr
  | accept hw hr => exact h.accept hw hr
  | handle hw => exact h.handle hw

def Session.idle (typed : List Text) (last : Option Text) (answers : List (Option Text × Text)) :
    Session :=
  ⟨typed, .prompting, .waiting, [], [], last, answers⟩

theorem Session.reach_answered {qotd : Option (List Text)} {t : Text} (typed : List Text)
    (last : Option Text) (answers : List (Option Text × Text)) (h : Answered qotd t) :
    ∃ last' answers', Reachable (Session.Step qotd) (Session.idle (t :: typed) last answers)
      (Session.idle typed last' answers') := by
  obtain ⟨reply, hreply, hfits⟩ := h
  have hmem := mem_requests_of_answer hreply
  refine ⟨some t, answers ++ [(some t, reply)], ?_⟩
  apply Reachable.head (.enter rfl rfl)
  rw [Session.enter, if_pos hmem]
  apply Reachable.head (.accept rfl rfl)
  apply Reachable.head (.handle rfl)
  rw [Session.handle, if_pos hmem, hreply]
  simp only [hfits, if_true]
  exact Reachable.head (.receive rfl rfl) (Reachable.refl _)

theorem Session.not_safe_of_stuck {qotd : Option (List Text)} {s : Session}
    (hc : s.client = .reading) (hw : ∀ response, s.worker ≠ .handling response)
    (hto : s.toWorker = []) (hback : s.toClient = []) : ¬s.Safe qotd := by
  intro h
  rcases h.waits hc with h | ⟨response, h⟩ | h
  · exact h hto
  · exact hw response h
  · exact h hback

theorem Session.reach_stuck {qotd : Option (List Text)} {t : Text} (typed : List Text)
    (last : Option Text) (answers : List (Option Text × Text)) (hexit : t ≠ ['E'])
    (h : ¬Answered qotd t) :
    ∃ s, Reachable (Session.Step qotd) (Session.idle (t :: typed) last answers) s ∧
      ¬s.Safe qotd := by
  by_cases hmem : t ∈ requests
  · refine ⟨(Session.mk typed .reading (.handling t) [] [] (some t) answers).handle qotd t,
      ?_, ?_⟩
    · apply Reachable.head (.enter rfl rfl)
      rw [Session.enter, if_pos hmem]
      apply Reachable.head (.accept rfl rfl)
      exact Reachable.head (.handle rfl) (Reachable.refl _)
    · -- the worker dies on the exception, or prints it and asks for the next request
      rw [Session.handle, if_pos hmem]
      cases hreply : answer qotd t with
      | none => exact not_safe_of_stuck rfl (by simp) rfl rfl
      | some reply =>
        have hlong : ¬writable reply := fun hfits => h ⟨reply, hreply, hfits⟩
        simp only [hlong]
        exact not_safe_of_stuck rfl (by simp) rfl rfl
  · refine ⟨_, Reachable.head (.enter rfl rfl) (Reachable.refl _), ?_⟩
    rw [Session.enter, if_neg hmem, if_neg hexit]
    exact not_safe_of_stuck rfl (by simp [idle]) rfl rfl

theorem Session.start_invariant {qotd : Option (List Text)} {typed : List Text}
    (h : ∀ t ∈ beforeExit typed, Answered qotd t) : (Session.start typed).Invariant qotd :=
  ⟨by simp [start], fun _ => h, fun _ => ⟨rfl, rfl, rfl⟩, by simp [start]⟩

theorem Session.answered_of_safe {qotd : Option (List Text)} (typed : List Text)
    (last : Option Text) (answers : List (Option Text × Text))
    (h : ∀ s, Reachable (Session.Step qotd) (Session.idle typed last answers) s → s.Safe qotd) :
    ∀ t ∈ beforeExit typed, Answered qotd t := by
  induction typed generalizing last answers with
  | nil => simp [beforeExit]
  | cons t typed ih =>
    by_cases hexit : t = ['E']
    · simp [beforeExit, hexit]
    · have hanswered : Answered qotd t := by
        by_contra hbad
        obtain ⟨s, hreach, hunsafe⟩ := reach_stuck typed last answers hexit hbad
        exact hunsafe (h s hreach)
      obtain ⟨last', answers', hreach⟩ := reach_answered typed last answers hanswered
      have hrest := ih last' answers' fun s hs => h s (hreach.trans hs)
      simp only [beforeExit, List.takeWhile_cons, decide_not, hexit, decide_false, Bool.not_false,
        if_true, List.forall_mem_cons]
      exact ⟨hanswered, by simpa [beforeExit] using hrest⟩

/-- Client and worker stay in step, in every reachable state, exactly when the
worker has an answer to each string typed before the first `E`. -/
theorem session_safe_iff (qotd : Option (List Text)) (typed : List Text) :
    (∀ s, Reachable (Session.Step qotd) (Session.start typed) s → s.Safe qotd) ↔
      ∀ t ∈ beforeExit typed, Answered qotd t := by
  constructor
  · exact Session.answered_of_safe typed none []
  · intro h s hreach
    have hinv := hreach.invariant (Session.Invariant qotd)
      (fun _ _ _ => Session.Invariant.step) (Session.start_invariant h)
    exact hinv.safe

/-- One letter the client rejects leaves both sides waiting. -/
theorem session_stuck_on_invalid_input :
    ¬∀ (qotd : Option (List Text)) (typed : List Text) (s : Session),
      Reachable (Session.Step qotd) (Session.start typed) s → s.Safe qotd := by
  intro h
  have hreach : Reachable (Session.Step (some ["a".toList, "q".toList, "d".toList]))
      (Session.start [['x']]) ((Session.start [['x']]).enter ['x'] []) :=
    Reachable.head (.enter rfl rfl) (Reachable.refl _)
  have hwaits := (h _ _ _ hreach).waits (by decide)
  simp [Session.start, Session.enter, requests] at hwaits

end Netsvc.JavaClientServer
