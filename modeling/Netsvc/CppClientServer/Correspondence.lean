import Netsvc.CppClientServer.Session

/-! Runs of the C++ session. The messages carry no length, so a run keeps the
replies with their requests exactly as long as each `recv` is one whole reply. -/
namespace Netsvc.CppClientServer
open Netsvc.Library.Transition

variable {arr : Fin maxQuotes → Text} {first : Fin maxQuotes}

theorem Session.start_invariant (arr : Fin maxQuotes → Text) (first : Fin maxQuotes)
    (typed : List Text) : (Session.start first typed).Invariant arr first :=
  ⟨⟨.start, rfl⟩, Or.inl rfl, rfl, rfl⟩

theorem Session.Invariant.step {s s' : Session} {e : Event} (h : s.Invariant arr first)
    (hstep : Session.Step arr s e s') (hgood : s.Good arr e) : s'.Invariant arr first := by
  cases hstep with
  | ask hc _ => exact h.ask hc _ _
  | read hc hs =>
    obtain rfl : _ = s.toClient := hgood
    exact h.read hc hs
  | print hc _ =>
    simp only [Session.Invariant, hc] at h ⊢
    exact ⟨⟨h.1.serves, h.1.obtained⟩, h.2.server, h.2.toServer, h.2.toClient⟩
  | abort hc _ _ =>
    simp only [Session.Invariant, hc] at h ⊢
    exact ⟨⟨h.1.serves, h.1.obtained⟩, h.2.ended.toServer, h.2.ended.server⟩
  | receive hs hq hr => exact h.receive hs hq hr
  | receiveEnd hs _ _ hc =>
    simp only [Session.Invariant, hc] at h ⊢
    refine ⟨⟨h.1.serves, h.1.obtained⟩, h.2.toServer, ?_⟩
    rintro _ _ ⟨⟩
    exact Or.inl rfl
  | crash hs _ _ => exact h.crash hs
  | answer hs hn => exact h.answer hs hn (hgood _ _ hs)

/-- A `recv` that does not take the whole reply leaves the client with a text
the child never sent. -/
theorem Session.Invariant.not_safe_of_read {s : Session} (h : s.Invariant arr first)
    {dataAsk segment rest : Text} (hc : s.client = .reading dataAsk)
    (hs : Segment segment rest s.toClient) (hbad : segment ≠ s.toClient) :
    ¬Session.Safe arr first { s with
      client := .printing dataAsk segment, toClient := rest
      obtained := s.obtained ++ [segment] } := by
  simp only [Session.Invariant, hc] at h
  rintro ⟨_, _, _, _, hprefix⟩
  cases h.2 with
  | sent _ _ hback => exact absurd hback hs.stream_ne_nil
  | handled _ _ _ hback => exact absurd hback hs.stream_ne_nil
  | replied _ _ _ _ ho =>
    -- both lists have the same length, so the prefix would be all of it
    rw [ho] at hprefix
    have heq := hprefix.eq_of_length (by simp)
    exact hbad (by simpa using heq)

/-- An empty reply leaves nothing in flight, and both sides wait. -/
theorem Session.Invariant.not_safe_of_answer {s : Session} (h : s.Invariant arr first)
    {dataAsk : Text} {quote : Quote} {random : Fin maxQuotes}
    (hs : s.server = .handling dataAsk quote) (hn : dataAsk ≠ ['n'] → random = s.random)
    (hempty : reply (arr s.random) quote dataAsk = some []) :
    ¬(s.answer (arr s.random) quote dataAsk random).Safe arr first := by
  rintro ⟨hwaits, _⟩
  cases h.handling hs with
  | ended _ _ _ hask => rcases hask with rfl | rfl <;> simp [reply] at hempty
  | request hc hmem hq hto hback =>
    have hexit : dataAsk ≠ ['e'] := fun heq => exit_notMem_requests (heq ▸ hmem)
    have hnext : dataAsk ≠ ['n'] := by
      rintro rfl
      exact newQuoteSelected_ne_nil (Option.some.inj hempty)
    obtain rfl := hn hnext
    exact hwaits dataAsk hc hto (by simp [Session.answer, hback, hempty])
      (by simp [Session.answer, hexit]) ⟨_, quote, hq⟩

theorem Session.Invariant.exposes {s s' : Session} {e : Event} (h : s.Invariant arr first)
    (hstep : Session.Step arr s e s') (hbad : ¬s.Good arr e) : ¬s'.Safe arr first := by
  cases hstep with
  | read hc hs => exact h.not_safe_of_read hc hs hbad
  | @answer dataAsk quote _ hs hn =>
    refine h.not_safe_of_answer hs hn (Classical.byContradiction fun hne => hbad ?_)
    intro dataAsk' quote' hs'
    obtain ⟨rfl, rfl⟩ : dataAsk = dataAsk' ∧ quote = quote' := by simpa [hs] using hs'
    exact hne
  | ask | print | abort | receive | receiveEnd | crash => exact absurd trivial hbad

/-- A run keeps client and child in step, in every state, exactly when each of
its replies is non-empty and read as a whole. -/
theorem session_run_safe_iff (arr : Fin maxQuotes → Text) (first : Fin maxQuotes)
    (typed : List Text) {run : List (Event × Session)}
    (h : Run (Session.Step arr) (Session.start first typed) run) :
    ((Session.start first typed).Safe arr first ∧ ∀ p ∈ run, p.2.Safe arr first) ↔
      Guarded (Session.Good arr) (Session.start first typed) run :=
  Run.safe_iff_guarded (Session.Invariant arr first) (Session.Good arr)
    (fun _ hinv => hinv.safe) (fun _ _ _ hinv hstep hgood => hinv.step hstep hgood)
    (fun _ _ _ hinv hstep hbad => hinv.exposes hstep hbad)
    (Session.start_invariant arr first typed) h

theorem session_run_safe_quote_and_line : ∃ run : List (Event × Session),
    Run (Session.Step fun _ => "a,b,c".toList)
      (Session.start ⟨0, by decide⟩ [['q'], ['r'], ['e']]) run ∧
    (∀ p ∈ run, p.2.Safe (fun _ => "a,b,c".toList) ⟨0, by decide⟩) ∧
    ∃ p ∈ run, p.2.server = .closed ∧ p.2.obtained = [['b'], "a,b,c".toList] := by
  have hquote : stringToQuote 1 "a,b,c".toList = .ok ⟨['a'], ['b'], ['c']⟩ := by decide
  have hone : ∀ c : Char, Segment [c] [] [c] :=
    fun c => ⟨rfl, List.cons_ne_nil _ _, show 1 ≤ bufferSize by decide⟩
  have hline : Segment "a,b,c".toList [] "a,b,c".toList := ⟨rfl, by decide, by decide⟩
  let session := fun typed client server toServer toClient issued served obtained =>
    Session.mk typed client server ⟨0, by decide⟩ toServer toClient issued served obtained
  let quote : Quote := ⟨['a'], ['b'], ['c']⟩
  have hrun : Run (Session.Step fun _ => "a,b,c".toList)
      (Session.start ⟨0, by decide⟩ [['q'], ['r'], ['e']]) [
      (.ask, session [['r'], ['e']] (.reading ['q']) .waiting ['q'] [] [['q']] [] []),
      (.receive, session [['r'], ['e']] (.reading ['q']) (.handling ['q'] quote) [] []
        [['q']] [] []),
      (.answer, session [['r'], ['e']] (.reading ['q']) .waiting [] ['b'] [['q']] [['b']] []),
      (.read ['b'], session [['r'], ['e']] (.printing ['q'] ['b']) .waiting [] []
        [['q']] [['b']] [['b']]),
      (.print, session [['r'], ['e']] .prompting .waiting [] [] [['q']] [['b']] [['b']]),
      (.ask, session [['e']] (.reading ['r']) .waiting ['r'] [] [['q'], ['r']] [['b']] [['b']]),
      (.receive, session [['e']] (.reading ['r']) (.handling ['r'] quote) [] []
        [['q'], ['r']] [['b']] [['b']]),
      (.answer, session [['e']] (.reading ['r']) .waiting [] "a,b,c".toList
        [['q'], ['r']] [['b'], "a,b,c".toList] [['b']]),
      (.read "a,b,c".toList, session [['e']] (.printing ['r'] "a,b,c".toList) .waiting [] []
        [['q'], ['r']] [['b'], "a,b,c".toList] [['b'], "a,b,c".toList]),
      (.print, session [['e']] .prompting .waiting [] []
        [['q'], ['r']] [['b'], "a,b,c".toList] [['b'], "a,b,c".toList]),
      (.ask, session [] .closed .waiting ['e'] []
        [['q'], ['r']] [['b'], "a,b,c".toList] [['b'], "a,b,c".toList]),
      (.receive, session [] .closed (.handling ['e'] quote) [] []
        [['q'], ['r']] [['b'], "a,b,c".toList] [['b'], "a,b,c".toList]),
      (.answer, session [] .closed .closed [] ['e']
        [['q'], ['r']] [['b'], "a,b,c".toList] [['b'], "a,b,c".toList])] :=
    ⟨@Session.Step.ask _ _ ['q'] _ rfl rfl, .receive rfl hquote (hone 'q'),
      @Session.Step.answer _ _ ['q'] quote ⟨0, by decide⟩ rfl fun _ => rfl,
      .read rfl (hone 'b'), .print rfl nofun,
      @Session.Step.ask _ _ ['r'] _ rfl rfl, .receive rfl hquote (hone 'r'),
      @Session.Step.answer _ _ ['r'] quote ⟨0, by decide⟩ rfl fun _ => rfl,
      .read rfl hline, .print rfl fun _ => ⟨1, _, hquote⟩,
      @Session.Step.ask _ _ ['e'] [] rfl rfl, .receive rfl hquote (hone 'e'),
      @Session.Step.answer _ _ ['e'] quote ⟨0, by decide⟩ rfl fun _ => rfl, trivial⟩
  refine ⟨_, hrun, ((session_run_safe_iff _ ⟨0, by decide⟩ [['q'], ['r'], ['e']] hrun).mpr ?_).2,
    _, List.mem_of_getLast? rfl, rfl, rfl⟩
  refine ⟨trivial, trivial, ?_, rfl, trivial, trivial, trivial, ?_, rfl, trivial, trivial, trivial,
    ?_, trivial⟩
  all_goals
    rintro _ _ ⟨⟩ hempty
    exact absurd hempty (by decide)

/-- The line behind the last line feed of the file is empty, and so is its
answer to `q`. -/
theorem session_stuck_on_empty_quote :
    ¬∀ (arr : Fin maxQuotes → Text) (first : Fin maxQuotes) (typed : List Text)
      (run : List (Event × Session)), Run (Session.Step arr) (Session.start first typed) run →
      ∀ p ∈ run, p.2.Safe arr first := by
  intro h
  have hquote : stringToQuote 1 [] = .ok ⟨[], [], []⟩ := rfl
  have hrun : Run (Session.Step fun _ => []) (Session.start ⟨1660, by decide⟩ [['q'], ['e']]) [
      (.ask, (Session.start ⟨1660, by decide⟩ [['q'], ['e']]).handleDataRequest ['q'] [['e']]),
      (.receive, ⟨[['e']], .reading ['q'], .handling ['q'] ⟨[], [], []⟩, ⟨1660, by decide⟩,
        [], [], [['q']], [], []⟩),
      (.answer, (Session.mk [['e']] (.reading ['q']) (.handling ['q'] ⟨[], [], []⟩)
        ⟨1660, by decide⟩ [] [] [['q']] [] []).answer [] ⟨[], [], []⟩ ['q'] ⟨1660, by decide⟩)] :=
    ⟨.ask rfl rfl, .receive rfl hquote ⟨rfl, by decide, by decide⟩, .answer rfl fun _ => rfl,
      trivial⟩
  have hsafe := h _ _ _ _ hrun _ (List.mem_of_getLast? rfl)
  exact hsafe.waits ['q'] rfl rfl rfl rfl ⟨1, _, hquote⟩

end Netsvc.CppClientServer
