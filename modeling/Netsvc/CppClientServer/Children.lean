import Netsvc.CppClientServer.Correspondence
import Netsvc.CppClientServer.RequestLoop
import Netsvc.Library.Interleaving

/-! The server of `client_server.cpp` with all its clients. `fork` copies the pick and
the state of `rand` into each child, so the children draw the same quotes in turn. -/
namespace Netsvc.CppClientServer
open Netsvc.Library.Interleaving Netsvc.Library.Transition

/-- A client and its child; `drawn` counts the child's calls of `rand`. -/
structure Conversation where
  session : Session
  drawn : ℕ

/-- Only the answer to `n` calls `rand`. -/
inductive Conversation.Step (arr : Fin maxQuotes → Text) (draws : ℕ → Fin maxQuotes) :
    Conversation → Event → Conversation → Prop
  | plain {c : Conversation} {e : Event} {s : Session} (hstep : Session.Step arr c.session e s)
      (hplain : e = .answer → ∀ quote, c.session.server ≠ .handling ['n'] quote) :
      Step arr draws c e ⟨s, c.drawn⟩
  | draw {c : Conversation} {quote : Quote} (hs : c.session.server = .handling ['n'] quote) :
      Step arr draws c .answer
        ⟨c.session.answer (arr c.session.random) quote ['n'] (draws c.drawn), c.drawn + 1⟩

def Event.ofChild : Event → Prop
  | .receive | .receiveEnd | .crash | .answer => True
  | .ask | .read _ | .print | .abort => False

structure Server (ι : Type*) where
  forked : List ι
  conversations : ι → Conversation

def Server.start {ι : Type*} (first : Fin maxQuotes) (typed : ι → List Text) : Server ι :=
  ⟨[], fun i => ⟨Session.start first (typed i), 0⟩⟩

inductive Server.Event (ι : Type*)
  | fork (i : ι)
  | move (i : ι) (e : CppClientServer.Event)

inductive Server.Step {ι : Type*} [DecidableEq ι] (arr : Fin maxQuotes → Text)
    (draws : ℕ → Fin maxQuotes) : Server ι → Server.Event ι → Server ι → Prop
  | fork {x : Server ι} (i : ι) (hnew : i ∉ x.forked) :
      Step arr draws x (.fork i) ⟨x.forked ++ [i], x.conversations⟩
  | move {x : Server ι} {e : CppClientServer.Event} {c : Conversation} (i : ι)
      (hforked : e.ofChild → i ∈ x.forked)
      (hstep : Conversation.Step arr draws (x.conversations i) e c) :
      Step arr draws x (.move i e) ⟨x.forked, Function.update x.conversations i c⟩

def Server.Good {ι : Type*} (arr : Fin maxQuotes → Text) (x : Server ι) :
    Server.Event ι → Prop
  | .fork _ => True
  | .move i e => (x.conversations i).session.Good arr e

def Conversation.GoodStep (arr : Fin maxQuotes → Text) (draws : ℕ → Fin maxQuotes)
    (c : Conversation) (e : Event) (d : Conversation) : Prop :=
  Conversation.Step arr draws c e d ∧ c.session.Good arr e

def Server.GoodStep {ι : Type*} [DecidableEq ι] (arr : Fin maxQuotes → Text)
    (draws : ℕ → Fin maxQuotes) (x : Server ι) (e : Server.Event ι) (y : Server ι) : Prop :=
  Server.Step arr draws x e y ∧ x.Good arr e

/-- What the client has to read for its request number `k`: the answer out of the quote
drawn last before it. -/
def Told (arr : Fin maxQuotes → Text) (first : Fin maxQuotes) (draws : ℕ → Fin maxQuotes)
    (issued : List Text) (k : ℕ) (text : Text) : Prop :=
  let line := arr ((Child.start first draws issued).pick k)
  ∃ dataAsk fuel quote, issued[k]? = some dataAsk ∧ stringToQuote fuel line = .ok quote ∧
    reply line quote dataAsk = some text

section Picks
variable (first : Fin maxQuotes) (draws : ℕ → Fin maxQuotes)

theorem pick_append {issued : List Text} (more : List Text) {k : ℕ} (h : k ≤ issued.length) :
    (Child.start first draws (issued ++ more)).pick k =
      (Child.start first draws issued).pick k := by
  unfold Child.pick Child.start
  rw [List.take_append_of_le_length h]

theorem pick_eq_of_count_eq {issued issued' : List Text} {k l : ℕ}
    (h : (issued.take k).count ['n'] = (issued'.take l).count ['n']) :
    (Child.start first draws issued).pick k = (Child.start first draws issued').pick l := by
  unfold Child.pick Child.start
  rw [h]

theorem pick_draw (asked : List Text) :
    (Child.start first draws (asked ++ [['n']])).pick (asked.length + 1) =
      draws (asked.count ['n']) := by
  unfold Child.pick Child.start
  rw [List.take_of_length_le (by simp), List.count_append, List.count_singleton_self]

theorem pick_keep (asked : List Text) {dataAsk : Text} (h : dataAsk ≠ ['n']) :
    (Child.start first draws (asked ++ [dataAsk])).pick (asked.length + 1) =
      (Child.start first draws asked).pick asked.length := by
  apply pick_eq_of_count_eq
  rw [List.take_of_length_le (by simp), List.take_length, List.count_append,
    List.count_singleton, if_neg (by simpa using h), Nat.add_zero]

end Picks

variable {arr : Fin maxQuotes → Text} {first : Fin maxQuotes} {draws : ℕ → Fin maxQuotes}

theorem Told.append {issued : List Text} {k : ℕ} {text : Text}
    (h : Told arr first draws issued k text) (more : List Text) :
    Told arr first draws (issued ++ more) k text := by
  obtain ⟨dataAsk, fuel, quote, hask, hquote, hreply⟩ := h
  have hlt := (List.getElem?_eq_some_iff.mp hask).1
  refine ⟨dataAsk, fuel, quote, by rw [List.getElem?_append_left hlt, hask], ?_, ?_⟩
  · rwa [pick_append first draws more hlt.le]
  · rwa [pick_append first draws more hlt.le]

theorem Told.unique {issued issued' : List Text} {k l : ℕ} {text text' : Text}
    (h : Told arr first draws issued k text) (h' : Told arr first draws issued' l text')
    (hask : issued[k]? = issued'[l]?)
    (hcount : (issued.take k).count ['n'] = (issued'.take l).count ['n']) : text = text' := by
  obtain ⟨dataAsk, fuel, quote, hget, hquote, hreply⟩ := h
  obtain ⟨dataAsk', fuel', quote', hget', hquote', hreply'⟩ := h'
  rw [pick_eq_of_count_eq first draws hcount] at hquote hreply
  have hsame : stringToQuote fuel _ = stringToQuote fuel' _ :=
    stringToQuote_unique (by rw [hquote]; nofun) (by rw [hquote']; nofun)
  rw [hquote, hquote'] at hsame
  rw [hget, hget'] at hask
  cases hsame
  cases hask
  exact Option.some.inj (hreply.symm.trans hreply')

theorem Serves.length_eq {asked replies : List Text} {pick : Fin maxQuotes}
    (h : Serves arr first asked replies pick) : replies.length = asked.length := by
  induction h with
  | start => rfl
  | answer _ _ _ _ _ ih => rw [List.length_append, List.length_append, ih]; rfl

theorem Session.Invariant.served_le {s : Session} (h : s.Invariant arr first) :
    s.served.length ≤ s.issued.length := by
  obtain ⟨asked, hprefix, hserves, -⟩ := h.safe.texts
  rw [hserves.length_eq]
  exact hprefix.length_le

theorem Session.Step.keeps {s s' : Session} {e : Event} (h : Session.Step arr s e s')
    (he : e ≠ .answer) :
    s'.served = s.served ∧ s'.random = s.random ∧ ∃ more, s'.issued = s.issued ++ more := by
  cases h with
  | ask =>
    unfold Session.handleDataRequest
    split_ifs
    · exact ⟨rfl, rfl, _, rfl⟩
    · exact ⟨rfl, rfl, [], (List.append_nil _).symm⟩
    · exact ⟨rfl, rfl, [], (List.append_nil _).symm⟩
  | answer => exact absurd rfl he
  | read | print | abort | receive | receiveEnd | crash =>
    exact ⟨rfl, rfl, [], (List.append_nil _).symm⟩

structure Conversation.Recorded (arr : Fin maxQuotes → Text) (first : Fin maxQuotes)
    (draws : ℕ → Fin maxQuotes) (c : Conversation) : Prop where
  drawn : c.drawn = (c.session.issued.take c.session.served.length).count ['n']
  random : c.session.random =
    (Child.start first draws c.session.issued).pick c.session.served.length
  replies : ∀ k text, c.session.served[k]? = some text →
    Told arr first draws c.session.issued k text

section Conversation
variable {c d : Conversation}

theorem Conversation.Recorded.keep (h : c.Recorded arr first draws)
    (hinv : c.session.Invariant arr first) {s : Session} {e : Event}
    (hstep : Session.Step arr c.session e s) (he : e ≠ .answer) :
    Conversation.Recorded arr first draws ⟨s, c.drawn⟩ := by
  obtain ⟨hserved, hrandom, more, hissued⟩ := hstep.keeps he
  have hle := hinv.served_le
  refine ⟨?_, ?_, fun k text hk => ?_⟩
  · rw [hserved, hissued, List.take_append_of_le_length hle]
    exact h.drawn
  · rw [hrandom, hserved, hissued, pick_append first draws more hle]
    exact h.random
  · rw [hserved] at hk
    exact hissued ▸ (h.replies k text hk).append more

theorem Conversation.Recorded.answer (h : c.Recorded arr first draws)
    (hinv : c.session.Invariant arr first) {dataAsk : Text} {quote : Quote}
    (hs : c.session.server = .handling dataAsk quote) {random : Fin maxQuotes} {drawn : ℕ}
    (hdraw : dataAsk = ['n'] → random = draws c.drawn ∧ drawn = c.drawn + 1)
    (hkeep : dataAsk ≠ ['n'] → random = c.session.random ∧ drawn = c.drawn) :
    Conversation.Recorded arr first draws
      ⟨c.session.answer (arr c.session.random) quote dataAsk random, drawn⟩ := by
  cases hinv.handling hs with
  | ended _ _ _ hask =>
    obtain ⟨rfl, rfl⟩ := hkeep (by rcases hask with rfl | rfl <;> decide)
    have hserved : (c.session.answer (arr c.session.random) quote dataAsk
        c.session.random).served = c.session.served := by
      rcases hask with rfl | rfl <;> simp [Session.answer, reply]
    exact ⟨hserved ▸ h.drawn, hserved ▸ h.random, hserved ▸ h.replies⟩
  | @request asked fuel _ hmem hq _ _ hi hserves _ =>
    obtain ⟨text, htext⟩ := exists_reply (arr c.session.random) quote hmem
    have hexit : dataAsk ≠ ['e'] := fun heq => exit_notMem_requests (heq ▸ hmem)
    have hlength := hserves.length_eq
    have hserved : (c.session.answer (arr c.session.random) quote dataAsk random).served =
        c.session.served ++ [text] := by
      simp [Session.answer, hexit, htext]
    have htake : (c.session.issued).take asked.length = asked := by
      rw [hi, List.take_left]
    have hdrawn := h.drawn
    have hrandom := h.random
    rw [hlength, htake] at hdrawn
    rw [hlength, hi, pick_append first draws _ le_rfl] at hrandom
    refine ⟨?_, ?_, fun k reply hk => ?_⟩
    · change drawn = (c.session.issued.take _).count ['n']
      rw [hserved, List.length_append, List.length_singleton, hlength, hi,
        List.take_of_length_le (by simp), List.count_append, ← hdrawn]
      by_cases hn : dataAsk = ['n']
      · rw [(hdraw hn).2, hn, List.count_singleton_self]
      · rw [(hkeep hn).2, List.count_singleton, if_neg (by simpa using hn), Nat.add_zero]
    · change random = (Child.start first draws c.session.issued).pick _
      rw [hserved, List.length_append, List.length_singleton, hlength, hi]
      by_cases hn : dataAsk = ['n']
      · rw [(hdraw hn).1, hn, pick_draw, hdrawn]
      · rw [(hkeep hn).1, pick_keep first draws asked hn, hrandom]
    · change Told arr first draws c.session.issued k reply
      rw [hserved] at hk
      rcases lt_or_ge k c.session.served.length with hlt | hge
      · rw [List.getElem?_append_left hlt] at hk
        exact h.replies k reply hk
      · rw [List.getElem?_append_right hge, List.getElem?_singleton] at hk
        obtain ⟨hk, rfl⟩ : k - c.session.served.length = 0 ∧ text = reply := by
          simpa using hk
        obtain rfl : k = asked.length := by omega
        refine ⟨dataAsk, fuel, quote, by rw [hi, List.getElem?_concat_length], ?_, ?_⟩
        · rwa [hi, pick_append first draws _ le_rfl, ← hrandom]
        · rwa [hi, pick_append first draws _ le_rfl, ← hrandom]

theorem Conversation.GoodStep.recorded {e : Event} (h : Conversation.GoodStep arr draws c e d)
    (hinv : c.session.Invariant arr first) (hrecorded : c.Recorded arr first draws) :
    d.session.Invariant arr first ∧ d.Recorded arr first draws := by
  obtain ⟨hstep, hgood⟩ := h
  cases hstep with
  | @plain e s hstep hplain =>
    refine ⟨hinv.step hstep hgood, ?_⟩
    by_cases he : e = .answer
    · subst he
      cases hstep with
      | @answer dataAsk quote random hs hn =>
        have hask : dataAsk ≠ ['n'] := fun heq => hplain rfl quote (heq ▸ hs)
        exact hrecorded.answer hinv hs (absurd · hask) fun _ => ⟨hn hask, rfl⟩
    · exact hrecorded.keep hinv hstep he
  | draw hs =>
    refine ⟨hinv.answer hs (absurd rfl) (hgood _ _ hs), ?_⟩
    exact hrecorded.answer hinv hs (fun _ => ⟨rfl, rfl⟩) (absurd rfl)

end Conversation

structure Session.Current (s : Session) : Prop where
  reading : ∀ dataAsk, s.client = .reading dataAsk → s.issued.getLast? = some dataAsk
  printing : ∀ dataAsk readQuote, s.client = .printing dataAsk readQuote →
    s.issued.getLast? = some dataAsk ∧ s.obtained.getLast? = some readQuote

theorem Session.Current.step {s s' : Session} {e : Event} (h : s.Current)
    (hstep : Session.Step arr s e s') : s'.Current := by
  cases hstep with
  | ask hc =>
    unfold Session.handleDataRequest
    split_ifs
    · refine ⟨?_, nofun⟩
      rintro _ ⟨⟩
      exact List.getLast?_concat
    · exact ⟨nofun, nofun⟩
    · exact ⟨h.reading, h.printing⟩
  | read hc =>
    refine ⟨nofun, ?_⟩
    rintro _ _ ⟨⟩
    exact ⟨h.reading _ hc, List.getLast?_concat⟩
  | print | abort => exact ⟨nofun, nofun⟩
  | receive | receiveEnd | crash | answer => exact ⟨h.reading, h.printing⟩

theorem Conversation.Step.session {c d : Conversation} {e : Event}
    (h : Conversation.Step arr draws c e d) : Session.Step arr c.session e d.session := by
  cases h with
  | plain hstep => exact hstep
  | draw hs => exact .answer hs (absurd rfl)

theorem Conversation.recorded {typed : List Text} {c : Conversation}
    (h : Reachable (Conversation.GoodStep arr draws) ⟨Session.start first typed, 0⟩ c) :
    c.session.Invariant arr first ∧ c.Recorded arr first draws ∧ c.session.Current := by
  refine h.invariant (fun c => c.session.Invariant arr first ∧ c.Recorded arr first draws ∧
    c.session.Current) ?_ ?_
  · rintro c e d ⟨hinv, hrecorded, hcurrent⟩ hstep
    obtain ⟨hinv', hrecorded'⟩ := hstep.recorded hinv hrecorded
    exact ⟨hinv', hrecorded', hcurrent.step hstep.1.session⟩
  · exact ⟨Session.start_invariant arr first _, ⟨rfl, rfl, nofun⟩, nofun, nofun⟩

section Server
variable {ι : Type*} [DecidableEq ι] {typed : ι → List Text} {x : Server ι}

theorem Server.simulates : Simulation (Server.GoodStep arr draws)
    (Interleaved fun _ : ι => Conversation.GoodStep arr draws) fun x c => x.conversations = c where
  match_step := by
    rintro x _ e y rfl ⟨hstep, hgood⟩
    cases hstep with
    | fork => exact ⟨_, .refl _, rfl⟩
    | move i _ hstep => exact ⟨_, reachable_of_step (.move i ⟨hstep, hgood⟩), rfl⟩

theorem Server.conversation_reachable
    (h : Reachable (Server.GoodStep arr draws) (.start first typed) x) (i : ι) :
    Reachable (Conversation.GoodStep arr draws) ⟨Session.start first (typed i), 0⟩
      (x.conversations i) := by
  obtain ⟨conversations, hreach, rfl⟩ := Server.simulates.reachable rfl h
  exact Interleaved.component hreach i

theorem Server.recorded (h : Reachable (Server.GoodStep arr draws) (.start first typed) x)
    (i : ι) : (x.conversations i).session.Invariant arr first ∧
      (x.conversations i).Recorded arr first draws ∧ (x.conversations i).session.Current :=
  Conversation.recorded (Server.conversation_reachable h i)

theorem Server.told (h : Reachable (Server.GoodStep arr draws) (.start first typed) x) (i : ι)
    {k : ℕ} {text : Text} (hk : (x.conversations i).session.obtained[k]? = some text) :
    Told arr first draws (x.conversations i).session.issued k text := by
  obtain ⟨hinv, hrecorded, -⟩ := Server.recorded h i
  obtain ⟨-, -, -, more, hserved⟩ := hinv.safe.texts
  have hlt := (List.getElem?_eq_some_iff.mp hk).1
  refine hrecorded.replies k text ?_
  rw [← hserved, List.getElem?_append_left hlt, hk]

theorem Server.lift {i : ι} {c : Conversation} (hforked : i ∈ x.forked)
    (h : Reachable (Conversation.GoodStep arr draws) (x.conversations i) c) :
    Reachable (Server.GoodStep arr draws) x
      ⟨x.forked, Function.update x.conversations i c⟩ := by
  have hmoves : ∀ c e d, Conversation.GoodStep arr draws c e d → ∃ e, Server.GoodStep arr draws
      ⟨x.forked, Function.update x.conversations i c⟩ e
      ⟨x.forked, Function.update x.conversations i d⟩ := by
    intro c e d hstep
    have hmove : Conversation.GoodStep arr draws (Function.update x.conversations i c i) e d := by
      rwa [Function.update_self]
    rw [← Function.update_idem c d x.conversations]
    exact ⟨_, .move i (fun _ => hforked) hmove.1, hmove.2⟩
  have hmap := h.map (fun c => Server.mk x.forked (Function.update x.conversations i c)) hmoves
  rwa [Function.update_eq_self] at hmap

end Server

/-- While all replies arrive whole, every client gets its answers out of one sequence of
quotes, and two clients that have sent `n` equally often get the same answer to the same
request. -/
theorem clients_share_quotes {ι : Type*} [DecidableEq ι] (arr : Fin maxQuotes → Text)
    (first : Fin maxQuotes) (draws : ℕ → Fin maxQuotes) (typed : ι → List Text) (x : Server ι)
    (h : Reachable (Server.GoodStep arr draws) (.start first typed) x) :
    (∀ i k text, (x.conversations i).session.obtained[k]? = some text →
      Told arr first draws (x.conversations i).session.issued k text) ∧
    ∀ i j k l text text', (x.conversations i).session.obtained[k]? = some text →
      (x.conversations j).session.obtained[l]? = some text' →
      (x.conversations i).session.issued[k]? = (x.conversations j).session.issued[l]? →
      ((x.conversations i).session.issued.take k).count ['n'] =
        ((x.conversations j).session.issued.take l).count ['n'] → text = text' := by
  refine ⟨fun i k text => Server.told h i, fun i j k l text text' hk hl hask hcount => ?_⟩
  exact (Server.told h i hk).unique (Server.told h j hl) hask hcount

theorem Conversation.reach_printing {fuel : ℕ} {quote : Quote}
    (hq : stringToQuote fuel (arr first) = .ok quote) (hne : arr first ≠ [])
    (hle : (arr first).length ≤ bufferSize) :
    Reachable (Conversation.GoodStep arr draws) ⟨Session.start first [['r']], 0⟩
      ⟨⟨[], .printing ['r'] (arr first), .waiting, first, [], [], [['r']], [arr first],
        [arr first]⟩, 0⟩ := by
  have hsegment : Segment ['r'] [] ['r'] := ⟨rfl, by decide, by decide⟩
  have hread : Segment (arr first) [] (arr first) := ⟨(List.append_nil _).symm, hne, hle⟩
  have hgood : ∀ dataAsk quote', ServerState.handling ['r'] quote = .handling dataAsk quote' →
      reply (arr first) quote' dataAsk ≠ some [] := by
    rintro _ _ ⟨⟩ hempty
    exact hne (Option.some.inj hempty)
  apply Reachable.head ⟨.plain (.ask rfl rfl) nofun, trivial⟩
  apply Reachable.head ⟨.plain (.receive rfl hq hsegment) nofun, trivial⟩
  apply Reachable.head ⟨.plain (.answer rfl fun _ => rfl) fun _ _ => nofun, hgood⟩
  exact reachable_of_step ⟨.plain (.read rfl hread) nofun, rfl⟩

theorem Server.reach_printing {fuel : ℕ} {quote : Quote} (draws : ℕ → Fin maxQuotes)
    (hq : stringToQuote fuel (arr first) = .ok quote) (hne : arr first ≠ [])
    (hle : (arr first).length ≤ bufferSize) :
    Reachable (Server.GoodStep arr draws) (.start first fun _ : Unit => [['r']])
      ⟨[()], Function.update (fun _ => ⟨Session.start first [['r']], 0⟩) ()
        ⟨⟨[], .printing ['r'] (arr first), .waiting, first, [], [], [['r']], [arr first],
          [arr first]⟩, 0⟩⟩ := by
  have hfork : Reachable (Server.GoodStep arr draws) (.start first fun _ : Unit => [['r']])
      ⟨[()], fun _ => ⟨Session.start first [['r']], 0⟩⟩ :=
    reachable_of_step ⟨.fork () List.not_mem_nil, trivial⟩
  exact hfork.trans (Server.lift (List.mem_singleton_self ())
    (Conversation.reach_printing hq hne hle))

theorem clients_share_quotes_two : ∃ x : Server (Fin 2),
    Reachable (Server.GoodStep (fun _ => "a,b,c".toList) fun _ => ⟨7, by decide⟩)
      (.start ⟨0, by decide⟩ fun _ => [['r']]) x ∧
    (x.conversations 0).session.obtained = ["a,b,c".toList] ∧
    (x.conversations 1).session.obtained = ["a,b,c".toList] ∧
    Told (fun _ => "a,b,c".toList) ⟨0, by decide⟩ (fun _ => ⟨7, by decide⟩)
      (x.conversations 0).session.issued 0 "a,b,c".toList := by
  have hfork : Reachable
      (Server.GoodStep (fun _ => "a,b,c".toList) fun _ => ⟨7, by decide⟩)
      (.start ⟨0, by decide⟩ fun _ : Fin 2 => [['r']])
      ⟨[0, 1], fun _ => ⟨Session.start ⟨0, by decide⟩ [['r']], 0⟩⟩ := by
    apply Reachable.head ⟨.fork 0 (by decide), trivial⟩
    exact reachable_of_step ⟨.fork 1 (by decide), trivial⟩
  have hquote : stringToQuote 1 "a,b,c".toList = .ok ⟨['a'], ['b'], ['c']⟩ := by decide
  have hzero := hfork.trans (Server.lift (i := 0) (by decide)
    (Conversation.reach_printing hquote (by decide) (by decide)))
  have htwo := hzero.trans (Server.lift (i := 1) (by decide)
    (Conversation.reach_printing hquote (by decide) (by decide)))
  exact ⟨_, htwo, rfl, rfl, (clients_share_quotes _ _ _ _ _ htwo).1 0 0 _ rfl⟩

end Netsvc.CppClientServer
