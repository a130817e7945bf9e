import Netsvc.CppClientServer.Quote
import Netsvc.Library.Transition

/-! The client loop and the server child of `client_server.cpp`, joined by a
byte stream each way. A character of a `Text` is one byte here. -/
namespace Netsvc.CppClientServer
open Netsvc.Library.Transition

def maxQuotes : Nat := 1662
def bufferSize : Nat := 1024

def newQuoteSelected : Text := "[SERVER] A new quote was selected!".toList

def reply (currQuote : Text) (quote : Quote) (dataAsk : Text) : Option Text :=
  if dataAsk = ['q'] then some quote.quote
  else if dataAsk = ['d'] then some quote.date
  else if dataAsk = ['a'] then some quote.name
  else if dataAsk = ['r'] then some currQuote
  else if dataAsk = ['n'] then some newQuoteSelected
  else if dataAsk = ['e'] then some ['e']
  else none

/-- The inputs for which `handle_data_request` sends a request and returns. -/
def requests : List Text := [['q'], ['d'], ['a'], ['r'], ['n']]

inductive ClientState
  | prompting
  | reading (dataAsk : Text)
  | printing (dataAsk readQuote : Text)
  | closed

/-- `waiting` is the loop head: the child splits the line of its pick and then
calls `recv`. -/
inductive ServerState
  | waiting
  | handling (dataAsk : Text) (quote : Quote)
  | closed
  | crashed

/-- `issued` are the requests the client has sent, `served` the replies the
child has computed for them and `obtained` the texts the client has read. -/
structure Session where
  typed : List Text
  client : ClientState
  server : ServerState
  random : Fin maxQuotes
  toServer : Text
  toClient : Text
  issued : List Text
  served : List Text
  obtained : List Text

def Session.start (random : Fin maxQuotes) (typed : List Text) : Session :=
  ⟨typed, .prompting, .waiting, random, [], [], [], [], []⟩

/-- `handle_data_request` on one input; it asks again after an invalid one. -/
def Session.handleDataRequest (s : Session) (dataAsk : Text) (typed : List Text) : Session :=
  if dataAsk ∈ requests then
    { s with
      typed := typed, client := .reading dataAsk
      toServer := s.toServer ++ dataAsk, issued := s.issued ++ [dataAsk] }
  else if dataAsk = ['e'] then
    { s with typed := typed, client := .closed, toServer := s.toServer ++ ['e'] }
  else { s with typed := typed }

def Session.answer (s : Session) (line : Text) (quote : Quote) (dataAsk : Text)
    (random : Fin maxQuotes) : Session :=
  { s with
    server := if dataAsk = ['e'] then .closed else .waiting
    random := random
    toClient := s.toClient ++ (reply line quote dataAsk).getD []
    served := if dataAsk = ['e'] then s.served else s.served ++ (reply line quote dataAsk).toList }

inductive Event
  | ask
  | read (segment : Text)
  | print
  | abort
  | receive
  | receiveEnd
  | crash
  | answer

/-- One `recv` returns between 1 and `BUFFER_SIZE` of the bytes in flight. -/
structure Segment (segment rest stream : Text) : Prop where
  split : stream = segment ++ rest
  pos : segment ≠ []
  le : segment.length ≤ bufferSize

/-- The parent keeps the socket of every child open, so no `recv` of a client comes to the
end of the stream. -/
inductive Session.Step (arr : Fin maxQuotes → Text) : Session → Event → Session → Prop
  | ask {s : Session} {dataAsk : Text} {typed : List Text} (hc : s.client = .prompting)
      (ht : s.typed = dataAsk :: typed) : Step arr s .ask (s.handleDataRequest dataAsk typed)
  | read {s : Session} {dataAsk segment rest : Text} (hc : s.client = .reading dataAsk)
      (hs : Segment segment rest s.toClient) : Step arr s (.read segment) { s with
        client := .printing dataAsk segment, toClient := rest, obtained := s.obtained ++ [segment] }
  -- only the answer to `r` is split before it is printed
  | print {s : Session} {dataAsk readQuote : Text} (hc : s.client = .printing dataAsk readQuote)
      (hp : dataAsk = ['r'] → ∃ fuel quote, stringToQuote fuel readQuote = .ok quote) :
      Step arr s .print { s with client := .prompting }
  | abort {s : Session} {fuel : Nat} {readQuote : Text} {fault : Fault}
      (hc : s.client = .printing ['r'] readQuote)
      (hp : stringToQuote fuel readQuote = .error fault) (hf : fault ≠ .outOfFuel) :
      Step arr s .abort { s with client := .closed }
  | receive {s : Session} {fuel : Nat} {quote : Quote} {segment rest : Text}
      (hs : s.server = .waiting) (hq : stringToQuote fuel (arr s.random) = .ok quote)
      (hr : Segment segment rest s.toServer) :
      Step arr s .receive { s with server := .handling segment quote, toServer := rest }
  | receiveEnd {s : Session} {fuel : Nat} {quote : Quote} (hs : s.server = .waiting)
      (hq : stringToQuote fuel (arr s.random) = .ok quote) (hr : s.toServer = [])
      (hc : s.client = .closed) :
      Step arr s .receiveEnd { s with server := .handling [] quote }
  | crash {s : Session} {fuel : Nat} {fault : Fault} (hs : s.server = .waiting)
      (hq : stringToQuote fuel (arr s.random) = .error fault) (hf : fault ≠ .outOfFuel) :
      Step arr s .crash { s with server := .crashed }
  | answer {s : Session} {dataAsk : Text} {quote : Quote} {random : Fin maxQuotes}
      (hs : s.server = .handling dataAsk quote) (hn : dataAsk ≠ ['n'] → random = s.random) :
      Step arr s .answer (s.answer (arr s.random) quote dataAsk random)

/-- The replies due to a sequence of requests, and the pick it ends with. Only
`n` changes the pick. -/
inductive Serves (arr : Fin maxQuotes → Text) (first : Fin maxQuotes) :
    List Text → List Text → Fin maxQuotes → Prop
  | start : Serves arr first [] [] first
  | answer {asked replies : List Text} {pick next : Fin maxQuotes} {fuel : Nat} {quote : Quote}
      {dataAsk text : Text} (before : Serves arr first asked replies pick)
      (hq : stringToQuote fuel (arr pick) = .ok quote) (hmem : dataAsk ∈ requests)
      (hr : reply (arr pick) quote dataAsk = some text) (hn : dataAsk ≠ ['n'] → next = pick) :
      Serves arr first (asked ++ [dataAsk]) (replies ++ [text]) next

structure Session.Safe (arr : Fin maxQuotes → Text) (first : Fin maxQuotes) (s : Session) :
    Prop where
  waits : ∀ dataAsk, s.client = .reading dataAsk → s.toServer = [] → s.toClient = [] →
    s.server = .waiting → ¬∃ fuel quote, stringToQuote fuel (arr s.random) = .ok quote
  texts : ∃ asked, asked <+: s.issued ∧ Serves arr first asked s.served s.random ∧
    s.obtained <+: s.served

def Session.Good (arr : Fin maxQuotes → Text) (s : Session) : Event → Prop
  | .answer => ∀ dataAsk quote, s.server = .handling dataAsk quote →
      reply (arr s.random) quote dataAsk ≠ some []
  | .read segment => segment = s.toClient
  | _ => True

theorem newQuoteSelected_ne_nil : newQuoteSelected ≠ [] := by decide

theorem exit_notMem_requests : ['e'] ∉ requests := by decide

theorem length_of_mem_requests {dataAsk : Text} (h : dataAsk ∈ requests) :
    dataAsk.length = 1 := by
  simp only [requests, List.mem_cons, List.not_mem_nil, or_false] at h
  rcases h with rfl | rfl | rfl | rfl | rfl <;> rfl

theorem Segment.of_length_one {segment rest stream : Text} (h : Segment segment rest stream)
    (hlen : stream.length = 1) : segment = stream ∧ rest = [] := by
  have hpos := List.length_pos_iff.mpr h.pos
  have hsplit := congrArg List.length h.split
  rw [List.length_append] at hsplit
  have hrest : rest = [] := List.length_eq_zero_iff.mp (by omega)
  exact ⟨by simp [h.split, hrest], hrest⟩

theorem exists_reply (line : Text) (quote : Quote) {dataAsk : Text} (h : dataAsk ∈ requests) :
    ∃ text, reply line quote dataAsk = some text := by
  simp only [requests, List.mem_cons, List.not_mem_nil, or_false] at h
  rcases h with rfl | rfl | rfl | rfl | rfl <;> exact ⟨_, rfl⟩

def ServerState.Idle (server : ServerState) : Prop := server = .waiting ∨ server = .crashed

inductive Session.Progress (arr : Fin maxQuotes → Text) (first : Fin maxQuotes) (dataAsk : Text)
    (s : Session) : Prop
  | sent {asked : List Text} (hs : s.server.Idle) (hto : s.toServer = dataAsk)
      (hback : s.toClient = []) (hi : s.issued = asked ++ [dataAsk])
      (hserves : Serves arr first asked s.served s.random) (ho : s.obtained = s.served)
  | handled {asked : List Text} {fuel : Nat} {quote : Quote} (hs : s.server = .handling dataAsk quote)
      (hq : stringToQuote fuel (arr s.random) = .ok quote) (hto : s.toServer = [])
      (hback : s.toClient = []) (hi : s.issued = asked ++ [dataAsk])
      (hserves : Serves arr first asked s.served s.random) (ho : s.obtained = s.served)
  | replied (hs : s.server.Idle) (hto : s.toServer = []) (hne : s.toClient ≠ [])
      (hserves : Serves arr first s.issued s.served s.random)
      (ho : s.served = s.obtained ++ [s.toClient])

structure Session.Settled (arr : Fin maxQuotes → Text) (first : Fin maxQuotes) (s : Session) :
    Prop where
  serves : Serves arr first s.issued s.served s.random
  obtained : s.obtained = s.served

structure Session.Quiet (s : Session) : Prop where
  server : s.server.Idle
  toServer : s.toServer = []
  toClient : s.toClient = []

structure Session.Ended (s : Session) : Prop where
  toServer : s.toServer = [] ∨ s.toServer = ['e']
  server : ∀ dataAsk quote, s.server = .handling dataAsk quote → dataAsk = [] ∨ dataAsk = ['e']

def Session.Invariant (arr : Fin maxQuotes → Text) (first : Fin maxQuotes) (s : Session) : Prop :=
  match s.client with
  | .prompting => s.Settled arr first ∧ s.Quiet
  | .printing _ _ => s.Settled arr first ∧ s.Quiet
  | .reading dataAsk => dataAsk ∈ requests ∧ s.Progress arr first dataAsk
  | .closed => s.Settled arr first ∧ s.Ended

variable {arr : Fin maxQuotes → Text} {first : Fin maxQuotes}

theorem Segment.stream_ne_nil {segment rest stream : Text} (h : Segment segment rest stream) :
    stream ≠ [] := by
  rintro rfl
  exact h.pos (List.append_eq_nil_iff.mp h.split.symm).1

theorem ServerState.Idle.ne_handling {server : ServerState} (h : server.Idle) {dataAsk : Text}
    {quote : Quote} : server ≠ .handling dataAsk quote := by
  rcases h with h | h <;> simp [h]

theorem Session.Quiet.ended {s : Session} (h : s.Quiet) : s.Ended :=
  ⟨Or.inl h.toServer, fun _ _ hs => absurd hs h.server.ne_handling⟩

theorem Session.Invariant.safe {s : Session} (h : s.Invariant arr first) : s.Safe arr first := by
  unfold Session.Invariant at h
  cases hc : s.client with
  | prompting | printing | closed =>
    simp only [hc] at h
    exact ⟨by simp [hc], s.issued, List.prefix_refl _, h.1.serves,
      h.1.obtained ▸ List.prefix_refl _⟩
  | reading dataAsk =>
    simp only [hc] at h
    obtain ⟨hmem, hprogress⟩ := h
    cases hprogress with
    | sent _ hto _ hi hserves ho =>
      refine ⟨fun _ _ hnone => ?_, _, ⟨_, hi.symm⟩, hserves, ho ▸ List.prefix_refl _⟩
      have hlen := length_of_mem_requests hmem
      simp [← hto, hnone] at hlen
    | handled hs _ _ _ hi hserves ho =>
      exact ⟨fun _ _ _ _ hw => by simp [hs] at hw, _, ⟨_, hi.symm⟩, hserves,
        ho ▸ List.prefix_refl _⟩
    | replied _ _ hne hserves ho =>
      exact ⟨fun _ _ _ hnone => absurd hnone hne, _, List.prefix_refl _, hserves,
        ho ▸ List.prefix_append _ _⟩

theorem Session.Invariant.ask {s : Session} (h : s.Invariant arr first)
    (hc : s.client = .prompting) (dataAsk : Text) (typed : List Text) :
    (s.handleDataRequest dataAsk typed).Invariant arr first := by
  simp only [Session.Invariant, hc] at h
  obtain ⟨hsettled, hquiet⟩ := h
  unfold Session.handleDataRequest
  split_ifs with hmem hexit
  · exact ⟨hmem, .sent hquiet.server (by simp [hquiet.toServer]) hquiet.toClient rfl
      hsettled.serves hsettled.obtained⟩
  · exact ⟨⟨hsettled.serves, hsettled.obtained⟩, Or.inr (by simp [hquiet.toServer]),
      hquiet.ended.server⟩
  · simp only [Session.Invariant, hc]
    exact ⟨⟨hsettled.serves, hsettled.obtained⟩, hquiet.server, hquiet.toServer, hquiet.toClient⟩

theorem Session.Invariant.read {s : Session} (h : s.Invariant arr first) {dataAsk rest : Text}
    (hc : s.client = .reading dataAsk) (hs : Segment s.toClient rest s.toClient) :
    Session.Invariant arr first { s with
      client := .printing dataAsk s.toClient, toClient := rest
      obtained := s.obtained ++ [s.toClient] } := by
  simp only [Session.Invariant, hc] at h
  obtain ⟨_, hprogress⟩ := h
  cases hprogress with
  | sent _ _ hback => exact absurd hback hs.pos
  | handled _ _ _ hback => exact absurd hback hs.pos
  | replied hidle hto _ hserves ho =>
    exact ⟨⟨hserves, ho.symm⟩, hidle, hto, List.self_eq_append_right.mp hs.split⟩

theorem Session.Invariant.receive {s : Session} (h : s.Invariant arr first) {fuel : Nat}
    {quote : Quote} {segment rest : Text} (hs : s.server = .waiting)
    (hq : stringToQuote fuel (arr s.random) = .ok quote) (hr : Segment segment rest s.toServer) :
    Session.Invariant arr first
      { s with server := .handling segment quote, toServer := rest } := by
  unfold Session.Invariant at h ⊢
  cases hc : s.client with
  | prompting | printing =>
    simp only [hc] at h
    exact absurd h.2.toServer hr.stream_ne_nil
  | closed =>
    simp only [hc] at h ⊢
    rcases h.2.toServer with hto | hto
    · exact absurd hto hr.stream_ne_nil
    · obtain ⟨hsegment, hrest⟩ := hr.of_length_one (by simp [hto])
      refine ⟨⟨h.1.serves, h.1.obtained⟩, Or.inl hrest, ?_⟩
      rintro _ _ ⟨⟩
      exact Or.inr (hsegment.trans hto)
  | reading dataAsk =>
    simp only [hc] at h ⊢
    obtain ⟨hmem, hprogress⟩ := h
    cases hprogress with
    | sent _ hto hback hi hserves ho =>
      obtain ⟨hsegment, hrest⟩ := hr.of_length_one (hto ▸ length_of_mem_requests hmem)
      exact ⟨hmem, .handled (by rw [hsegment, hto]) hq hrest hback hi hserves ho⟩
    | handled hs' => simp [hs] at hs'
    | replied _ hto => exact absurd hto hr.stream_ne_nil

theorem Session.Invariant.crash {s : Session} (h : s.Invariant arr first)
    (hs : s.server = .waiting) : Session.Invariant arr first { s with server := .crashed } := by
  have hidle : ServerState.Idle .crashed := Or.inr rfl
  unfold Session.Invariant at h ⊢
  cases hc : s.client with
  | prompting | printing =>
    simp only [hc] at h ⊢
    exact ⟨⟨h.1.serves, h.1.obtained⟩, hidle, h.2.toServer, h.2.toClient⟩
  | closed =>
    simp only [hc] at h ⊢
    exact ⟨⟨h.1.serves, h.1.obtained⟩, h.2.toServer, by simp⟩
  | reading dataAsk =>
    simp only [hc] at h ⊢
    obtain ⟨hmem, hprogress⟩ := h
    cases hprogress with
    | sent _ hto hback hi hserves ho => exact ⟨hmem, .sent hidle hto hback hi hserves ho⟩
    | handled hs' => simp [hs] at hs'
    | replied _ hto hne hserves ho => exact ⟨hmem, .replied hidle hto hne hserves ho⟩

inductive Session.Handling (arr : Fin maxQuotes → Text) (first : Fin maxQuotes)
    (dataAsk : Text) (quote : Quote) (s : Session) : Prop
  | ended (hc : s.client = .closed) (hsettled : s.Settled arr first)
      (hto : s.toServer = [] ∨ s.toServer = ['e']) (hask : dataAsk = [] ∨ dataAsk = ['e'])
  | request {asked : List Text} {fuel : Nat} (hc : s.client = .reading dataAsk)
      (hmem : dataAsk ∈ requests) (hq : stringToQuote fuel (arr s.random) = .ok quote)
      (hto : s.toServer = []) (hback : s.toClient = []) (hi : s.issued = asked ++ [dataAsk])
      (hserves : Serves arr first asked s.served s.random) (ho : s.obtained = s.served)

theorem Session.Invariant.handling {s : Session} (h : s.Invariant arr first) {dataAsk : Text}
    {quote : Quote} (hs : s.server = .handling dataAsk quote) :
    s.Handling arr first dataAsk quote := by
  unfold Session.Invariant at h
  cases hc : s.client with
  | prompting | printing =>
    simp only [hc] at h
    exact absurd hs h.2.server.ne_handling
  | closed =>
    simp only [hc] at h
    exact .ended hc h.1 h.2.toServer (h.2.server _ _ hs)
  | reading asked =>
    simp only [hc] at h
    obtain ⟨hmem, hprogress⟩ := h
    cases hprogress with
    | sent hidle => exact absurd hs hidle.ne_handling
    | replied hidle => exact absurd hs hidle.ne_handling
    | @handled _ _ quote' hs' hq hto hback hi hserves ho =>
      obtain ⟨rfl, rfl⟩ : dataAsk = asked ∧ quote = quote' := by simpa [hs] using hs'
      exact .request hc hmem hq hto hback hi hserves ho

theorem Session.Invariant.answer {s : Session} (h : s.Invariant arr first) {dataAsk : Text}
    {quote : Quote} {random : Fin maxQuotes} (hs : s.server = .handling dataAsk quote)
    (hn : dataAsk ≠ ['n'] → random = s.random)
    (hgood : reply (arr s.random) quote dataAsk ≠ some []) :
    (s.answer (arr s.random) quote dataAsk random).Invariant arr first := by
  cases h.handling hs with
  | ended hc hsettled hto hask =>
    obtain rfl : random = s.random := hn (by rcases hask with rfl | rfl <;> simp)
    simp only [Session.Invariant, Session.answer, hc]
    rcases hask with rfl | rfl
    · exact ⟨⟨by simpa [reply] using hsettled.serves, by simpa [reply] using hsettled.obtained⟩,
        hto, by simp⟩
    · exact ⟨⟨by simpa [reply] using hsettled.serves, by simpa [reply] using hsettled.obtained⟩,
        hto, by simp⟩
  | request hc hmem hq hto hback hi hserves ho =>
    obtain ⟨text, htext⟩ := exists_reply (arr s.random) quote hmem
    have hexit : dataAsk ≠ ['e'] := fun heq => exit_notMem_requests (heq ▸ hmem)
    simp only [Session.Invariant, Session.answer, hc, htext, hexit, if_false, Option.getD_some,
      Option.toList_some]
    refine ⟨hmem, .replied (Or.inl rfl) hto ?_ ?_ ?_⟩
    · rintro hnone
      exact hgood (by rw [htext, (List.append_eq_nil_iff.mp hnone).2])
    · rw [hi]
      exact .answer hserves hq hmem htext hn
    · simp [hback, ho]

end Netsvc.CppClientServer
