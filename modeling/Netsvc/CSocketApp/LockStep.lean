import Netsvc.CSocketApp.Exchange

/-! The exchange runs in lock step: the phases of one round, and what each peer
holds in them. -/
namespace Netsvc.CSocketApp
open Netsvc.Library.ByteOrder Netsvc.Library.Transition

variable {setup : Setup} {order : Order} {k : Nat} {p p' : Peer} {action : Action}

theorem fibResultOf_isSome {readInt : Int32} (h : 1 ≤ readInt) : (fibResultOf readInt).isSome := by
  rw [Option.isSome_iff_ne_none, ne_eq, fibResultOf_eq_none_iff]
  rintro rfl
  exact absurd h (by decide)

def Setup.reports (setup : Setup) (k : Nat) : List (Option Int32) :=
  (List.range k).map fun j => fibResultOf (setup.fibIndex j)

theorem Setup.reports_succ (setup : Setup) (k : Nat) :
    setup.reports (k + 1) = setup.reports k ++ [fibResultOf (setup.fibIndex k)] := by
  unfold Setup.reports
  rw [List.range_succ, List.map_append, List.map_singleton]

structure Peer.Hosting (setup : Setup) (k : Nat) (p : Peer) : Prop where
  i_eq : p.i = k
  indexes_eq : p.indexes = []
  results_eq : p.results.map some = setup.reports k

structure Peer.Ready (setup : Setup) (k : Nat) (p : Peer) : Prop where
  hosting : p.Hosting setup k
  readingIndex_eq : p.readingIndex = true
  point_mem : p.point = .loop ∨ p.point = .exited ∧ setup.maxMessages ≤ k ∨
    p.point = .sending ∧ k < setup.maxMessages

structure Peer.Waiting (setup : Setup) (k : Nat) (p : Peer) : Prop where
  hosting : p.Hosting setup k
  lt : k < setup.maxMessages
  point_mem : p.point = .joining ∨ p.point = .reading ∧ p.readingIndex = false

structure Peer.Answered (setup : Setup) (order : Order) (k : Nat) (p : Peer) : Prop where
  hosting : p.Hosting setup k
  point_eq : p.point = .received
  readingIndex_eq : p.readingIndex = false
  readInt_eq : fibResultOf (setup.fibIndex k) = some (ntohlInt order p.readInt)

structure Peer.Serving (k : Nat) (p : Peer) : Prop where
  i_eq : p.i = k
  results_eq : p.results = []
  readingIndex_eq : p.readingIndex = true

structure Peer.Idle (setup : Setup) (k : Nat) (p : Peer) : Prop where
  serving : p.Serving k
  point_mem : p.point = .loop ∨ p.point = .exited ∧ setup.maxMessages ≤ k ∨
    p.point = .reading ∧ k < setup.maxMessages

structure Peer.Asked (setup : Setup) (order : Order) (k : Nat) (p : Peer) : Prop where
  serving : p.Serving k
  point_eq : p.point = .received
  readInt_eq : ntohlInt order p.readInt = setup.fibIndex k

structure Peer.Replying (setup : Setup) (k : Nat) (p : Peer) : Prop where
  serving : p.Serving k
  point_eq : p.point = .replying
  fibResult_eq : fibResultOf (setup.fibIndex k) = some p.fibResult

theorem Peer.Ready.step (h : p.Ready setup k) (hstep : Peer.Step setup true order p action p') :
    action = .none ∧ p'.Ready setup k ∨
      action = .send (sendInt order (setup.fibIndex k)) ∧ p'.Waiting setup k := by
  obtain ⟨⟨rfl, hindexes, hresults⟩, hreading, hpoint⟩ := h
  cases hstep with
  | create hp hi =>
    exact .inl ⟨rfl, ⟨rfl, hindexes, hresults⟩, hreading, .inr (.inr ⟨rfl, hi⟩)⟩
  | run hp =>
    have hlt : p.i < setup.maxMessages := by simpa [hp] using hpoint
    exact .inr ⟨rfl, ⟨rfl, hindexes, hresults⟩, hlt, .inl rfl⟩
  | close hp hi =>
    exact .inl ⟨rfl, ⟨rfl, hindexes, hresults⟩, hreading, .inr (.inl ⟨rfl, hi⟩)⟩
  | await hp hi hh => exact absurd hh (by decide)
  | join hp | read _ hp | index _ hp | indexExit hp | reply hp | result hp => simp [hp] at hpoint

theorem Peer.Waiting.step (h : p.Waiting setup k)
    (hstep : Peer.Step setup true order p action p') :
    action = .none ∧ p'.Waiting setup k ∨
      ∃ message, action = .receive message ∧
        ∀ sender fib, fibResultOf (setup.fibIndex k) = some fib →
          message = sendInt sender fib → p'.Answered setup order k := by
  obtain ⟨⟨rfl, hindexes, hresults⟩, hlt, hpoint⟩ := h
  cases hstep with
  | join hp => exact .inl ⟨rfl, ⟨rfl, hindexes, hresults⟩, hlt, .inr ⟨rfl, rfl⟩⟩
  | read message hp =>
    have hreading : p.readingIndex = false := by simpa [hp] using hpoint
    refine .inr ⟨message, rfl, fun sender fib hfib hmessage => ?_⟩
    refine ⟨⟨rfl, hindexes, hresults⟩, rfl, hreading, ?_⟩
    rw [hfib, hmessage, ntohlInt_receiveInt_sendInt]
  | create hp | run hp | await hp | index _ hp | indexExit hp | reply hp | result hp | close hp =>
    simp [hp] at hpoint

theorem Peer.Answered.step (h : p.Answered setup order k)
    (hstep : Peer.Step setup true order p action p') :
    action = .none ∧ p'.Ready setup (k + 1) := by
  obtain ⟨⟨rfl, hindexes, hresults⟩, hpoint, hreading, hfib⟩ := h
  cases hstep with
  | result hp hr =>
    have hreports : (p.results ++ [ntohlInt order p.readInt]).map some =
        setup.reports (p.i + 1) := by
      rw [List.map_append, hresults, setup.reports_succ, hfib]
      rfl
    exact ⟨rfl, ⟨rfl, hindexes, hreports⟩, rfl, .inl rfl⟩
  | index fib hp hr => exact absurd (hr.symm.trans hreading) (by decide)
  | indexExit hp hr => exact absurd (hr.symm.trans hreading) (by decide)
  | create hp | run hp | join hp | await hp | read _ hp | reply hp | close hp =>
    exact absurd (hp.symm.trans hpoint) (by decide)

theorem Peer.Idle.step (h : p.Idle setup k)
    (hstep : Peer.Step setup false order p action p') :
    action = .none ∧ p'.Idle setup k ∨
      ∃ message, action = .receive message ∧
        ∀ sender, message = sendInt sender (setup.fibIndex k) → p'.Asked setup order k := by
  obtain ⟨hserving, hpoint⟩ := h
  cases hstep with
  | await hp hi hh =>
    exact .inl ⟨rfl, ⟨hserving.i_eq, hserving.results_eq, hserving.readingIndex_eq⟩,
      .inr (.inr ⟨rfl, hserving.i_eq ▸ hi⟩)⟩
  | close hp hi =>
    exact .inl ⟨rfl, ⟨hserving.i_eq, hserving.results_eq, hserving.readingIndex_eq⟩,
      .inr (.inl ⟨rfl, hserving.i_eq ▸ hi⟩)⟩
  | read message hp =>
    refine .inr ⟨message, rfl, fun sender hmessage => ?_⟩
    refine ⟨⟨hserving.i_eq, hserving.results_eq, hserving.readingIndex_eq⟩, rfl, ?_⟩
    rw [hmessage, ntohlInt_receiveInt_sendInt]
  | create hp hi hh => exact absurd hh (by decide)
  | run hp | join hp | index _ hp | indexExit hp | reply hp | result hp => simp [hp] at hpoint

theorem Peer.Asked.step (h : p.Asked setup order k) (hk : k < setup.maxMessages)
    (hstep : Peer.Step setup false order p action p') :
    action = .none ∧ p'.Replying setup k := by
  obtain ⟨⟨hi, hresults, hreading⟩, hpoint, hint⟩ := h
  cases hstep with
  | index fib hp hr hf =>
    rw [hint] at hf
    exact ⟨rfl, ⟨hi, hresults, hreading⟩, rfl, hf⟩
  | indexExit hp hr hf =>
    have hsome := fibResultOf_isSome (setup.positive k hk)
    rw [← hint, hf] at hsome
    exact absurd hsome (by decide)
  | result hp hr => exact absurd (hr.symm.trans hreading) (by decide)
  | create hp | run hp | join hp | await hp | read _ hp | reply hp | close hp =>
    exact absurd (hp.symm.trans hpoint) (by decide)

theorem Peer.Replying.step (h : p.Replying setup k)
    (hstep : Peer.Step setup false order p action p') :
    action = .send (sendInt order p.fibResult) ∧ p'.Idle setup (k + 1) := by
  obtain ⟨⟨rfl, hresults, hreading⟩, hpoint, -⟩ := h
  cases hstep with
  | reply hp => exact ⟨rfl, ⟨rfl, hresults, hreading⟩, .inl rfl⟩
  | create hp | run hp | join hp | await hp | read _ hp | index _ hp | indexExit hp | result hp
  | close hp => exact absurd (hp.symm.trans hpoint) (by decide)

section EmptyInbox
variable {outbox inbox' outbox' : List Bytes}

theorem Peer.Waiting.step_of_nil (h : p.Waiting setup k)
    (hstep : Peer.Step setup true order p action p')
    (hmoves : action.Moves [] outbox inbox' outbox') :
    p'.Waiting setup k ∧ inbox' = [] ∧ outbox' = outbox := by
  rcases h.step hstep with ⟨rfl, hwaiting⟩ | ⟨message, rfl, -⟩
  · cases hmoves
    exact ⟨hwaiting, rfl, rfl⟩
  · cases hmoves

theorem Peer.Idle.step_of_nil (h : p.Idle setup k)
    (hstep : Peer.Step setup false order p action p')
    (hmoves : action.Moves [] outbox inbox' outbox') :
    p'.Idle setup k ∧ inbox' = [] ∧ outbox' = outbox := by
  rcases h.step hstep with ⟨rfl, hidle⟩ | ⟨message, rfl, -⟩
  · cases hmoves
    exact ⟨hidle, rfl, rfl⟩
  · cases hmoves

end EmptyInbox

/-- The phases of round `k`, in order; at most one message is in flight. -/
inductive Phase (setup : Setup) : Exchange → Prop
  | calling {k : Nat} {host secondary : Peer} (hhost : host.Ready setup k)
      (hsecondary : secondary.Idle setup k) : Phase setup ⟨host, secondary, [], []⟩
  | called {k : Nat} {host secondary : Peer} (hhost : host.Waiting setup k)
      (hsecondary : secondary.Idle setup k) :
      Phase setup ⟨host, secondary, [sendInt setup.hostOrder (setup.fibIndex k)], []⟩
  | asked {k : Nat} {host secondary : Peer} (hhost : host.Waiting setup k)
      (hsecondary : secondary.Asked setup setup.secondaryOrder k) :
      Phase setup ⟨host, secondary, [], []⟩
  | replying {k : Nat} {host secondary : Peer} (hhost : host.Waiting setup k)
      (hsecondary : secondary.Replying setup k) : Phase setup ⟨host, secondary, [], []⟩
  | replied {k : Nat} {host secondary : Peer} {fib : Int32} (hhost : host.Waiting setup k)
      (hsecondary : secondary.Idle setup (k + 1))
      (hfib : fibResultOf (setup.fibIndex k) = some fib) :
      Phase setup ⟨host, secondary, [], [sendInt setup.secondaryOrder fib]⟩
  | answered {k : Nat} {host secondary : Peer}
      (hhost : host.Answered setup setup.hostOrder k)
      (hsecondary : secondary.Idle setup (k + 1)) : Phase setup ⟨host, secondary, [], []⟩

theorem Phase.start : Phase setup Exchange.start :=
  .calling (k := 0) ⟨⟨rfl, rfl, rfl⟩, rfl, .inl rfl⟩ ⟨⟨rfl, rfl, rfl⟩, .inl rfl⟩

theorem Phase.host_step {x : Exchange} {toSecondary toHost : List Bytes} (h : Phase setup x)
    (hstep : Peer.Step setup true setup.hostOrder x.host action p)
    (hmoves : action.Moves x.toHost x.toSecondary toHost toSecondary) :
    Phase setup ⟨p, x.secondary, toSecondary, toHost⟩ := by
  cases h with
  | calling hhost hsecondary =>
    rcases hhost.step hstep with ⟨rfl, hready⟩ | ⟨rfl, hwaiting⟩
    · cases hmoves
      exact .calling hready hsecondary
    · cases hmoves
      exact .called hwaiting hsecondary
  | called hhost hsecondary =>
    obtain ⟨hwaiting, rfl, rfl⟩ := hhost.step_of_nil hstep hmoves
    exact .called hwaiting hsecondary
  | asked hhost hsecondary =>
    obtain ⟨hwaiting, rfl, rfl⟩ := hhost.step_of_nil hstep hmoves
    exact .asked hwaiting hsecondary
  | replying hhost hsecondary =>
    obtain ⟨hwaiting, rfl, rfl⟩ := hhost.step_of_nil hstep hmoves
    exact .replying hwaiting hsecondary
  | replied hhost hsecondary hfib =>
    rcases hhost.step hstep with ⟨rfl, hwaiting⟩ | ⟨message, rfl, hanswered⟩
    · cases hmoves
      exact .replied hwaiting hsecondary hfib
    · cases hmoves
      exact .answered (hanswered _ _ hfib rfl) hsecondary
  | answered hhost hsecondary =>
    obtain ⟨rfl, hready⟩ := hhost.step hstep
    cases hmoves
    exact .calling hready hsecondary

theorem Phase.secondary_step {x : Exchange} {toSecondary toHost : List Bytes}
    (h : Phase setup x)
    (hstep : Peer.Step setup false setup.secondaryOrder x.secondary action p)
    (hmoves : action.Moves x.toSecondary x.toHost toSecondary toHost) :
    Phase setup ⟨x.host, p, toSecondary, toHost⟩ := by
  cases h with
  | calling hhost hsecondary =>
    obtain ⟨hidle, rfl, rfl⟩ := hsecondary.step_of_nil hstep hmoves
    exact .calling hhost hidle
  | called hhost hsecondary =>
    rcases hsecondary.step hstep with ⟨rfl, hidle⟩ | ⟨message, rfl, hasked⟩
    · cases hmoves
      exact .called hhost hidle
    · cases hmoves
      exact .asked hhost (hasked _ rfl)
  | asked hhost hsecondary =>
    obtain ⟨rfl, hreplying⟩ := hsecondary.step hhost.lt hstep
    cases hmoves
    exact .replying hhost hreplying
  | replying hhost hsecondary =>
    obtain ⟨rfl, hidle⟩ := hsecondary.step hstep
    cases hmoves
    exact .replied hhost hidle hsecondary.fibResult_eq
  | replied hhost hsecondary hfib =>
    obtain ⟨hidle, rfl, rfl⟩ := hsecondary.step_of_nil hstep hmoves
    exact .replied hhost hidle hfib
  | answered hhost hsecondary =>
    obtain ⟨hidle, rfl, rfl⟩ := hsecondary.step_of_nil hstep hmoves
    exact .answered hhost hidle

theorem Phase.of_reachable {x : Exchange}
    (h : Reachable (Exchange.Step setup) Exchange.start x) : Phase setup x := by
  refine h.invariant (Phase setup) (fun s e s' hs hstep => ?_) .start
  cases hstep with
  | host hstep hmoves => exact hs.host_step hstep hmoves
  | secondary hstep hmoves => exact hs.secondary_step hstep hmoves

theorem Phase.hosting {x : Exchange} (h : Phase setup x) : x.host.Hosting setup x.host.i := by
  cases h with
  | calling hhost _ => exact hhost.hosting.i_eq ▸ hhost.hosting
  | called hhost _ | asked hhost _ | replying hhost _ => exact hhost.hosting.i_eq ▸ hhost.hosting
  | replied hhost _ _ => exact hhost.hosting.i_eq ▸ hhost.hosting
  | answered hhost _ => exact hhost.hosting.i_eq ▸ hhost.hosting

theorem Phase.secondary_results {x : Exchange} (h : Phase setup x) : x.secondary.results = [] := by
  cases h with
  | calling _ hsecondary | called _ hsecondary | replied _ hsecondary | answered _ hsecondary =>
    exact hsecondary.serving.results_eq
  | asked _ hsecondary => exact hsecondary.serving.results_eq
  | replying _ hsecondary => exact hsecondary.serving.results_eq

theorem Phase.channels {x : Exchange} (h : Phase setup x)
    (hdone : setup.maxMessages ≤ x.host.i) : x.toSecondary = [] ∧ x.toHost = [] := by
  cases h with
  | calling _ _ | asked _ _ | replying _ _ | answered _ _ => exact ⟨rfl, rfl⟩
  | called hhost _ => exact absurd hhost.lt (hhost.hosting.i_eq ▸ hdone.not_gt)
  | replied hhost _ _ => exact absurd hhost.lt (hhost.hosting.i_eq ▸ hdone.not_gt)

theorem Peer.Hosting.results_getElem? {r : Int32} {j : Nat} (h : p.Hosting setup k)
    (hr : p.results[j]? = some r) : fibResultOf (setup.fibIndex j) = some r := by
  have hmap : (p.results.map some)[j]? = some (some r) := by
    rw [List.getElem?_map, hr]
    rfl
  rw [h.results_eq, Setup.reports, List.getElem?_map] at hmap
  obtain ⟨l, hl, hvalue⟩ := Option.map_eq_some_iff.mp hmap
  obtain ⟨hlt, rfl⟩ := List.getElem?_eq_some_iff.mp hl
  rwa [List.getElem_range] at hvalue

theorem Peer.Hosting.results_length (h : p.Hosting setup k) : p.results.length = k := by
  have hlength := congrArg List.length h.results_eq
  simpa [Setup.reports] using hlength

theorem Peer.Waiting.enabled (h : p.Waiting setup k) :
    (∃ p', Peer.Step setup true order p .none p') ∨
      ∀ message, ∃ p', Peer.Step setup true order p (.receive message) p' := by
  rcases h.point_mem with hp | ⟨hp, -⟩
  · exact .inl ⟨_, .join hp⟩
  · exact .inr fun message => ⟨_, .read message hp⟩

theorem Peer.Idle.enabled (h : p.Idle setup k) :
    (∃ p', Peer.Step setup false order p .none p') ∨
      (p.point = .reading ∧ k < setup.maxMessages ∧
        ∀ message, ∃ p', Peer.Step setup false order p (.receive message) p') ∨
      p.point = .exited ∧ setup.maxMessages ≤ k := by
  rcases h.point_mem with hp | hp | ⟨hp, hk⟩
  · rcases Nat.lt_or_ge p.i setup.maxMessages with hi | hi
    · exact .inl ⟨_, .await hp hi rfl⟩
    · exact .inl ⟨_, .close hp hi⟩
  · exact .inr (.inr hp)
  · exact .inr (.inl ⟨hp, hk, fun message => ⟨_, .read message hp⟩⟩)

theorem Peer.Ready.enabled (h : p.Ready setup k) :
    (∃ action p', Peer.Step setup true order p action p' ∧ ∀ message, action ≠ .receive message) ∨
      p.point = .exited ∧ setup.maxMessages ≤ k := by
  rcases h.point_mem with hp | hp | ⟨hp, -⟩
  · rcases Nat.lt_or_ge p.i setup.maxMessages with hi | hi
    · exact .inl ⟨_, _, .create hp hi rfl, nofun⟩
    · exact .inl ⟨_, _, .close hp hi, nofun⟩
  · exact .inr hp
  · exact .inl ⟨_, _, .run hp, nofun⟩

/-- No phase is a deadlock: the message a peer waits for is on its way, or the
other peer can move. -/
theorem Phase.progress {x : Exchange} (h : Phase setup x) :
    (x.host.point = .exited ∧ x.secondary.point = .exited) ∨
      ∃ e x', Exchange.Step setup x e x' := by
  cases h with
  | calling hhost hsecondary =>
    rcases hhost.enabled with ⟨action, p', hstep, hsend⟩ | ⟨hexited, hdone⟩
    · cases action with
      | none => exact .inr ⟨_, _, .host hstep .none⟩
      | send message => exact .inr ⟨_, _, .host hstep .send⟩
      | receive message => exact absurd rfl (hsend message)
    · rcases hsecondary.enabled with ⟨p', hstep⟩ | ⟨-, hlt, -⟩ | ⟨hfinished, -⟩
      · exact .inr ⟨_, _, .secondary hstep .none⟩
      · exact absurd hlt hdone.not_gt
      · exact .inl ⟨hexited, hfinished⟩
  | called hhost hsecondary =>
    rcases hsecondary.enabled with ⟨p', hstep⟩ | ⟨-, -, hread⟩ | ⟨-, hdone⟩
    · exact .inr ⟨_, _, .secondary hstep .none⟩
    · obtain ⟨p', hstep⟩ := hread (sendInt setup.hostOrder (setup.fibIndex _))
      exact .inr ⟨_, _, .secondary hstep .receive⟩
    · exact absurd hhost.lt hdone.not_gt
  | asked hhost hsecondary =>
    obtain ⟨hserving, hp, hint⟩ := hsecondary
    obtain ⟨fib, hfib⟩ := Option.isSome_iff_exists.mp
      (fibResultOf_isSome (setup.positive _ hhost.lt))
    exact .inr ⟨_, _, .secondary (.index fib hp hserving.readingIndex_eq (hint ▸ hfib)) .none⟩
  | replying hhost hsecondary =>
    exact .inr ⟨_, _, .secondary (.reply hsecondary.point_eq) .send⟩
  | replied hhost hsecondary hfib =>
    rcases hhost.enabled with ⟨p', hstep⟩ | hread
    · exact .inr ⟨_, _, .host hstep .none⟩
    · obtain ⟨p', hstep⟩ := hread (sendInt setup.secondaryOrder _)
      exact .inr ⟨_, _, .host hstep .receive⟩
  | answered hhost hsecondary =>
    exact .inr ⟨_, _, .host (.result hhost.point_eq hhost.readingIndex_eq) .none⟩

/-- Every result the host reports is the one of the index it sent in that round,
each peer stays in its own branch, and finished peers leave no message behind. -/
theorem exchange_lockStep {setup : Setup} {x : Exchange}
    (h : Reachable (Exchange.Step setup) Exchange.start x) :
    (∀ k r, x.host.results[k]? = some r → fibResultOf (setup.fibIndex k) = some r) ∧
      x.host.indexes = [] ∧ x.secondary.results = [] ∧
      (x.host.i = setup.maxMessages → x.secondary.i = setup.maxMessages →
        x.host.results.length = setup.maxMessages ∧ x.toSecondary = [] ∧ x.toHost = []) := by
  have hphase := Phase.of_reachable h
  have hhost := hphase.hosting
  refine ⟨fun k r => hhost.results_getElem?, hhost.indexes_eq, hphase.secondary_results, ?_⟩
  intro hdone _
  exact ⟨hhost.results_length.trans hdone, hphase.channels hdone.ge⟩

def oneRound : Setup := ⟨.little, .big, 1, fun _ => 5, fun _ _ => by decide⟩

theorem exchange_lockStep_oneRound :
    ∃ x : Exchange, Reachable (Exchange.Step oneRound) Exchange.start x ∧
      x.host.results = [8] ∧ x.host.i = 1 ∧ x.secondary.i = 1 ∧
      (∀ k r, x.host.results[k]? = some r → fibResultOf (oneRound.fibIndex k) = some r) ∧
        x.host.indexes = [] ∧ x.secondary.results = [] ∧
        (x.host.i = oneRound.maxMessages → x.secondary.i = oneRound.maxMessages →
          x.host.results.length = oneRound.maxMessages ∧ x.toSecondary = [] ∧ x.toHost = []) := by
  have hrun : Reachable (Exchange.Step oneRound) Exchange.start _ :=
    .head (.host (.create rfl (by decide) rfl) .none) <| .head (.host (.run rfl) .send) <|
    .head (.host (.join rfl) .none) <| .head (.secondary (.await rfl (by decide) rfl) .none) <|
    .head (.secondary (.read _ rfl) .receive) <|
    .head (.secondary (.index 8 rfl rfl (by decide)) .none) <|
    .head (.secondary (.reply rfl) .send) <| .head (.host (.read _ rfl) .receive) <|
    .head (.host (.result rfl rfl) .none) <| .refl _
  refine ⟨_, hrun, ?_, ?_, ?_, exchange_lockStep hrun⟩
  · decide
  · rfl
  · rfl

end Netsvc.CSocketApp
