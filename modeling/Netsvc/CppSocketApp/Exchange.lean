import Netsvc.CppSocketApp.Fibonacci
import Netsvc.Library.ByteOrder
import Netsvc.Library.RequestReply

/-! The message loop of `host.cpp`, the same on both sides, and the calls it carries
out. A channel each way keeps the order of the messages and delivers each whole. -/
namespace Netsvc.CppSocketApp
open Netsvc.Library.ByteOrder Netsvc.Library.RequestReply Netsvc.Library.Transition

abbrev Bytes := List UInt8

/-- What `write_data` sends: the bytes of the `int` as they are in memory. -/
def writeData (order : Order) (data : Int32) : Bytes := order.bytes data.toUInt32

def readData (order : Order) (buffer : Bytes) : Int32 := (order.word buffer).toInt32

@[simp] theorem readData_writeData (order : Order) (data : Int32) :
    readData order (writeData order data) = data := by
  unfold readData writeData
  rw [Order.word_bytes, Int32.toInt32_toUInt32]

/-- `fibInput` is what `run` draws in each round, and `depth` the calls of `fibonacci`
the stack has room for. -/
structure Setup where
  hostOrder : Order
  secondaryOrder : Order
  fibInput : ℕ → Fin 30
  depth : ℕ
  deepEnough : 30 ≤ depth

/-- Where `main` is in its loop. It waits for the thread `run` to end before it reads. -/
inductive Point
  | loop
  | reading
  | received
  | replying
  | exited
  deriving DecidableEq

structure Peer where
  point : Point
  i : ℕ
  readIndex : Bool
  fibNumb : Int32
  results : List Int32

def Peer.start (fibNumb : Int32) : Peer := ⟨.loop, 0, true, fibNumb, []⟩

inductive Action
  | none
  | send (message : Bytes)
  | receive (message : Bytes)
  | receiveEnd

/-- The steps of `main` with `host_order` 1 and with 2. The other process is `gone`
once it has ended. -/
inductive Peer.Step (setup : Setup) (order : Order) (gone : Prop) :
    Bool → Peer → Action → Peer → Prop
  | run {i : ℕ} {readIndex : Bool} {fibNumb : Int32} {results : List Int32} (hi : i < 10) :
      Step setup order gone true ⟨.loop, i, readIndex, fibNumb, results⟩
        (.send (writeData order (Int32.ofNat (setup.fibInput i))))
        ⟨.reading, i, false, fibNumb, results⟩
  | await {i : ℕ} {readIndex : Bool} {fibNumb : Int32} {results : List Int32} (hi : i < 10) :
      Step setup order gone false ⟨.loop, i, readIndex, fibNumb, results⟩ .none
        ⟨.reading, i, readIndex, fibNumb, results⟩
  | read {hosting readIndex : Bool} {i : ℕ} {fibNumb : Int32} {results : List Int32}
      (message : Bytes) :
      Step setup order gone hosting ⟨.reading, i, readIndex, fibNumb, results⟩ (.receive message)
        ⟨.received, i, readIndex, readData order message, results⟩
  -- `recv` fills nothing in, and the buffer is not initialised
  | readEnd {hosting readIndex : Bool} {i : ℕ} {fibNumb : Int32} {results : List Int32}
      (garbage : Int32) (hgone : gone) :
      Step setup order gone hosting ⟨.reading, i, readIndex, fibNumb, results⟩ .receiveEnd
        ⟨.received, i, readIndex, garbage, results⟩
  | index {hosting : Bool} {i : ℕ} {fibNumb : Int32} {results : List Int32} (fib : Int32)
      (hfib : fibonacci setup.depth fibNumb = some fib) :
      Step setup order gone hosting ⟨.received, i, true, fibNumb, results⟩ .none
        ⟨.replying, i, true, fib, results⟩
  -- the recursion runs out of stack
  | overflow {hosting : Bool} {i : ℕ} {fibNumb : Int32} {results : List Int32}
      (hfib : fibonacci setup.depth fibNumb = none) :
      Step setup order gone hosting ⟨.received, i, true, fibNumb, results⟩ .none
        ⟨.exited, i, true, fibNumb, results⟩
  | reply {hosting readIndex : Bool} {i : ℕ} {fibNumb : Int32} {results : List Int32} :
      Step setup order gone hosting ⟨.replying, i, readIndex, fibNumb, results⟩
        (.send (writeData order fibNumb)) ⟨.loop, i + 1, readIndex, fibNumb, results⟩
  | result {hosting : Bool} {i : ℕ} {fibNumb : Int32} {results : List Int32} :
      Step setup order gone hosting ⟨.received, i, false, fibNumb, results⟩ .none
        ⟨.loop, i + 1, true, fibNumb, results ++ [fibNumb]⟩
  | close {hosting readIndex : Bool} {i : ℕ} {fibNumb : Int32} {results : List Int32}
      (hi : 10 ≤ i) :
      Step setup order gone hosting ⟨.loop, i, readIndex, fibNumb, results⟩ .none
        ⟨.exited, i, readIndex, fibNumb, results⟩
  -- `SIGPIPE` ends a process that sends to one that is gone
  | runPipe {i : ℕ} {readIndex : Bool} {fibNumb : Int32} {results : List Int32} (hi : i < 10)
      (hgone : gone) :
      Step setup order gone true ⟨.loop, i, readIndex, fibNumb, results⟩ .none
        ⟨.exited, i, readIndex, fibNumb, results⟩
  | replyPipe {hosting readIndex : Bool} {i : ℕ} {fibNumb : Int32} {results : List Int32}
      (hgone : gone) :
      Step setup order gone hosting ⟨.replying, i, readIndex, fibNumb, results⟩ .none
        ⟨.exited, i, readIndex, fibNumb, results⟩

inductive Action.Moves : Action → List Bytes → List Bytes → List Bytes → List Bytes → Prop
  | none {inbox outbox : List Bytes} : Moves .none inbox outbox inbox outbox
  | send {inbox outbox : List Bytes} {message : Bytes} :
      Moves (.send message) inbox outbox inbox (outbox ++ [message])
  | receive {inbox outbox : List Bytes} {message : Bytes} :
      Moves (.receive message) (message :: inbox) outbox inbox outbox
  | receiveEnd {outbox : List Bytes} : Moves .receiveEnd [] outbox [] outbox

structure Exchange where
  host : Peer
  secondary : Peer
  toSecondary : List Bytes
  toHost : List Bytes

/-- `fib_numb` is not initialised. -/
def Exchange.start (hostNumb secondaryNumb : Int32) : Exchange :=
  ⟨.start hostNumb, .start secondaryNumb, [], []⟩

inductive Side
  | host
  | secondary

inductive Exchange.Step (setup : Setup) : Exchange → Side × Action → Exchange → Prop
  | host {x : Exchange} {action : Action} {p : Peer} {toSecondary toHost : List Bytes}
      (hstep : Peer.Step setup setup.hostOrder (x.secondary.point = .exited) true x.host action p)
      (hmoves : action.Moves x.toHost x.toSecondary toHost toSecondary) :
      Step setup x (.host, action) ⟨p, x.secondary, toSecondary, toHost⟩
  | secondary {x : Exchange} {action : Action} {p : Peer} {toSecondary toHost : List Bytes}
      (hstep : Peer.Step setup setup.secondaryOrder (x.host.point = .exited) false x.secondary
        action p)
      (hmoves : action.Moves x.toSecondary x.toHost toSecondary toHost) :
      Step setup x (.secondary, action) ⟨x.host, p, toSecondary, toHost⟩

namespace Setup
variable (setup : Setup)

def request (k : ℕ) : Int32 := Int32.ofNat (setup.fibInput k)

def toSecondary (data : Int32) : Int32 :=
  readData setup.secondaryOrder (writeData setup.hostOrder data)

def toHost (data : Int32) : Int32 :=
  readData setup.hostOrder (writeData setup.secondaryOrder data)

/-- What the exchange is for: the host asks for ten Fibonacci numbers. -/
def service : Service Int32 Int32 where
  rounds := 10
  request := setup.request
  answer index := (fibonacci setup.depth (setup.toSecondary index)).map setup.toHost

end Setup

def Idle (point : Point) (k : ℕ) : Prop :=
  point = .loop ∨ point = .reading ∧ k < 10 ∨ point = .exited ∧ 10 ≤ k

theorem Idle.le_of_exited {point : Point} {k : ℕ} (h : Idle point k) (hexited : point = .exited) :
    10 ≤ k := by
  subst hexited
  simpa [Idle] using h

inductive Abandoned : Peer → ℕ → Prop
  | loop {i : ℕ} {n : Int32} {results : List Int32} :
      Abandoned ⟨.loop, i, true, n, results⟩ i
  | reading {i : ℕ} {n : Int32} {results : List Int32} (hi : i < 10) :
      Abandoned ⟨.reading, i, false, n, results⟩ (i + 1)
  | received {i : ℕ} {n : Int32} {results : List Int32} (hi : i < 10) :
      Abandoned ⟨.received, i, false, n, results⟩ (i + 1)
  | exited {i : ℕ} {n : Int32} {results : List Int32} :
      Abandoned ⟨.exited, i, true, n, results⟩ i

inductive Phase (setup : Setup) : Exchange → Calls Int32 → Prop
  | calling {h s : Point} {k : ℕ} {n m : Int32} {served results : List Int32}
      (hhost : h = .loop ∨ h = .exited ∧ 10 ≤ k) (hidle : Idle s k)
      (hresults : results.length = k) (hserved : served.length = k) :
      Phase setup ⟨⟨h, k, true, n, results⟩, ⟨s, k, true, m, []⟩, [], []⟩ ⟨k, served, results⟩
  | called {s : Point} {k : ℕ} {n m : Int32} {served results : List Int32} (hk : k < 10)
      (hidle : Idle s k) (hresults : results.length = k) (hserved : served.length = k) :
      Phase setup ⟨⟨.reading, k, false, n, results⟩, ⟨s, k, true, m, []⟩,
        [writeData setup.hostOrder (setup.request k)], []⟩ ⟨k + 1, served, results⟩
  | asked {k : ℕ} {n : Int32} {served results : List Int32} (hk : k < 10)
      (hresults : results.length = k) (hserved : served.length = k) :
      Phase setup ⟨⟨.reading, k, false, n, results⟩,
        ⟨.received, k, true, setup.toSecondary (setup.request k), []⟩, [], []⟩
        ⟨k + 1, served, results⟩
  | replying {k : ℕ} {n fib : Int32} {served results : List Int32} (hk : k < 10)
      (hfib : fibonacci setup.depth (setup.toSecondary (setup.request k)) = some fib)
      (hresults : results.length = k) (hserved : served.length = k) :
      Phase setup ⟨⟨.reading, k, false, n, results⟩, ⟨.replying, k, true, fib, []⟩, [], []⟩
        ⟨k + 1, served, results⟩
  | replied {s : Point} {k : ℕ} {n m fib : Int32} {served results : List Int32} (hk : k < 10)
      (hidle : Idle s (k + 1)) (hresults : results.length = k) (hserved : served.length = k) :
      Phase setup ⟨⟨.reading, k, false, n, results⟩, ⟨s, k + 1, true, m, []⟩, [],
        [writeData setup.secondaryOrder fib]⟩ ⟨k + 1, served ++ [setup.toHost fib], results⟩
  | answered {s : Point} {k : ℕ} {m reply : Int32} {served results : List Int32} (hk : k < 10)
      (hidle : Idle s (k + 1)) (hresults : results.length = k) (hserved : served.length = k) :
      Phase setup ⟨⟨.received, k, false, reply, results⟩, ⟨s, k + 1, true, m, []⟩, [], []⟩
        ⟨k + 1, served ++ [reply], results⟩
  | failed {h : Peer} {asked k : ℕ} {m : Int32} {served : List Int32} {toSecondary : List Bytes}
      (hhost : Abandoned h asked) (hk : k < 10) (hle : k ≤ h.results.length)
      (hfailed : setup.service.answer (setup.service.request k) = none)
      (hresults : h.results.length = h.i) (hserved : served.length = k) :
      Phase setup ⟨h, ⟨.exited, k, true, m, []⟩, toSecondary, []⟩ ⟨asked, served, h.results⟩

variable {setup : Setup} {x : Exchange} {c : Calls Int32} {action : Action} {p : Peer}
  {toSecondary toHost : List Bytes}

theorem Phase.host (h : Phase setup x c)
    (hstep : Peer.Step setup setup.hostOrder (x.secondary.point = .exited) true x.host action p)
    (hmoves : action.Moves x.toHost x.toSecondary toHost toSecondary) :
    ∃ d, Reachable setup.service.Step c d ∧
      Phase setup ⟨p, x.secondary, toSecondary, toHost⟩ d := by
  cases h with
  | @calling h s k n m served results hhost hidle hresults hserved =>
    cases hstep with
    | run hi =>
      cases hmoves
      exact ⟨_, reachable_of_step (.ask hi hresults), .called hi hidle hresults hserved⟩
    | close hi =>
      cases hmoves
      exact ⟨_, .refl _, .calling (.inr ⟨rfl, hi⟩) hidle hresults hserved⟩
    | runPipe hi hgone => exact absurd hi (Nat.not_lt.mpr (hidle.le_of_exited hgone))
    | _ => simp at hhost
  | called hk hidle =>
    cases hstep with
    | read => cases hmoves
    | readEnd _ hgone => exact absurd hk (Nat.not_lt.mpr (hidle.le_of_exited hgone))
  | asked | replying =>
    cases hstep with
    | read => cases hmoves
    | readEnd _ hgone => cases hgone
  | @replied s k n m fib served results hk hidle hresults hserved =>
    cases hstep with
    | read message =>
      cases hmoves
      exact ⟨_, .refl _, .answered hk hidle hresults hserved⟩
    | readEnd => cases hmoves
  | @answered s k m reply served results hk hidle hresults hserved =>
    cases hstep with
    | result =>
      cases hmoves
      have hplace : (served ++ [reply])[results.length]? = some reply := by
        rw [hresults, ← hserved]
        exact List.getElem?_concat_length
      refine ⟨_, reachable_of_step (.report reply hplace), .calling (.inl rfl) hidle ?_ ?_⟩
      · rw [List.length_append, hresults, List.length_singleton]
      · rw [List.length_append, hserved, List.length_singleton]
  | @failed h asked k m served inbox hhost hk hle hfailed hresults hserved =>
    cases hhost with
    | @loop i n results =>
      cases hstep with
      | run hi =>
        cases hmoves
        exact ⟨_, reachable_of_step (.ask hi hresults),
          .failed (.reading hi) hk hle hfailed hresults hserved⟩
      | close | runPipe =>
        cases hmoves
        exact ⟨_, .refl _, .failed .exited hk hle hfailed hresults hserved⟩
    | reading hi =>
      cases hstep with
      | read => cases hmoves
      | readEnd =>
        cases hmoves
        exact ⟨_, .refl _, .failed (.received hi) hk hle hfailed hresults hserved⟩
    | @received i n results hi =>
      cases hstep with
      | result =>
        cases hmoves
        have hopen : results.length < i + 1 := Nat.lt_succ_of_le hresults.le
        have hlength : (results ++ [n]).length = i + 1 := by
          rw [List.length_append, hresults, List.length_singleton]
        refine ⟨_, reachable_of_step (.guess n hopen (hserved.trans_le hle) ⟨k, hle, hfailed⟩), ?_⟩
        refine .failed .loop hk ?_ hfailed hlength hserved
        rw [List.length_append]
        exact Nat.le_succ_of_le hle
    | exited => cases hstep

theorem Phase.secondary (h : Phase setup x c)
    (hstep : Peer.Step setup setup.secondaryOrder (x.host.point = .exited) false x.secondary
      action p)
    (hmoves : action.Moves x.toSecondary x.toHost toSecondary toHost) :
    ∃ d, Reachable setup.service.Step c d ∧
      Phase setup ⟨x.host, p, toSecondary, toHost⟩ d := by
  cases h with
  | @calling h s k n m served results hhost hidle hresults hserved =>
    cases hstep with
    | await hi =>
      cases hmoves
      exact ⟨_, .refl _, .calling hhost (.inr (.inl ⟨rfl, hi⟩)) hresults hserved⟩
    | close hi =>
      cases hmoves
      exact ⟨_, .refl _, .calling hhost (.inr (.inr ⟨rfl, hi⟩)) hresults hserved⟩
    | read => cases hmoves
    | readEnd _ hgone =>
      obtain rfl : h = .exited := hgone
      have hk : k < 10 := by simpa [Idle] using hidle
      have hdone : 10 ≤ k := by simpa using hhost
      exact absurd hk (Nat.not_lt.mpr hdone)
    | _ => simp [Idle] at hidle
  | @called s k n m served results hk hidle hresults hserved =>
    cases hstep with
    | await hi =>
      cases hmoves
      exact ⟨_, .refl _, .called hk (.inr (.inl ⟨rfl, hi⟩)) hresults hserved⟩
    | close hi => exact absurd hk (Nat.not_lt.mpr hi)
    | read message =>
      cases hmoves
      exact ⟨_, .refl _, .asked hk hresults hserved⟩
    | readEnd => cases hmoves
    | _ => simp [Idle] at hidle
  | @asked k n served results hk hresults hserved =>
    cases hstep with
    | index fib hfib =>
      cases hmoves
      exact ⟨_, .refl _, .replying hk hfib hresults hserved⟩
    | overflow hfib =>
      cases hmoves
      have hfailed : setup.service.answer (setup.service.request k) = none :=
        Option.map_eq_none_iff.mpr hfib
      exact ⟨_, .refl _, .failed (.reading hk) hk hresults.ge hfailed hresults hserved⟩
  | @replying k n fib served results hk hfib hresults hserved =>
    cases hstep with
    | reply =>
      cases hmoves
      have hanswer : setup.service.answer (setup.service.request served.length) =
          some (setup.toHost fib) := by
        rw [hserved]
        exact congrArg (Option.map setup.toHost) hfib
      refine ⟨_, reachable_of_step (.serve _ ?_ hanswer), .replied hk (.inl rfl) hresults hserved⟩
      exact Nat.lt_succ_of_le hserved.le
    | replyPipe hgone => cases hgone
  | @replied s k n m fib served results hk hidle hresults hserved =>
    cases hstep with
    | await hi =>
      cases hmoves
      exact ⟨_, .refl _, .replied hk (.inr (.inl ⟨rfl, hi⟩)) hresults hserved⟩
    | close hi =>
      cases hmoves
      exact ⟨_, .refl _, .replied hk (.inr (.inr ⟨rfl, hi⟩)) hresults hserved⟩
    | read => cases hmoves
    | readEnd _ hgone => cases hgone
    | _ => simp [Idle] at hidle
  | @answered s k m reply served results hk hidle hresults hserved =>
    cases hstep with
    | await hi =>
      cases hmoves
      exact ⟨_, .refl _, .answered hk (.inr (.inl ⟨rfl, hi⟩)) hresults hserved⟩
    | close hi =>
      cases hmoves
      exact ⟨_, .refl _, .answered hk (.inr (.inr ⟨rfl, hi⟩)) hresults hserved⟩
    | read => cases hmoves
    | readEnd _ hgone => cases hgone
    | _ => simp [Idle] at hidle
  | failed => cases hstep

theorem exchange_simulates (setup : Setup) :
    Simulation (Exchange.Step setup) setup.service.Step (Phase setup) where
  match_step := by
    rintro x c e y h hstep
    cases hstep with
    | host hstep hmoves => exact h.host hstep hmoves
    | secondary hstep hmoves => exact h.secondary hstep hmoves

theorem Phase.start (setup : Setup) (hostNumb secondaryNumb : Int32) :
    Phase setup (.start hostNumb secondaryNumb) .start :=
  .calling (.inl rfl) (.inl rfl) rfl rfl

end Netsvc.CppSocketApp
