import Netsvc.CSocketApp.Fibonacci
import Netsvc.CSocketApp.Networking
import Netsvc.Library.Transition

/-! `main.c`: both sides run the same message loop, with `hosting` set on one of
them. A channel each way keeps the order of the messages and delivers each whole. -/
namespace Netsvc.CSocketApp
open Netsvc.Library.ByteOrder Netsvc.Library.Transition

/-- `fib_result = fibonacci(read_int)`: the `int` is widened to `unsigned long`,
and the result narrowed. -/
def fibResultOf (readInt : Int32) : Option Int32 :=
  (fibonacci readInt.toInt64.toUInt64).map fun fib => fib.toUInt32.toInt32

theorem fibResultOf_eq_none_iff {readInt : Int32} : fibResultOf readInt = none ↔ readInt = 0 := by
  unfold fibResultOf
  rw [Option.map_eq_none_iff, fibonacci_eq_none_iff]
  constructor
  · intro hzero
    have hwide : readInt.toInt64 = 0 := congrArg UInt64.toInt64 hzero
    apply Int32.toInt_inj.mp
    rw [← Int32.toInt_toInt64, hwide]
    rfl
  · rintro rfl
    rfl

/-- Where `main` is between two of its calls. In `sending` and `joining` it waits
in `pthread_join`, for the thread `run` to write and to end. -/
inductive Point
  | loop
  | sending
  | joining
  | reading
  | received
  | replying
  | exited
  deriving DecidableEq

/-- `indexes` and `results` are the numbers reported in the two branches. -/
structure Peer where
  point : Point
  i : Nat
  readingIndex : Bool
  readInt : Int32
  fibResult : Int32
  indexes : List Int32
  results : List Int32

def Peer.start : Peer := ⟨.loop, 0, true, 0, 0, [], []⟩

structure Setup where
  hostOrder : Order
  secondaryOrder : Order
  maxMessages : Nat
  fibIndex : Nat → Int32
  positive : ∀ k < maxMessages, 1 ≤ fibIndex k

inductive Action
  | none
  | send (message : Bytes)
  | receive (message : Bytes)

inductive Peer.Step (setup : Setup) (hosting : Bool) (order : Order) : Peer → Action → Peer → Prop
  | create {p : Peer} (hp : p.point = .loop) (hi : p.i < setup.maxMessages)
      (hh : hosting = true) : Step setup hosting order p .none { p with point := .sending }
  | run {p : Peer} (hp : p.point = .sending) :
      Step setup hosting order p (.send (sendInt order (setup.fibIndex p.i)))
        { p with point := .joining }
  | join {p : Peer} (hp : p.point = .joining) :
      Step setup hosting order p .none { p with point := .reading, readingIndex := false }
  | await {p : Peer} (hp : p.point = .loop) (hi : p.i < setup.maxMessages)
      (hh : hosting = false) : Step setup hosting order p .none { p with point := .reading }
  | read {p : Peer} (message : Bytes) (hp : p.point = .reading) :
      Step setup hosting order p (.receive message)
        { p with point := .received, readInt := receiveInt order p.readInt message }
  | index {p : Peer} (fib : Int32) (hp : p.point = .received) (hr : p.readingIndex = true)
      (hf : fibResultOf (ntohlInt order p.readInt) = some fib) :
      Step setup hosting order p .none
        { p with
          point := .replying, readInt := ntohlInt order p.readInt, fibResult := fib
          indexes := p.indexes ++ [ntohlInt order p.readInt] }
  -- `fibonacci` exits on index 0
  | indexExit {p : Peer} (hp : p.point = .received) (hr : p.readingIndex = true)
      (hf : fibResultOf (ntohlInt order p.readInt) = none) :
      Step setup hosting order p .none
        { p with
          point := .exited, readInt := ntohlInt order p.readInt
          indexes := p.indexes ++ [ntohlInt order p.readInt] }
  | reply {p : Peer} (hp : p.point = .replying) :
      Step setup hosting order p (.send (sendInt order p.fibResult))
        { p with point := .loop, i := p.i + 1 }
  | result {p : Peer} (hp : p.point = .received) (hr : p.readingIndex = false) :
      Step setup hosting order p .none
        { p with
          point := .loop, i := p.i + 1, readingIndex := true
          readInt := ntohlInt order p.readInt
          results := p.results ++ [ntohlInt order p.readInt] }
  | close {p : Peer} (hp : p.point = .loop) (hi : setup.maxMessages ≤ p.i) :
      Step setup hosting order p .none { p with point := .exited }

inductive Action.Moves : Action → List Bytes → List Bytes → List Bytes → List Bytes → Prop
  | none {inbox outbox : List Bytes} : Moves .none inbox outbox inbox outbox
  | send {inbox outbox : List Bytes} {message : Bytes} :
      Moves (.send message) inbox outbox inbox (outbox ++ [message])
  | receive {inbox outbox : List Bytes} {message : Bytes} :
      Moves (.receive message) (message :: inbox) outbox inbox outbox

structure Exchange where
  host : Peer
  secondary : Peer
  toSecondary : List Bytes
  toHost : List Bytes

def Exchange.start : Exchange := ⟨.start, .start, [], []⟩

inductive Side
  | host
  | secondary

inductive Exchange.Step (setup : Setup) : Exchange → Side × Action → Exchange → Prop
  | host {x : Exchange} {action : Action} {p : Peer} {toSecondary toHost : List Bytes}
      (hstep : Peer.Step setup true setup.hostOrder x.host action p)
      (hmoves : action.Moves x.toHost x.toSecondary toHost toSecondary) :
      Step setup x (.host, action) ⟨p, x.secondary, toSecondary, toHost⟩
  | secondary {x : Exchange} {action : Action} {p : Peer} {toSecondary toHost : List Bytes}
      (hstep : Peer.Step setup false setup.secondaryOrder x.secondary action p)
      (hmoves : action.Moves x.toSecondary x.toHost toSecondary toHost) :
      Step setup x (.secondary, action) ⟨x.host, p, toSecondary, toHost⟩

end Netsvc.CSocketApp
