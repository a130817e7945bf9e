import Mathlib.Data.List.Induction
import Mathlib.Tactic.SplitIfs
import Netsvc.Library.Fibonacci
import Netsvc.Library.Transition

/-! `FibSocket.java`: the server's timer and main threads and the client, joined
by a channel of bytes each way. Each step is one access to a channel or to the
shared flag `readIndex`. -/
namespace Netsvc.JavaSocketApp
open Netsvc.Library.Fibonacci Netsvc.Library.Transition

def fibLoop : Nat → Int32 → Int32 → Int32
  | 0, _, b => b
  | count + 1, a, b => fibLoop count b (a + b)

/-- `fib` below the largest `int`, where `i <= n` would never become false. -/
def fib (n : Int32) : Int32 := if n = 0 then 0 else fibLoop (n.toInt - 1).toNat 0 1

theorem fibonacciLike_ofNat : FibonacciLike fun n => Int32.ofNat (Nat.fib n) :=
  fibonacciLike_fib.map Int32.ofNat Int32.ofNat_add

theorem fibLoop_eq {f : ℕ → Int32} (hf : FibonacciLike f) (count n : ℕ) :
    fibLoop count (f n) (f (n + 1)) = f (n + 1 + count) := by
  induction count generalizing n with
  | zero => rfl
  | succ count ih =>
    have hnext := ih (n + 1)
    rw [hf n] at hnext
    unfold fibLoop
    rw [hnext]
    congr 1
    omega

theorem fib_eq {n : Int32} (h : 0 ≤ n) : fib n = Int32.ofNat (Nat.fib n.toNatClampNeg) := by
  have hcast : n.toInt = n.toNatClampNeg := Int32.toInt_eq_toNatClampNeg h
  unfold fib
  split_ifs with hzero
  · rw [hzero]
    rfl
  · have hpos : n.toNatClampNeg ≠ 0 := by
      intro hn
      apply hzero
      rw [← Int32.ofNat_toNatClampNeg n h, hn]
      rfl
    refine (fibLoop_eq fibonacciLike_ofNat (n.toInt - 1).toNat 0).trans ?_
    congr 2
    omega

/-- The loop of `fib` with its counter; `none` when `rounds` do not end it. -/
def fibFor : Nat → Int32 → Int32 → Int32 → Int32 → Option Int32
  | 0, _, _, _, _ => none
  | rounds + 1, n, i, a, b => if i ≤ n then fibFor rounds n (i + 1) b (a + b) else some b

def fibWithin (rounds : Nat) (n : Int32) : Option Int32 :=
  if n = 0 then some 0 else fibFor rounds n 2 0 1

theorem toInt_add_one {i n : Int32} (hi : 0 ≤ i.toInt) (hle : i.toInt ≤ n.toInt)
    (hmax : n.toInt < 2 ^ 31 - 1) : (i + 1).toInt = i.toInt + 1 := by
  rw [Int32.toInt_add]
  apply Int.bmod_eq_of_le
  · change -(2 ^ 32 / 2) ≤ i.toInt + 1
    omega
  · change i.toInt + 1 < (2 ^ 32 + 1) / 2
    omega

theorem fibFor_eq {n : Int32} (hmax : n.toInt < 2 ^ 31 - 1) {rounds count : ℕ} {i : Int32}
    (hi : 0 ≤ i.toInt) (hcount : i.toInt + count = n.toInt + 1) (hrounds : count < rounds)
    (a b : Int32) : fibFor rounds n i a b = some (fibLoop count a b) := by
  induction count generalizing rounds i a b with
  | zero =>
    obtain ⟨rounds, rfl⟩ := Nat.exists_eq_succ_of_ne_zero (Nat.ne_of_gt hrounds)
    have hend : ¬i ≤ n := by
      rw [Int32.le_iff_toInt_le]
      omega
    unfold fibFor
    rw [if_neg hend]
    rfl
  | succ count ih =>
    obtain ⟨rounds, rfl⟩ := Nat.exists_eq_succ_of_ne_zero (Nat.ne_of_gt (Nat.zero_lt_of_lt hrounds))
    have hle : i.toInt ≤ n.toInt := by omega
    have hnext := toInt_add_one hi hle hmax
    unfold fibFor
    rw [if_pos (Int32.le_iff_toInt_le.mpr hle)]
    exact ih (by omega) (by omega) (by omega) b (a + b)

theorem fibWithin_eq {n : Int32} (h : 0 ≤ n) (hmax : n.toInt < 2 ^ 31 - 1) {rounds : ℕ}
    (hrounds : n.toInt < rounds) : fibWithin rounds n = some (fib n) := by
  unfold fibWithin fib
  split_ifs with hzero
  · rfl
  · have hpos : 0 < n.toInt := by
      have hle := Int32.le_iff_toInt_le.mp h
      have hne : n.toInt ≠ 0 := fun hn => hzero (Int32.toInt_inj.mp hn)
      change 0 ≤ n.toInt at hle
      omega
    apply fibFor_eq hmax
    · decide
    · change 2 + ((n.toInt - 1).toNat : ℤ) = n.toInt + 1
      omega
    · omega

/-- `dos.write` sends the low eight bits of its argument. -/
def lowByte (numb : Int32) : UInt8 := numb.toUInt32.toUInt8

/-- `dis.read` returns a byte as a non-negative number. -/
def readByte (byte : UInt8) : Int32 := Int32.ofNat byte.toNat

def endOfStream : Int32 := -1

theorem readByte_ne_endOfStream (byte : UInt8) : readByte byte ≠ endOfStream := by
  have hall : ∀ n : Fin 256, readByte ⟨⟨n⟩⟩ ≠ endOfStream := by decide +kernel
  exact hall byte.toFin

/-- `Task.run` on the timer thread, between two of its accesses. -/
inductive TimerPoint
  | idle
  | written
  | cancelled
  deriving DecidableEq

/-- The server's main thread. Its first two points are the call of `Task.run`
before the loop; `printed` and `computed` are inside the two branches. -/
inductive MainPoint
  | starting
  | started
  | reading
  | testing (numb : Int32)
  | printed
  | computed (numb : Int32)
  | exited
  deriving DecidableEq

inductive ClientPoint
  | reading
  | computed (numb : Int32)
  | exited
  deriving DecidableEq

inductive Branch
  | index
  | result
  deriving DecidableEq

inductive Writer
  | task
  | main
  deriving DecidableEq

/-- `consumed` records what the server's main thread took each number for, and
`sent` which part of the server sent each byte. -/
structure FibSocket where
  readIndex : Bool
  timer : TimerPoint
  main : MainPoint
  serverCurr : Nat
  client : ClientPoint
  clientCurr : Nat
  toClient : List UInt8
  toServer : List UInt8
  consumed : List (Branch × Int32)
  sent : List (Writer × UInt8)

def FibSocket.start : FibSocket := ⟨true, .idle, .starting, 1, .reading, 1, [], [], [], []⟩

def FibSocket.sendIndex (s : FibSocket) (temp : Fin 30) : FibSocket :=
  { s with
    toClient := s.toClient ++ [UInt8.ofNat temp], sent := s.sent ++ [(.task, UInt8.ofNat temp)] }

def FibSocket.test (s : FibSocket) (numb : Int32) : FibSocket :=
  if s.readIndex then
    { s with main := .computed (fib numb), consumed := s.consumed ++ [(.index, numb)] }
  else { s with main := .printed, consumed := s.consumed ++ [(.result, numb)] }

inductive Event
  | startWrite
  | startLower
  | startCancel
  | timerWrite
  | timerLower
  | timerCancel
  | read
  | readEnd
  | test
  | raise
  | reply
  | exit
  | clientRead
  | clientReadEnd
  | clientReply
  | clientExit
  deriving DecidableEq

inductive FibSocket.Step : FibSocket → Event → FibSocket → Prop
  | startWrite {s : FibSocket} (temp : Fin 30) (hm : s.main = .starting) :
      Step s .startWrite { s.sendIndex temp with main := .started }
  | startLower {s : FibSocket} (hm : s.main = .started) :
      Step s .startLower { s with main := .reading, readIndex := false }
  -- the write fails once the client has gone
  | startCancel {s : FibSocket} (hm : s.main = .starting) (hc : s.client = .exited) :
      Step s .startCancel { s with main := .reading, timer := .cancelled }
  | timerWrite {s : FibSocket} (temp : Fin 30) (ht : s.timer = .idle) :
      Step s .timerWrite { s.sendIndex temp with timer := .written }
  | timerLower {s : FibSocket} (ht : s.timer = .written) :
      Step s .timerLower { s with timer := .idle, readIndex := false }
  | timerCancel {s : FibSocket} (ht : s.timer = .idle) (hc : s.client = .exited) :
      Step s .timerCancel { s with timer := .cancelled }
  | read {s : FibSocket} {byte : UInt8} {rest : List UInt8} (hm : s.main = .reading)
      (hcurr : s.serverCurr ≤ 10) (hr : s.toServer = byte :: rest) :
      Step s .read { s with main := .testing (readByte byte), toServer := rest }
  | readEnd {s : FibSocket} (hm : s.main = .reading) (hcurr : s.serverCurr ≤ 10)
      (hr : s.toServer = []) (hc : s.client = .exited) :
      Step s .readEnd { s with main := .testing endOfStream }
  | test {s : FibSocket} {numb : Int32} (hm : s.main = .testing numb) :
      Step s .test (s.test numb)
  | raise {s : FibSocket} (hm : s.main = .printed) :
      Step s .raise { s with main := .reading, readIndex := true }
  | reply {s : FibSocket} {numb : Int32} (hm : s.main = .computed numb) :
      Step s .reply { s with
        main := .reading, serverCurr := s.serverCurr + 1
        toClient := s.toClient ++ [lowByte numb], sent := s.sent ++ [(.main, lowByte numb)] }
  -- the loop is over, or an exception ends the process and with it the timer
  | exit {s : FibSocket} (hm : s.main = .reading ∨ ∃ numb, s.main = .computed numb) :
      Step s .exit { s with main := .exited, timer := .cancelled }
  | clientRead {s : FibSocket} {byte : UInt8} {rest : List UInt8} (hc : s.client = .reading)
      (hcurr : s.clientCurr ≤ 10) (hr : s.toClient = byte :: rest) :
      Step s .clientRead { s with client := .computed (fib (readByte byte)), toClient := rest }
  | clientReadEnd {s : FibSocket} (hc : s.client = .reading) (hcurr : s.clientCurr ≤ 10)
      (hr : s.toClient = []) (hm : s.main = .exited) :
      Step s .clientReadEnd { s with client := .computed (fib endOfStream) }
  | clientReply {s : FibSocket} {numb : Int32} (hc : s.client = .computed numb) :
      Step s .clientReply { s with
        client := .reading, clientCurr := s.clientCurr + 1
        toServer := s.toServer ++ [lowByte numb] }
  | clientExit {s : FibSocket} (hc : s.client ≠ .exited) :
      Step s .clientExit { s with client := .exited }

/-- Every byte of the client that the server has consumed went to the result branch, and
every byte it has sent is an index of a task. -/
structure FibSocket.Safe (s : FibSocket) : Prop where
  consumed : ∀ p ∈ s.consumed, p.2 ≠ endOfStream → p.1 = .result
  sent : ∀ p ∈ s.sent, p.1 = .task

def setFlag (flag : Bool) : Event → Bool
  | .startLower => false
  | .timerLower => false
  | .raise => true
  | _ => flag

theorem FibSocket.Step.readIndex {s s' : FibSocket} {e : Event} (h : FibSocket.Step s e s') :
    s'.readIndex = setFlag s.readIndex e := by
  cases h with
  | test => unfold FibSocket.test; split_ifs <;> rfl
  | _ => rfl

def FibSocket.Good (s : FibSocket) (e : Event) : Prop :=
  (e = .test → s.readIndex = false ∨ s.main = .testing endOfStream) ∧ e ≠ .reply

theorem FibSocket.Safe.sendIndex {s : FibSocket} (h : s.Safe) (temp : Fin 30) :
    (s.sendIndex temp).Safe := by
  refine ⟨h.consumed, ?_⟩
  exact List.forall_mem_append.mpr ⟨h.sent, List.forall_mem_singleton.mpr rfl⟩

theorem FibSocket.Safe.test {s : FibSocket} (h : s.Safe) {numb : Int32}
    (hgood : s.readIndex = false ∨ numb = endOfStream) : (s.test numb).Safe := by
  unfold FibSocket.test
  split_ifs with hflag
  · refine ⟨List.forall_mem_append.mpr ⟨h.consumed, List.forall_mem_singleton.mpr ?_⟩, h.sent⟩
    exact fun hend => absurd (hgood.resolve_left (by simp [hflag])) hend
  · exact ⟨List.forall_mem_append.mpr ⟨h.consumed, List.forall_mem_singleton.mpr fun _ => rfl⟩,
      h.sent⟩

theorem FibSocket.Safe.step {s s' : FibSocket} {e : Event} (h : s.Safe)
    (hstep : FibSocket.Step s e s') (hgood : s.Good e) : s'.Safe := by
  cases hstep with
  | startWrite temp | timerWrite temp =>
    have hsafe := h.sendIndex temp
    exact ⟨hsafe.consumed, hsafe.sent⟩
  | test hm =>
    refine h.test ?_
    rcases hgood.1 rfl with hflag | hend
    · exact .inl hflag
    · exact .inr (MainPoint.testing.inj (hm.symm.trans hend))
  | reply => exact absurd rfl hgood.2
  | startLower | startCancel | read | readEnd | raise | exit | timerLower | timerCancel
  | clientRead | clientReadEnd | clientReply | clientExit => exact ⟨h.consumed, h.sent⟩

structure FibSocket.Reads (s : FibSocket) (ended : Prop) : Prop where
  gone : ended → s.client = .exited ∧ s.toServer = []
  testing : ∀ numb, s.main = .testing numb → (numb = endOfStream ↔ ended)

theorem FibSocket.Reads.step {s s' : FibSocket} {e : Event} {ended : Prop} (h : s.Reads ended)
    (hstep : FibSocket.Step s e s') : s'.Reads (ended ∨ e = .readEnd) := by
  cases hstep with
  | startWrite temp => exact ⟨fun hended => h.gone (hended.resolve_right nofun), nofun⟩
  | startLower | startCancel | raise | exit | reply =>
    exact ⟨by simpa using h.gone, nofun⟩
  | timerWrite temp =>
    refine ⟨fun hended => h.gone (hended.resolve_right nofun), fun numb hm => ?_⟩
    simpa using h.testing numb hm
  | timerLower | timerCancel => exact ⟨by simpa using h.gone, by simpa using h.testing⟩
  | @read byte rest hm _ hr =>
    have hnot : ¬ended := fun hended => by simp [(h.gone hended).2] at hr
    refine ⟨by simp [hnot], ?_⟩
    rintro _ ⟨⟩
    simp [hnot, readByte_ne_endOfStream]
  | readEnd _ _ hr hc =>
    refine ⟨fun _ => ⟨hc, hr⟩, ?_⟩
    rintro _ ⟨⟩
    simp
  | test =>
    unfold FibSocket.test
    split_ifs
    · exact ⟨by simpa using h.gone, nofun⟩
    · exact ⟨by simpa using h.gone, nofun⟩
  | clientRead hc | clientReadEnd hc | clientReply hc =>
    have hnot : ¬ended := fun hended => by simp [(h.gone hended).1] at hc
    exact ⟨by simp [hnot], by simpa using h.testing⟩
  | clientExit =>
    refine ⟨fun hended => ⟨rfl, (h.gone (by simpa using hended)).2⟩, by simpa using h.testing⟩

end Netsvc.JavaSocketApp
