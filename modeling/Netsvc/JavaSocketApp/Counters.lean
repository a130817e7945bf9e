import Netsvc.JavaSocketApp.FibSocket

/-! What `curr` counts on the two sides of `FibSocket.java`. -/
namespace Netsvc.JavaSocketApp
open Netsvc.Library.Transition

namespace FibSocket

def confused (s : FibSocket) : ℕ := s.consumed.countP fun p => p.1 = .index

def replies (s : FibSocket) : ℕ := s.sent.countP fun p => p.1 = .main

def arrived (s : FibSocket) : ℕ := s.consumed.countP fun p => p.2 ≠ endOfStream

def underTest (s : FibSocket) : ℕ :=
  match s.main with
  | .testing numb => if numb = endOfStream then 0 else 1
  | _ => 0

end FibSocket

/-- The replies and the confused numbers of a server: they differ only while a reply is
due, or where the server has ended before it. -/
def Serving (main : MainPoint) (replies confused : ℕ) : Prop :=
  match main with
  | .reading => confused = replies ∧ replies ≤ 10
  | .computed _ => confused = replies + 1 ∧ replies < 10
  | .exited => (confused = replies ∨ confused = replies + 1) ∧ replies ≤ 10
  | _ => confused = replies ∧ replies < 10

theorem Serving.bounds {main : MainPoint} {replies confused : ℕ}
    (h : Serving main replies confused) :
    replies ≤ confused ∧ confused ≤ replies + 1 ∧ replies ≤ 10 := by
  unfold Serving at h
  cases main <;> dsimp only at h <;> omega

structure FibSocket.ServerCounted (s : FibSocket) : Prop where
  serverCurr_eq : s.serverCurr = s.replies + 1
  serving : Serving s.main s.replies s.confused

section Server
variable {s s' : FibSocket} (h : s.ServerCounted)
include h

theorem FibSocket.ServerCounted.send (temp : Fin 30) : (s.sendIndex temp).ServerCounted := by
  have hreplies : (s.sendIndex temp).replies = s.replies := by
    unfold FibSocket.replies FibSocket.sendIndex
    rw [List.countP_append]
    rfl
  refine ⟨?_, ?_⟩
  · rw [hreplies]
    exact h.serverCurr_eq
  · rw [hreplies]
    exact h.serving

theorem FibSocket.ServerCounted.test {numb : Int32} (hm : s.main = .testing numb) :
    (s.test numb).ServerCounted := by
  have hserving := h.serving
  rw [hm] at hserving
  obtain ⟨hconfused, hlt⟩ := hserving
  unfold FibSocket.confused at hconfused
  unfold FibSocket.test
  split_ifs
  · refine ⟨h.serverCurr_eq, ?_, hlt⟩
    unfold FibSocket.confused
    rw [List.countP_append, hconfused]
    rfl
  · refine ⟨h.serverCurr_eq, ?_, hlt⟩
    unfold FibSocket.confused
    rw [List.countP_append, hconfused]
    rfl

theorem FibSocket.ServerCounted.reply {numb : Int32} (hm : s.main = .computed numb) :
    { s with
      main := .reading, serverCurr := s.serverCurr + 1
      toClient := s.toClient ++ [lowByte numb]
      sent := s.sent ++ [(Writer.main, lowByte numb)] }.ServerCounted := by
  have hserving := h.serving
  have hcurr := h.serverCurr_eq
  rw [hm] at hserving
  obtain ⟨hconfused, hlt⟩ := hserving
  have hreplies : (s.sent ++ [(Writer.main, lowByte numb)]).countP (fun p => p.1 = .main) =
      s.replies + 1 := by
    rw [List.countP_append]
    rfl
  refine ⟨?_, ?_, ?_⟩
  · exact congrArg (· + 1) (hcurr.trans hreplies.symm)
  · exact hconfused.trans hreplies.symm
  · exact hreplies.trans_le hlt

theorem FibSocket.ServerCounted.step {e : Event} (hstep : FibSocket.Step s e s') :
    s'.ServerCounted := by
  have hserving := h.serving
  have hcurr := h.serverCurr_eq
  cases hstep with
  | startWrite temp hm =>
    have hsend := (h.send temp).serving
    rw [show (s.sendIndex temp).main = _ from hm] at hsend
    exact ⟨(h.send temp).serverCurr_eq, hsend⟩
  | timerWrite temp => exact ⟨(h.send temp).serverCurr_eq, (h.send temp).serving⟩
  | startLower hm | startCancel hm | raise hm =>
    rw [hm] at hserving
    exact ⟨hcurr, hserving.1, hserving.2.le⟩
  | read hm hle | readEnd hm hle =>
    rw [hm] at hserving
    refine ⟨hcurr, hserving.1, ?_⟩
    change s.replies < 10
    omega
  | test hm => exact h.test hm
  | reply hm => exact h.reply hm
  | exit =>
    obtain ⟨hlo, hhi, hle⟩ := hserving.bounds
    refine ⟨hcurr, ?_, hle⟩
    change s.confused = s.replies ∨ s.confused = s.replies + 1
    omega
  | timerLower | timerCancel | clientRead | clientReadEnd | clientReply | clientExit =>
    exact ⟨hcurr, hserving⟩

end Server

/-- `curr` of the client is one more than its answers, and each of them is consumed, or
read and not yet tested, or on its way, or lost with the server. -/
structure FibSocket.ClientCounted (s : FibSocket) : Prop where
  clientCurr_eq : s.clientCurr = s.arrived + s.underTest + s.toServer.length + 1
  clientCurr_le : s.clientCurr ≤ 11
  clientCurr_lt : ∀ numb, s.client = .computed numb → s.clientCurr ≤ 10

section Client
variable {s s' : FibSocket} (h : s.ClientCounted)
include h

theorem FibSocket.ClientCounted.test {numb : Int32} (hm : s.main = .testing numb) :
    (s.test numb).ClientCounted := by
  have hcurr := h.clientCurr_eq
  unfold FibSocket.underTest FibSocket.arrived at hcurr
  rw [hm] at hcurr
  have hone (branch : Branch) :
      (s.consumed ++ [(branch, numb)]).countP (fun p => p.2 ≠ endOfStream) =
        s.consumed.countP (fun p => p.2 ≠ endOfStream) + if numb = endOfStream then 0 else 1 := by
    rw [List.countP_append, List.countP_singleton]
    simp
  unfold FibSocket.test
  split_ifs
  · refine ⟨?_, h.clientCurr_le, h.clientCurr_lt⟩
    unfold FibSocket.arrived
    rw [hone]
    exact hcurr
  · refine ⟨?_, h.clientCurr_le, h.clientCurr_lt⟩
    unfold FibSocket.arrived
    rw [hone]
    exact hcurr

theorem FibSocket.ClientCounted.step {e : Event} (hstep : FibSocket.Step s e s') :
    s'.ClientCounted := by
  have hcurr := h.clientCurr_eq
  have hle := h.clientCurr_le
  have hlt := h.clientCurr_lt
  unfold FibSocket.underTest at hcurr
  cases hstep with
  | startWrite _ hm | startLower hm | startCancel hm | raise hm | reply hm =>
    rw [hm] at hcurr
    exact ⟨hcurr, hle, hlt⟩
  | exit hm =>
    refine ⟨?_, hle, hlt⟩
    rcases hm with hm | ⟨numb, hm⟩
    · rw [hm] at hcurr
      exact hcurr
    · rw [hm] at hcurr
      exact hcurr
  | @read byte rest hm _ hr =>
    rw [hm, hr] at hcurr
    refine ⟨?_, hle, hlt⟩
    simp only [FibSocket.underTest, if_neg (readByte_ne_endOfStream byte)]
    rw [hcurr, List.length_cons]
    change s.arrived + 0 + (rest.length + 1) + 1 = s.arrived + 1 + rest.length + 1
    omega
  | readEnd hm _ hr =>
    rw [hm] at hcurr
    exact ⟨hcurr, hle, hlt⟩
  | test hm => exact h.test hm
  | clientRead _ hlast | clientReadEnd _ hlast => exact ⟨hcurr, hle, fun _ _ => hlast⟩
  | @clientReply numb hc =>
    have hten := hlt _ hc
    have htotal := h.clientCurr_eq
    refine ⟨?_, Nat.succ_le_succ hten, nofun⟩
    change s.clientCurr + 1 =
      s.arrived + s.underTest + (s.toServer ++ [lowByte numb]).length + 1
    rw [List.length_append, List.length_singleton]
    omega
  | clientExit => exact ⟨hcurr, hle, nofun⟩
  | timerWrite | timerLower | timerCancel => exact ⟨hcurr, hle, hlt⟩

end Client

/-- The server's `curr` counts nothing but numbers it has taken for an index. Without such
confusion it stays at 1 and the loop never comes to its own end, while the client counts
its answers and never gives more than ten. -/
theorem fibSocket_counts (s : FibSocket) (h : Reachable FibSocket.Step FibSocket.start s) :
    (s.serverCurr = s.replies + 1 ∧ s.serverCurr ≤ s.confused + 1 ∧ s.serverCurr ≤ 11) ∧
    (s.Safe → s.serverCurr = 1) ∧
    (s.clientCurr = s.arrived + s.underTest + s.toServer.length + 1 ∧ s.arrived ≤ 10) := by
  have hserver := h.invariant FibSocket.ServerCounted (fun _ _ _ hs hstep => hs.step hstep)
    ⟨rfl, rfl, by decide⟩
  have hclient := h.invariant FibSocket.ClientCounted (fun _ _ _ hs hstep => hs.step hstep)
    ⟨rfl, by decide, fun _ => nofun⟩
  obtain ⟨hlo, -, hten⟩ := hserver.serving.bounds
  have hcurr := hserver.serverCurr_eq
  refine ⟨⟨hcurr, by omega, by omega⟩, fun hsafe => ?_, hclient.clientCurr_eq, ?_⟩
  · have hnone : s.replies = 0 := by
      apply List.countP_eq_zero.mpr
      intro p hp
      simp [hsafe.sent p hp]
    rw [hcurr, hnone]
  · have htotal := hclient.clientCurr_eq
    have hle := hclient.clientCurr_le
    omega

theorem fibSocket_counts_confused : ∃ s, Reachable FibSocket.Step FibSocket.start s ∧
    s.serverCurr = 2 ∧ s.serverCurr ≤ s.confused + 1 ∧ s.arrived ≤ 10 := by
  have hreach : Reachable FibSocket.Step FibSocket.start _ :=
    .head (.startWrite 5 rfl) <| .head (.startLower rfl) <|
    .head (.clientRead rfl (by decide) rfl) <| .head (.clientReply rfl) <|
    .head (.read rfl (by decide) rfl) <| .head (.test rfl) <| .head (.raise rfl) <|
    .head (.timerWrite 7 rfl) <| .head (.clientRead rfl (by decide) rfl) <|
    .head (.clientReply rfl) <| .head (.read rfl (by decide) rfl) <| .head (.test rfl) <|
    .head (.reply rfl) <| .refl _
  obtain ⟨⟨-, hconfused, -⟩, -, -, harrived⟩ := fibSocket_counts _ hreach
  exact ⟨_, hreach, rfl, hconfused, harrived⟩

end Netsvc.JavaSocketApp
