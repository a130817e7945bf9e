import Netsvc.CsSocketApp.Exchange

/-! The exchange when every message arrives whole and no call on a socket fails: it
comes to its end. And when a message does not arrive whole: it stops for good. -/
namespace Netsvc.CsSocketApp
open Netsvc.Library.ByteOrder Netsvc.Library.Transition

/-- The steps of `Main` when `Receive` returns all there is, no call throws and the
socket stays `Connected`. -/
inductive Peer.Orderly (order : Order) (next : Int32 → Int32) : Peer → Option Int32 → Peer → Prop
  | receive {locals : Locals} (message : Bytes) (hi : locals.i < 4) (hnonempty : message ≠ [])
      (hfit : message.length ≤ locals.bytes.length) :
      Orderly order next ⟨message, some locals⟩ none ⟨[], some (locals.receive message)⟩
  | reply {inbox : Bytes} {locals : Locals} (hi : 4 ≤ locals.i)
      (hnext : next (toInt32 order locals.bytes) ≤ 10000) :
      Orderly order next ⟨inbox, some locals⟩ (some (next (toInt32 order locals.bytes)))
        ⟨inbox, some .start⟩
  | leave {inbox : Bytes} {locals : Locals} (hi : 4 ≤ locals.i)
      (hnext : ¬next (toInt32 order locals.bytes) ≤ 10000) :
      Orderly order next ⟨inbox, some locals⟩ (some (next (toInt32 order locals.bytes)))
        ⟨inbox, none⟩

inductive Exchange.Orderly (order : Order) (next : Int32 → Int32) :
    Exchange → Side × Option Int32 → Exchange → Prop
  | server {x : Exchange} {numb : Option Int32} {p : Peer}
      (hstep : Peer.Orderly order next x.server numb p) :
      Orderly order next x (.server, numb)
        ⟨p, x.client.deliver order numb, x.sent ++ numb.toList⟩
  | client {x : Exchange} {numb : Option Int32} {p : Peer}
      (hstep : Peer.Orderly order next x.client numb p) :
      Orderly order next x (.client, numb)
        ⟨x.server.deliver order numb, p, x.sent ++ numb.toList⟩

section Orderly
variable {order : Order} {next : Int32 → Int32} {opening : Int32} {gone : Prop} {n : ℕ}
  {active idle p : Peer} {sent : Option Int32}

theorem Peer.Orderly.step (h : Peer.Orderly order next active sent p) :
    Peer.Step order next gone active sent p := by
  cases h with
  | receive message hi hnonempty hfit =>
    have hstep : Peer.Step order next gone _ _ _ := .receive message [] hi hnonempty hfit
    rwa [List.append_nil] at hstep
  | reply hi hnext => exact .reply hi hnext
  | leave hi => exact .leave hi

theorem Exchange.Orderly.step {x y : Exchange} {label : Side × Option Int32}
    (h : Exchange.Orderly order next x label y) : Exchange.Step order next x label y := by
  cases h with
  | server hstep => exact .server hstep.step
  | client hstep => exact .client hstep.step

theorem Exchange.reachable_of_orderly {x y : Exchange}
    (h : Reachable (Exchange.Orderly order next) x y) : Reachable (Exchange.Step order next) x y :=
  h.mono fun _ label _ hstep => ⟨label, hstep.step⟩

structure OrderlyTurn (order : Order) (next : Int32 → Int32) (opening : Int32) (n : ℕ)
    (active idle : Peer) : Prop where
  turn : Turn order next opening n active idle
  whole : ∀ locals, active.locals = some locals → locals.i < 4 →
    active.inbox = getBytes order (next^[n] opening)
  activeFits : ∀ locals, active.locals = some locals → locals.bytes.length = 1024
  idleFits : ∀ locals, idle.locals = some locals → locals.bytes.length = 1024
  activeLeft : active.locals = none → ∃ m, n = m + 1 ∧ ¬Stays next opening m
  idleLeft : idle.locals = none → ¬Stays next opening n

theorem Waits.not_orderly (h : Waits idle) : ¬Peer.Orderly order next idle sent p := by
  intro hstep
  cases hstep with
  | receive message hi hnonempty hfit => exact hnonempty (Waits.receiving_iff.mp h).1
  | reply hi _ | leave hi _ => exact absurd (Waits.receiving_iff.mp h).2 (Nat.not_lt.mpr hi)

theorem OrderlyTurn.receive (h : OrderlyTurn order next opening n active idle)
    (hstep : Peer.Orderly order next active none p) :
    OrderlyTurn order next opening n p idle := by
  have hturn := h.turn.active_step (hstep.step : Peer.Step order next False active none p)
  cases hstep with
  | receive message hi hnonempty hfit =>
    have hmessage := h.whole _ rfl hi
    refine ⟨hturn, ?_, ?_, h.idleFits, nofun, h.idleLeft⟩
    · rintro locals ⟨⟩ hlt
      have hfour : ¬message.length < 4 := by
        rw [show message = _ from hmessage, length_getBytes]
        decide
      exact absurd hlt hfour
    · rintro locals ⟨⟩
      rw [Locals.length_receive _ hfit]
      exact h.activeFits _ rfl

theorem OrderlyTurn.send {numb : Int32} (h : OrderlyTurn order next opening n active idle)
    (hstep : Peer.Orderly order next active (some numb) p) :
    numb = next^[n + 1] opening ∧
      OrderlyTurn order next opening (n + 1) (idle.deliver order (some numb)) p := by
  have hsent : Peer.Step order next False active (some numb) p := hstep.step
  obtain ⟨hnumb, hturn⟩ := h.turn.send hsent
  refine ⟨hnumb, hturn, ?_, h.idleFits, ?_, ?_, ?_⟩
  · intro locals hlocals _
    have hwaits := h.turn.waits
    obtain ⟨inbox, _⟩ := idle
    obtain rfl : _ = some locals := hlocals
    obtain ⟨rfl, -⟩ := Waits.receiving_iff.mp hwaits
    exact congrArg (getBytes order) hnumb
  · cases hstep with
    | reply =>
      rintro locals ⟨⟩
      exact Locals.length_start
    | leave => exact nofun
  · exact fun hnone => ⟨n, rfl, h.idleLeft hnone⟩
  · cases hstep with
    | reply => exact nofun
    | leave _ hnext =>
      intro _ hstays
      exact hnext (hnumb ▸ hstays (Nat.succ_pos n))

theorem OrderlyTurn.enabled (h : OrderlyTurn order next opening n active idle) :
    active.locals = none ∨ ∃ sent p, Peer.Orderly order next active sent p := by
  obtain ⟨inbox, _ | locals⟩ := active
  · exact .inl rfl
  · refine .inr ?_
    rcases Nat.lt_or_ge locals.i 4 with hi | hi
    · have hmessage : inbox.length = 4 := by
        rw [show inbox = _ from h.whole locals rfl hi, length_getBytes]
      refine ⟨_, _, .receive inbox hi ?_ ?_⟩
      · rintro rfl
        cases hmessage
      · rw [hmessage, h.activeFits locals rfl]
        decide
    · by_cases hnext : next (toInt32 order locals.bytes) ≤ 10000
      · exact ⟨_, _, .reply hi hnext⟩
      · exact ⟨_, _, .leave hi hnext⟩

def Exchange.InOrder (order : Order) (next : Int32 → Int32) (opening : Int32) (n : ℕ)
    (x : Exchange) : Prop :=
  x.sent = numbers next opening (n + 1) ∧
    (OrderlyTurn order next opening n x.client x.server ∨
      OrderlyTurn order next opening n x.server x.client)

theorem OrderlyTurn.next_turn (h : OrderlyTurn order next opening n active idle)
    (hstep : Peer.Orderly order next active sent p) :
    ∃ m, numbers next opening (m + 1) = numbers next opening (n + 1) ++ sent.toList ∧
      (OrderlyTurn order next opening m p (idle.deliver order sent) ∨
        OrderlyTurn order next opening m (idle.deliver order sent) p) := by
  cases sent with
  | none => exact ⟨n, (List.append_nil _).symm, .inl (h.receive hstep)⟩
  | some numb =>
    obtain ⟨hnumb, hturn⟩ := h.send hstep
    refine ⟨n + 1, ?_, .inr hturn⟩
    rw [numbers_succ, ← hnumb]
    rfl

theorem Exchange.start_inOrder : (Exchange.start order opening).InOrder order next opening 0 where
  left := rfl
  right := .inl {
    turn := {
      holds := .waiting (show 0 < 4 by decide)
      waits := .receiving (show 0 < 4 by decide)
      activeStays := nofun
      idleStays := nofun
      earlier := nofun }
    whole := fun _ _ _ => rfl
    activeFits := by
      rintro locals ⟨⟩
      exact Locals.length_start
    idleFits := by
      rintro locals ⟨⟩
      exact Locals.length_start
    activeLeft := nofun
    idleLeft := nofun }

theorem Exchange.InOrder.step {x y : Exchange} {label : Side × Option Int32}
    (h : x.InOrder order next opening n) (hstep : Exchange.Orderly order next x label y) :
    ∃ m, y.InOrder order next opening m := by
  obtain ⟨hsent, hturn⟩ := h
  cases hstep with
  | server hstep =>
    rcases hturn with hidle | hactive
    · exact absurd hstep hidle.turn.waits.not_orderly
    · obtain ⟨m, hnumbers, hturn⟩ := hactive.next_turn hstep
      exact ⟨m, (congrArg (· ++ _) hsent).trans hnumbers.symm, hturn.symm⟩
  | client hstep =>
    rcases hturn with hactive | hidle
    · obtain ⟨m, hnumbers, hturn⟩ := hactive.next_turn hstep
      exact ⟨m, (congrArg (· ++ _) hsent).trans hnumbers.symm, hturn⟩
    · exact absurd hstep hidle.turn.waits.not_orderly

theorem Exchange.inOrder {x : Exchange}
    (h : Reachable (Exchange.Orderly order next) (.start order opening) x) :
    ∃ n, x.InOrder order next opening n := by
  refine h.invariant (fun y => ∃ n, y.InOrder order next opening n) ?_ ⟨0, start_inOrder⟩
  rintro y label z ⟨n, horder⟩ hstep
  exact horder.step hstep

theorem Exchange.InOrder.final {x : Exchange} (h : x.InOrder order next opening n)
    (hfinal : Final (Exchange.Orderly order next) x) :
    ∃ active idle, (active = x.client ∧ idle = x.server ∨ active = x.server ∧ idle = x.client) ∧
      OrderlyTurn order next opening n active idle ∧ active.locals = none := by
  rcases h.2 with hturn | hturn
  · refine ⟨_, _, .inl ⟨rfl, rfl⟩, hturn, hturn.enabled.resolve_right ?_⟩
    rintro ⟨sent, p, hstep⟩
    exact hfinal _ _ (.client hstep)
  · refine ⟨_, _, .inr ⟨rfl, rfl⟩, hturn, hturn.enabled.resolve_right ?_⟩
    rintro ⟨sent, p, hstep⟩
    exact hfinal _ _ (.server hstep)

end Orderly

section Fibonacci
variable {unspecified : ℤ → Int32} {k : ℕ} {opening : Int32}

def lastAnswered (k : ℕ) : ℕ := max 1 (21 - k)

theorem fib_le_10000_iff {m : ℕ} : (Nat.fib m : ℤ) ≤ 10000 ↔ m ≤ 20 := by
  have hbelow : Nat.fib 20 ≤ 10000 := by decide +kernel
  have habove : 10000 < Nat.fib 21 := by decide +kernel
  rcases Nat.lt_or_ge 20 m with hlt | hle
  · have hmono : Nat.fib 21 ≤ Nat.fib m := Nat.fib_mono hlt
    omega
  · have hmono : Nat.fib m ≤ Nat.fib 20 := Nat.fib_mono hle
    omega

variable (hk : 2 ≤ k) (hopening : opening.toInt = Nat.fib k)
include hk hopening

theorem stays_iff {m : ℕ} (hint : Nat.fib (k + m) < 2 ^ 31) :
    Stays (nextFibonacci unspecified) opening m ↔ (0 < m → k + m ≤ 20) := by
  unfold Stays
  rw [Int32.le_iff_toInt_le, iterate_nextFibonacci hk hopening hint]
  exact imp_congr_right fun _ => fib_le_10000_iff

variable {order : Order} {x : Exchange} (hearly : k ≤ 44)
  (h : Reachable (Exchange.Orderly order (nextFibonacci unspecified)) (.start order opening) x)
include hearly h

theorem Exchange.length_sent_le : x.sent.length ≤ lastAnswered k + 2 := by
  have hreach := Exchange.reachable_of_orderly h
  by_contra hlarge
  have hint := Exchange.fib_lt hk hopening hearly hreach (j := lastAnswered k) (by omega)
  have hstays := Exchange.stays hreach (m := lastAnswered k) (by omega)
  rw [stays_iff hk hopening hint] at hstays
  unfold lastAnswered at hstays
  omega

theorem Exchange.final_left
    (hfinal : Final (Exchange.Orderly order (nextFibonacci unspecified)) x) :
    (x.server.locals = none ∧ x.client.locals = none) ∧ x.sent.length = lastAnswered k + 2 := by
  obtain ⟨n, horder⟩ := Exchange.inOrder h
  have hlength : x.sent.length = n + 1 := by rw [horder.1, length_numbers]
  obtain ⟨active, idle, hsides, hturn, hactive⟩ := horder.final hfinal
  obtain ⟨m, rfl, hbeyond⟩ := hturn.activeLeft hactive
  have hreach := Exchange.reachable_of_orderly h
  have hint {j : ℕ} (hj : j ≤ m + 1) : Nat.fib (k + j) < 2 ^ 31 :=
    Exchange.fib_lt hk hopening hearly hreach (by omega)
  rw [stays_iff hk hopening (hint (by omega))] at hbeyond
  have hidle : idle.locals = none := by
    by_contra hwaits
    have hstays := hturn.turn.idleStays hwaits
    rw [stays_iff hk hopening (hint le_rfl)] at hstays
    omega
  refine ⟨?_, ?_⟩
  · rcases hsides with ⟨rfl, rfl⟩ | ⟨rfl, rfl⟩
    · exact ⟨hidle, hactive⟩
    · exact ⟨hactive, hidle⟩
  · have hfirst : m = 1 ∨ k + m = 21 := by
      rcases Nat.lt_or_ge 1 m with hm | hm
      · have hstays := hturn.turn.earlier (m - 1) (by omega)
        rw [stays_iff hk hopening (hint (by omega))] at hstays
        omega
      · omega
    unfold lastAnswered
    omega

end Fibonacci

def Exchange.remaining (k : ℕ) (x : Exchange) : ℕ :=
  2 * (lastAnswered k + 2 - x.sent.length) + min 1 x.server.inbox.length +
    min 1 x.client.inbox.length

section Remaining
variable {order : Order} {next : Int32 → Int32} {sent : Option Int32} {p q : Peer}

theorem Peer.Orderly.inbox (h : Peer.Orderly order next p sent q) :
    match sent with
    | none => p.inbox ≠ [] ∧ q.inbox = []
    | some _ => q.inbox = p.inbox := by
  cases h with
  | receive _ _ hnonempty _ => exact ⟨hnonempty, rfl⟩
  | reply | leave => rfl

theorem Exchange.Orderly.remaining_lt {k : ℕ} {x y : Exchange} {label : Side × Option Int32}
    (h : Exchange.Orderly order next x label y) (hle : y.sent.length ≤ lastAnswered k + 2) :
    y.remaining k < x.remaining k := by
  cases h with
  | @server numb p hstep | @client numb p hstep =>
    have hinbox := hstep.inbox
    unfold Exchange.remaining
    cases numb with
    | none =>
      have hpos := List.length_pos_iff.mpr hinbox.1
      simp only [hinbox.2, Peer.deliver, Option.toList_none, List.append_nil, List.length_nil]
      omega
    | some numb =>
      replace hinbox : p.inbox = _ := hinbox
      simp only [Option.toList_some, List.length_append, List.length_cons, List.length_nil] at hle
      simp only [hinbox, Option.toList_some, List.length_append, List.length_cons, List.length_nil]
      omega

end Remaining

section Fibonacci
variable {unspecified : ℤ → Int32} {order : Order} {k : ℕ} {opening : Int32} (hk : 2 ≤ k)
  (hearly : k ≤ 44) (hopening : opening.toInt = Nat.fib k)
include hk hearly hopening

theorem Exchange.reachable_remaining_lt {x y : Exchange} {label : Side × Option Int32}
    (h : Reachable (Exchange.Orderly order (nextFibonacci unspecified)) (.start order opening) x)
    (hstep : Exchange.Orderly order (nextFibonacci unspecified) x label y) :
    y.remaining k < x.remaining k := by
  apply hstep.remaining_lt
  exact Exchange.length_sent_le hk hopening hearly (h.tail ⟨label, hstep⟩)

theorem Exchange.final_sent {x : Exchange}
    (h : Reachable (Exchange.Orderly order (nextFibonacci unspecified)) (.start order opening) x)
    (hlength : x.sent.length = lastAnswered k + 2) :
    x.sent.map Int32.toInt =
      (List.range (lastAnswered k + 2)).map fun j => (Nat.fib (k + j) : ℤ) := by
  have hreach := Exchange.reachable_of_orderly h
  rw [Exchange.sent_eq hreach, hlength]
  unfold numbers
  rw [List.map_map]
  refine List.map_congr_left fun j hj => ?_
  apply iterate_nextFibonacci hk hopening
  apply Exchange.fib_lt hk hopening hearly hreach
  rw [hlength]
  exact List.mem_range.mp hj

end Fibonacci

/-- Opened by a Fibonacci number, the exchange comes to its end within a bounded number
of steps, and there both programs have left after all numbers up to the second reply
beyond 10000. -/
theorem orderly_exchange_completes (unspecified : ℤ → Int32) (order : Order) (k : ℕ)
    (opening : Int32) (hk : 2 ≤ k) (hearly : k ≤ 44) (hopening : opening.toInt = Nat.fib k) :
    (∀ run, Run (Exchange.Orderly order (nextFibonacci unspecified)) (.start order opening) run →
      run.length ≤ 2 * lastAnswered k + 3) ∧
    (∃ x, Reachable (Exchange.Orderly order (nextFibonacci unspecified))
        (.start order opening) x ∧ Final (Exchange.Orderly order (nextFibonacci unspecified)) x) ∧
    ∀ x, Reachable (Exchange.Orderly order (nextFibonacci unspecified)) (.start order opening) x →
      Final (Exchange.Orderly order (nextFibonacci unspecified)) x →
      (x.server.locals = none ∧ x.client.locals = none) ∧ x.sent.map Int32.toInt =
        (List.range (lastAnswered k + 2)).map fun j => (Nat.fib (k + j) : ℤ) := by
  have preserves : ∀ x label y,
      Reachable (Exchange.Orderly order (nextFibonacci unspecified)) (.start order opening) x →
      Exchange.Orderly order (nextFibonacci unspecified) x label y → Reachable _ _ y :=
    fun x label y hx hstep => hx.tail ⟨label, hstep⟩
  have decreases : ∀ x label y,
      Reachable (Exchange.Orderly order (nextFibonacci unspecified)) (.start order opening) x →
      Exchange.Orderly order (nextFibonacci unspecified) x label y →
      y.remaining k < x.remaining k :=
    fun x label y hx hstep => Exchange.reachable_remaining_lt hk hearly hopening hx hstep
  refine ⟨fun run hrun => ?_, exists_final _ preserves decreases (.refl _), ?_⟩
  · have hstart : (Exchange.start order opening).remaining k = 2 * lastAnswered k + 3 := by
      unfold Exchange.remaining Exchange.start
      rw [length_getBytes]
      simp only [List.length_cons, List.length_nil]
      omega
    rw [← hstart]
    exact hrun.length_le _ preserves decreases (.refl _)
  · intro x hreach hfinal
    obtain ⟨hleft, hlength⟩ := Exchange.final_left hk hopening hearly hreach hfinal
    exact ⟨hleft, Exchange.final_sent hk hearly hopening hreach hlength⟩

theorem orderly_exchange_completes_one :
    ∃ x, Reachable (Exchange.Orderly .little (nextFibonacci fun _ => 0)) (.start .little 1) x ∧
      (x.server.locals = none ∧ x.client.locals = none) ∧
      x.sent.map Int32.toInt = [1, 2, 3, 5, 8, 13, 21, 34, 55, 89, 144, 233, 377, 610, 987, 1597,
        2584, 4181, 6765, 10946, 17711] := by
  obtain ⟨-, ⟨x, hreach, hfinal⟩, hall⟩ :=
    orderly_exchange_completes (fun _ => 0) .little 2 1 le_rfl (by decide) rfl
  obtain ⟨hleft, hsent⟩ := hall x hreach hfinal
  exact ⟨x, hreach, hleft, hsent⟩

inductive Exchange.Cut : Exchange → Exchange → Prop
  | server {client : Peer} {sent : List Int32} {locals : Locals} (segment rest : Bytes)
      (hi : locals.i < 4) (hnonempty : segment ≠ []) (hshort : segment.length < 4) :
      Cut ⟨⟨segment ++ rest, some locals⟩, client, sent⟩
        ⟨⟨rest, some (locals.receive segment)⟩, client, sent⟩
  | client {server : Peer} {sent : List Int32} {locals : Locals} (segment rest : Bytes)
      (hi : locals.i < 4) (hnonempty : segment ≠ []) (hshort : segment.length < 4) :
      Cut ⟨server, ⟨segment ++ rest, some locals⟩, sent⟩
        ⟨server, ⟨rest, some (locals.receive segment)⟩, sent⟩

theorem Turn.active_of_nonempty {order : Order} {next : Int32 → Int32} {opening : Int32} {n : ℕ}
    {p q : Peer} (h : Turn order next opening n p q ∨ Turn order next opening n q p)
    (hnonempty : p.inbox ≠ []) : Turn order next opening n p q := by
  refine h.resolve_right fun hturn => ?_
  have hwaits := hturn.waits
  cases hwaits <;> exact hnonempty rfl

theorem Exchange.Cut.starved {order : Order} {next : Int32 → Int32} {opening : Int32}
    {x y : Exchange} (hcut : x.Cut y) {n : ℕ} (hturn : x.InTurn order next opening n) :
    y.sent = x.sent ∧ y.server.Starved ∧ y.client.Starved := by
  cases hcut with
  | server segment rest hi hnonempty hshort =>
    have hactive :=
      Turn.active_of_nonempty hturn.2.symm (List.append_ne_nil_of_left_ne_nil hnonempty _)
    exact ⟨rfl, hactive.starved hi hnonempty hshort⟩
  | client segment rest hi hnonempty hshort =>
    have hactive := Turn.active_of_nonempty hturn.2 (List.append_ne_nil_of_left_ne_nil hnonempty _)
    exact ⟨rfl, (hactive.starved hi hnonempty hshort).symm⟩

/-- Once `Receive` has returned a part of a message, no number is sent any more. Each
program waits for four bytes where fewer are on their way, unless a call has thrown. -/
theorem cut_exchange_stops (order : Order) (next : Int32 → Int32) (opening : Int32)
    (x y z : Exchange) (hreach : Reachable (Exchange.Step order next) (.start order opening) x)
    (hcut : x.Cut y) (hafter : Reachable (Exchange.Step order next) y z) :
    z.sent = x.sent ∧ z.server.Starved ∧ z.client.Starved := by
  obtain ⟨n, hturn⟩ := Exchange.inTurn hreach
  obtain ⟨hsent, hserver, hclient⟩ := hcut.starved hturn
  obtain ⟨hstill, hstarved⟩ := Exchange.starved hserver hclient hafter
  exact ⟨hstill.trans hsent, hstarved⟩

theorem cut_exchange_stops_one : ∃ x y z, x = Exchange.start .little 1 ∧ x.Cut y ∧
    Reachable (Exchange.Step .little (nextFibonacci fun _ => 0)) y z ∧
    z.client.inbox = [] ∧ z.sent = [1] ∧ z.client.Starved := by
  have hcut : (Exchange.start .little 1).Cut
      ⟨_, ⟨[0, 0, 0], some (Locals.start.receive [1])⟩, [1]⟩ :=
    .client [1] [0, 0, 0] (by decide) nofun (by decide)
  have hread : Peer.Step .little (nextFibonacci fun _ => 0) (some Locals.start = none)
      ⟨[0, 0, 0], some (Locals.start.receive [1])⟩ none
      ⟨[], some ((Locals.start.receive [1]).receive [0, 0, 0])⟩ := by
    refine .receive [0, 0, 0] [] (by decide) nofun ?_
    rw [Locals.length_receive _ (by simp), Locals.length_start]
    decide
  have hstep := Exchange.Step.client (x := ⟨⟨[], some .start⟩, ⟨_, _⟩, [1]⟩) hread
  have hafter := reachable_of_step hstep
  obtain ⟨hsent, -, hclient⟩ :=
    cut_exchange_stops .little _ 1 _ _ _ (.refl _) hcut hafter
  exact ⟨_, _, _, rfl, hcut, hafter, rfl, hsent, hclient⟩

end Netsvc.CsSocketApp
