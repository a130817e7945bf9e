import Netsvc.CsSocketApp.NextFibonacci
import Netsvc.CsSocketApp.Receive
import Netsvc.Library.Transition

/-! The exchange loops of `FibSocketServer.cs` and `FibSocketClient.cs`, over a byte
stream each way that `Receive` may cut anywhere. -/
namespace Netsvc.CsSocketApp
open Netsvc.Library.ByteOrder Netsvc.Library.Rounding Netsvc.Library.Transition

/-- A program at its `Receive` or about to reply, with the bytes on their way to it.
It has no `locals` once it has left the loop. -/
structure Peer where
  inbox : Bytes
  locals : Option Locals

def Peer.deliver (order : Order) (p : Peer) : Option Int32 → Peer
  | none => p
  | some numb => { p with inbox := p.inbox ++ getBytes order numb }

/-- The steps of `Main`, with the number they send. -/
inductive Peer.Step (order : Order) (next : Int32 → Int32) (gone : Prop) :
    Peer → Option Int32 → Peer → Prop
  | receive {locals : Locals} (segment rest : Bytes) (hi : locals.i < 4)
      (hnonempty : segment ≠ []) (hfit : segment.length ≤ locals.bytes.length) :
      Step order next gone ⟨segment ++ rest, some locals⟩ none
        ⟨rest, some (locals.receive segment)⟩
  -- `Receive` returns 0 after the other program has shut its socket down
  | receiveEnd {locals : Locals} (hi : locals.i < 4) (hgone : gone) :
      Step order next gone ⟨[], some locals⟩ none ⟨[], some (locals.receive [])⟩
  | reply {inbox : Bytes} {locals : Locals} (hi : 4 ≤ locals.i)
      (hnext : next (toInt32 order locals.bytes) ≤ 10000) :
      Step order next gone ⟨inbox, some locals⟩ (some (next (toInt32 order locals.bytes)))
        ⟨inbox, some .start⟩
  -- beyond 10000, or no longer `Connected`
  | leave {inbox : Bytes} {locals : Locals} (hi : 4 ≤ locals.i) :
      Step order next gone ⟨inbox, some locals⟩ (some (next (toInt32 order locals.bytes)))
        ⟨inbox, none⟩
  -- a call on the socket throws
  | throw {inbox : Bytes} {locals : Locals} :
      Step order next gone ⟨inbox, some locals⟩ none ⟨inbox, none⟩

theorem Peer.receives {order : Order} {next : Int32 → Int32} {gone : Prop}
    {locals last : Locals} {segments left : List Bytes}
    (hloop : receiveLoop locals segments = some (last, left))
    (hnonempty : ∀ segment ∈ segments, segment ≠ [])
    (hfit : ∀ segment ∈ segments, segment.length ≤ locals.bytes.length) :
    Relation.ReflTransGen (fun p q => Peer.Step order next gone p none q)
      ⟨segments.flatten, some locals⟩ ⟨left.flatten, some last⟩ := by
  induction segments generalizing locals with
  | nil =>
    unfold receiveLoop at hloop
    split_ifs at hloop
    cases hloop
    exact .refl
  | cons segment later ih =>
    obtain ⟨hfirst, hlater⟩ := List.forall_mem_cons.mp hfit
    unfold receiveLoop at hloop
    split_ifs at hloop with hi
    · refine .head (.receive segment later.flatten hi (hnonempty _ List.mem_cons_self) hfirst) ?_
      rw [← locals.length_receive hfirst] at hlater
      exact ih hloop (fun s hs => hnonempty s (List.mem_cons_of_mem _ hs)) hlater
    · cases hloop
      exact .refl

inductive Side
  | server
  | client

structure Exchange where
  server : Peer
  client : Peer
  sent : List Int32

/-- The server has sent the opening number, 1 in the source. -/
def Exchange.start (order : Order) (opening : Int32) : Exchange :=
  ⟨⟨[], some .start⟩, ⟨getBytes order opening, some .start⟩, [opening]⟩

inductive Exchange.Step (order : Order) (next : Int32 → Int32) :
    Exchange → Side × Option Int32 → Exchange → Prop
  | server {x : Exchange} {numb : Option Int32} {p : Peer}
      (hstep : Peer.Step order next (x.client.locals = none) x.server numb p) :
      Step order next x (.server, numb)
        ⟨p, x.client.deliver order numb, x.sent ++ numb.toList⟩
  | client {x : Exchange} {numb : Option Int32} {p : Peer}
      (hstep : Peer.Step order next (x.server.locals = none) x.client numb p) :
      Step order next x (.client, numb)
        ⟨x.server.deliver order numb, p, x.sent ++ numb.toList⟩

section Turns
variable {order : Order} {next : Int32 → Int32} {opening : Int32} {gone : Prop} {n : ℕ}
  {active idle p : Peer} {numb : Int32}

inductive Holds (order : Order) (last : Int32) : Peer → Prop
  | waiting {locals : Locals} (hi : locals.i < 4) :
      Holds order last ⟨getBytes order last, some locals⟩
  | stuck {inbox : Bytes} {locals : Locals} (hi : locals.i < 4) (hinbox : inbox.length < 4) :
      Holds order last ⟨inbox, some locals⟩
  | read {locals : Locals} (hi : 4 ≤ locals.i)
      (hbytes : locals.bytes.take 4 = getBytes order last) :
      Holds order last ⟨[], some locals⟩
  | left {inbox : Bytes} : Holds order last ⟨inbox, none⟩

inductive Waits : Peer → Prop
  | receiving {locals : Locals} (hi : locals.i < 4) : Waits ⟨[], some locals⟩
  | left : Waits ⟨[], none⟩

/-- The sender of the number in place `n` goes on only if it is at most 10000. The
opening number is not tested. -/
def Stays (next : Int32 → Int32) (opening : Int32) (n : ℕ) : Prop :=
  0 < n → next^[n] opening ≤ 10000

structure Turn (order : Order) (next : Int32 → Int32) (opening : Int32) (n : ℕ)
    (active idle : Peer) : Prop where
  holds : Holds order (next^[n] opening) active
  waits : Waits idle
  activeStays : active.locals ≠ none → ∀ m, n = m + 1 → Stays next opening m
  idleStays : idle.locals ≠ none → Stays next opening n
  earlier : ∀ m, m + 2 ≤ n → Stays next opening m

theorem Holds.receiving {last : Int32} {inbox : Bytes} {locals : Locals}
    (h : Holds order last ⟨inbox, some locals⟩) (hi : locals.i < 4) :
    inbox = getBytes order last ∨ inbox.length < 4 := by
  cases h with
  | waiting => exact .inl rfl
  | stuck _ hinbox => exact .inr hinbox
  | read hread => exact absurd hi (Nat.not_lt.mpr hread)

theorem Holds.replying {last : Int32} {inbox : Bytes} {locals : Locals}
    (h : Holds order last ⟨inbox, some locals⟩) (hi : 4 ≤ locals.i) :
    inbox = [] ∧ toInt32 order locals.bytes = last := by
  cases h with
  | waiting hlt => exact absurd hi (Nat.not_le.mpr hlt)
  | stuck hlt => exact absurd hi (Nat.not_le.mpr hlt)
  | read _ hbytes => exact ⟨rfl, toInt32_getBytes order last hbytes⟩

theorem Holds.length_le {last : Int32} {segment rest : Bytes} {locals : Locals}
    (h : Holds order last ⟨segment ++ rest, some locals⟩) (hi : locals.i < 4) :
    segment.length + rest.length ≤ 4 := by
  rw [← List.length_append]
  rcases h.receiving hi with hwhole | hshort
  · rw [hwhole, length_getBytes]
  · exact hshort.le

theorem Holds.step (h : Holds order numb active)
    (hstep : Peer.Step order next gone active none p) : Holds order numb p := by
  cases hstep with
  | receive segment rest hi hnonempty hfit =>
    have hpos := List.length_pos_iff.mpr hnonempty
    have hlength := h.length_le hi
    rcases Nat.lt_or_ge segment.length 4 with hshort | hfull
    · exact .stuck hshort (by omega)
    · obtain rfl : rest = [] := List.eq_nil_of_length_eq_zero (by omega)
      rw [List.append_nil] at h
      refine .read hfull ?_
      rcases h.receiving hi with hwhole | hshort
      · rw [Locals.take_receive _ (by omega), hwhole]
      · omega
  | receiveEnd hi _ => exact .stuck (show 0 < 4 by decide) (show 0 < 4 by decide)
  | throw => exact .left

theorem Holds.send {last : Int32} (h : Holds order last active)
    (hstep : Peer.Step order next gone active (some numb) p) :
    numb = next last ∧ Waits p ∧ (p.locals ≠ none → numb ≤ 10000) := by
  cases hstep with
  | reply hi hnext =>
    obtain ⟨rfl, hlast⟩ := h.replying hi
    rw [hlast] at hnext ⊢
    exact ⟨rfl, .receiving (show 0 < 4 by decide), fun _ => hnext⟩
  | leave hi =>
    obtain ⟨rfl, hlast⟩ := h.replying hi
    rw [hlast]
    exact ⟨rfl, .left, fun hne => absurd rfl hne⟩

theorem Waits.receiving_iff {inbox : Bytes} {locals : Locals} :
    Waits ⟨inbox, some locals⟩ ↔ inbox = [] ∧ locals.i < 4 := by
  constructor
  · rintro ⟨hi⟩
    exact ⟨rfl, hi⟩
  · rintro ⟨rfl, hi⟩
    exact .receiving hi

theorem Waits.step {sent : Option Int32} (h : Waits idle)
    (hstep : Peer.Step order next gone idle sent p) : sent = none ∧ Waits p := by
  cases hstep with
  | receive segment rest hi hnonempty hfit =>
    have hempty := (Waits.receiving_iff.mp h).1
    exact absurd (List.append_eq_nil_iff.mp hempty).1 hnonempty
  | receiveEnd hi _ => exact ⟨rfl, .receiving (show 0 < 4 by decide)⟩
  | reply hi _ => exact absurd (Waits.receiving_iff.mp h).2 (Nat.not_lt.mpr hi)
  | leave hi => exact absurd (Waits.receiving_iff.mp h).2 (Nat.not_lt.mpr hi)
  | throw =>
    obtain ⟨rfl, -⟩ := Waits.receiving_iff.mp h
    exact ⟨rfl, .left⟩

theorem Waits.deliver (h : Waits idle) : Holds order numb (idle.deliver order (some numb)) := by
  cases h with
  | receiving hi => exact .waiting hi
  | left => exact .left

theorem Peer.Step.locals_ne_none {sent : Option Int32}
    (hstep : Peer.Step order next gone active sent p) : active.locals ≠ none := by
  cases hstep <;> exact nofun

theorem Turn.active_step (h : Turn order next opening n active idle)
    (hstep : Peer.Step order next gone active none p) : Turn order next opening n p idle where
  holds := h.holds.step hstep
  waits := h.waits
  activeStays _ := h.activeStays hstep.locals_ne_none
  idleStays := h.idleStays
  earlier := h.earlier

theorem Turn.idle_step {sent : Option Int32} (h : Turn order next opening n active idle)
    (hstep : Peer.Step order next gone idle sent p) :
    sent = none ∧ Turn order next opening n active p := by
  obtain ⟨hsent, hwaits⟩ := h.waits.step hstep
  refine ⟨hsent, h.holds, hwaits, h.activeStays, ?_, h.earlier⟩
  exact fun _ => h.idleStays hstep.locals_ne_none

theorem Turn.send (h : Turn order next opening n active idle)
    (hstep : Peer.Step order next gone active (some numb) p) :
    numb = next^[n + 1] opening ∧
      Turn order next opening (n + 1) (idle.deliver order (some numb)) p := by
  obtain ⟨hnumb, hwaits, hsmall⟩ := h.holds.send hstep
  have hanswer : numb = next^[n + 1] opening := by
    rw [hnumb, Function.iterate_succ_apply']
  refine ⟨hanswer, ?_, hwaits, ?_, ?_, ?_⟩
  · rw [← hanswer]
    exact h.waits.deliver
  · rintro hidle m hm
    obtain rfl := Nat.succ.inj hm
    exact h.idleStays hidle
  · intro hp _
    rw [← hanswer]
    exact hsmall hp
  · intro m hm
    rcases Nat.lt_or_ge n (m + 2) with hlast | hearlier
    · exact h.activeStays hstep.locals_ne_none m (by omega)
    · exact h.earlier m hearlier

def numbers (next : Int32 → Int32) (opening : Int32) (n : ℕ) : List Int32 :=
  (List.range n).map fun j => next^[j] opening

theorem numbers_succ :
    numbers next opening (n + 1) = numbers next opening n ++ [next^[n] opening] := by
  unfold numbers
  rw [List.range_succ, List.map_append]
  rfl

theorem length_numbers : (numbers next opening n).length = n :=
  (List.length_map _).trans List.length_range

def Exchange.InTurn (order : Order) (next : Int32 → Int32) (opening : Int32) (n : ℕ)
    (x : Exchange) : Prop :=
  x.sent = numbers next opening (n + 1) ∧
    (Turn order next opening n x.client x.server ∨ Turn order next opening n x.server x.client)

theorem Turn.next_turn {sent : Option Int32} (h : Turn order next opening n active idle)
    (hstep : Peer.Step order next gone active sent p) :
    ∃ m, numbers next opening (m + 1) = numbers next opening (n + 1) ++ sent.toList ∧
      (Turn order next opening m p (idle.deliver order sent) ∨
        Turn order next opening m (idle.deliver order sent) p) := by
  cases sent with
  | none => exact ⟨n, (List.append_nil _).symm, .inl (h.active_step hstep)⟩
  | some numb =>
    obtain ⟨hnumb, hturn⟩ := h.send hstep
    refine ⟨n + 1, ?_, .inr hturn⟩
    rw [numbers_succ, ← hnumb]
    rfl

theorem Exchange.start_inTurn : (Exchange.start order opening).InTurn order next opening 0 where
  left := rfl
  right := .inl {
    holds := .waiting (show 0 < 4 by decide)
    waits := .receiving (show 0 < 4 by decide)
    activeStays := nofun
    idleStays := nofun
    earlier := nofun }

theorem Exchange.InTurn.length_sent {x : Exchange} (h : x.InTurn order next opening n) :
    x.sent.length = n + 1 := by
  rw [h.1, length_numbers]

theorem Exchange.InTurn.step {x y : Exchange} {label : Side × Option Int32}
    (h : x.InTurn order next opening n) (hstep : Exchange.Step order next x label y) :
    ∃ m, y.InTurn order next opening m := by
  obtain ⟨hsent, hturn⟩ := h
  cases hstep with
  | server hstep =>
    rcases hturn with hidle | hactive
    · obtain ⟨rfl, hturn⟩ := hidle.idle_step hstep
      exact ⟨n, (List.append_nil _).trans hsent, .inl hturn⟩
    · obtain ⟨m, hnumbers, hturn⟩ := hactive.next_turn hstep
      exact ⟨m, (congrArg (· ++ _) hsent).trans hnumbers.symm, hturn.symm⟩
  | client hstep =>
    rcases hturn with hactive | hidle
    · obtain ⟨m, hnumbers, hturn⟩ := hactive.next_turn hstep
      exact ⟨m, (congrArg (· ++ _) hsent).trans hnumbers.symm, hturn⟩
    · obtain ⟨rfl, hturn⟩ := hidle.idle_step hstep
      exact ⟨n, (List.append_nil _).trans hsent, .inr hturn⟩

variable {x : Exchange}
  (h : Reachable (Exchange.Step order next) (Exchange.start order opening) x)
include h

theorem Exchange.inTurn : ∃ n, x.InTurn order next opening n := by
  refine h.invariant (fun y => ∃ n, y.InTurn order next opening n) ?_ ⟨0, start_inTurn⟩
  rintro y label z ⟨n, hturn⟩ hstep
  exact hturn.step hstep

/-- However the streams are cut, each number sent is the next after the one before it. -/
theorem Exchange.sent_eq : x.sent = numbers next opening x.sent.length := by
  obtain ⟨n, hturn⟩ := Exchange.inTurn h
  rw [hturn.length_sent]
  exact hturn.1

theorem Exchange.stays {m : ℕ} (hm : m + 2 < x.sent.length) : Stays next opening m := by
  obtain ⟨n, hturn⟩ := Exchange.inTurn h
  rw [hturn.length_sent] at hm
  rcases hturn.2 with hturn | hturn
  · exact hturn.earlier m (by omega)
  · exact hturn.earlier m (by omega)

end Turns

section Starvation
variable {order : Order} {next : Int32 → Int32} {opening : Int32} {gone : Prop}

def Peer.Starved (p : Peer) : Prop :=
  ∀ locals, p.locals = some locals → locals.i < 4 ∧ p.inbox.length < 4

theorem Peer.Starved.step {p q : Peer} {sent : Option Int32} (h : p.Starved)
    (hstep : Peer.Step order next gone p sent q) : sent = none ∧ q.Starved := by
  cases hstep with
  | receive segment rest hi hnonempty hfit =>
    have hlength := (h _ rfl).2
    rw [List.length_append] at hlength
    refine ⟨rfl, ?_⟩
    rintro locals ⟨⟩
    exact ⟨show segment.length < 4 by omega, show rest.length < 4 by omega⟩
  | receiveEnd hi _ =>
    refine ⟨rfl, ?_⟩
    rintro locals ⟨⟩
    exact ⟨show 0 < 4 by decide, show 0 < 4 by decide⟩
  | reply hi _ => exact absurd (h _ rfl).1 (Nat.not_lt.mpr hi)
  | leave hi => exact absurd (h _ rfl).1 (Nat.not_lt.mpr hi)
  | throw => exact ⟨rfl, nofun⟩

theorem Turn.starved {n : ℕ} {segment rest : Bytes} {locals : Locals} {idle : Peer}
    (h : Turn order next opening n ⟨segment ++ rest, some locals⟩ idle) (hi : locals.i < 4)
    (hnonempty : segment ≠ []) (hshort : segment.length < 4) :
    Peer.Starved ⟨rest, some (locals.receive segment)⟩ ∧ idle.Starved := by
  have hpos := List.length_pos_iff.mpr hnonempty
  have hlength := h.holds.length_le hi
  constructor
  · rintro locals ⟨⟩
    exact ⟨hshort, show rest.length < 4 by omega⟩
  · intro locals hlocals
    have hwaits := h.waits
    obtain ⟨inbox, _⟩ := idle
    obtain rfl : _ = some locals := hlocals
    obtain ⟨rfl, hlt⟩ := Waits.receiving_iff.mp hwaits
    exact ⟨hlt, show 0 < 4 by decide⟩

/-- No number is sent any more. -/
theorem Exchange.starved {x y : Exchange} (hserver : x.server.Starved)
    (hclient : x.client.Starved) (h : Reachable (Exchange.Step order next) x y) :
    y.sent = x.sent ∧ y.server.Starved ∧ y.client.Starved := by
  refine h.invariant
    (fun z => z.sent = x.sent ∧ z.server.Starved ∧ z.client.Starved) ?_ ⟨rfl, hserver, hclient⟩
  rintro z label w ⟨hsent, hserver, hclient⟩ hstep
  cases hstep with
  | server hstep =>
    obtain ⟨rfl, hstarved⟩ := hserver.step hstep
    exact ⟨(List.append_nil _).trans hsent, hstarved, hclient⟩
  | client hstep =>
    obtain ⟨rfl, hstarved⟩ := hclient.step hstep
    exact ⟨(List.append_nil _).trans hsent, hserver, hstarved⟩

end Starvation

section Fibonacci
variable {unspecified : ℤ → Int32} {k : ℕ} {opening : Int32} (hk : 2 ≤ k)
  (hopening : opening.toInt = Nat.fib k)
include hk hopening

theorem iterate_nextFibonacci {j : ℕ} (h : Nat.fib (k + j) < 2 ^ 31) :
    ((nextFibonacci unspecified)^[j] opening).toInt = Nat.fib (k + j) := by
  induction j with
  | zero => exact hopening
  | succ j ih =>
    have hle : Nat.fib (k + j) ≤ Nat.fib (k + j + 1) := Nat.fib_le_fib_succ
    rw [← Nat.add_assoc] at h ⊢
    rw [Function.iterate_succ_apply']
    exact nextFibonacci_fib unspecified (by omega) (ih (by omega)) h

theorem Exchange.fib_lt {order : Order} {x : Exchange} (hearly : k ≤ 44)
    (h : Reachable (Exchange.Step order (nextFibonacci unspecified)) (.start order opening) x)
    {j : ℕ} (hj : j < x.sent.length) : Nat.fib (k + j) < 2 ^ 31 := by
  have hlast : Nat.fib 46 < 2 ^ 31 := by decide +kernel
  by_contra hlarge
  have hfar : 46 < k + j := by
    by_contra hle
    have hmono : Nat.fib (k + j) ≤ Nat.fib 46 := Nat.fib_mono (by omega)
    omega
  -- the 45th Fibonacci number would have been followed by two others
  have hstays := Exchange.stays h (m := 45 - k) (by omega) (by omega)
  have hplace : k + (45 - k) = 45 := by omega
  have hint : Nat.fib (k + (45 - k)) < 2 ^ 31 := by
    rw [hplace]
    decide +kernel
  have hvalue : ((nextFibonacci unspecified)^[45 - k] opening).toInt = Nat.fib (k + (45 - k)) :=
    iterate_nextFibonacci hk hopening hint
  have hle := Int32.le_iff_toInt_le.mp hstays
  rw [hvalue, hplace] at hle
  exact absurd hle (by decide +kernel)

end Fibonacci

/-- The step of the golden ratio yields the next Fibonacci number while that is an
`int`, and the numbers sent are consecutive Fibonacci numbers as long. -/
theorem exchange_fibonacci (unspecified : ℤ → Int32) (order : Order) :
    (∀ k, 2 ≤ k → ¬IsTie (golden (Nat.fib k)) ∧
      roundHalfEven (golden (Nat.fib k)) = Nat.fib (k + 1)) ∧
    (∀ k (n : Int32), 2 ≤ k → n.toInt = Nat.fib k → Nat.fib (k + 1) < 2 ^ 31 →
      (nextFibonacci unspecified n).toInt = Nat.fib (k + 1)) ∧
    ∀ k (opening : Int32) (x : Exchange), 2 ≤ k → opening.toInt = Nat.fib k →
      Reachable (Exchange.Step order (nextFibonacci unspecified)) (.start order opening) x →
      ∀ (j : ℕ) (numb : Int32), x.sent[j]? = some numb → k ≤ 44 ∨ Nat.fib (k + j) < 2 ^ 31 →
        numb.toInt = Nat.fib (k + j) := by
  refine ⟨fun k hk => ?_, fun k n hk hn hint => nextFibonacci_fib unspecified hk hn hint, ?_⟩
  · have hnear := abs_golden_fib_sub_lt hk
    exact ⟨not_isTie_of_abs_sub_lt hnear, roundHalfEven_of_abs_sub_lt hnear⟩
  · intro k opening x hk hopening hreach j numb hnumb hrange
    obtain ⟨hj, -⟩ := List.getElem?_eq_some_iff.mp hnumb
    have hint : Nat.fib (k + j) < 2 ^ 31 :=
      hrange.elim (fun hearly => Exchange.fib_lt hk hopening hearly hreach hj) id
    have hvalue : numb = (nextFibonacci unspecified)^[j] opening := by
      rw [Exchange.sent_eq hreach, numbers, List.getElem?_map, List.getElem?_range hj] at hnumb
      exact (Option.some_inj.mp hnumb).symm
    rw [hvalue]
    exact iterate_nextFibonacci hk hopening hint

theorem exchange_fibonacci_one : (nextFibonacci (fun _ => 0) 1).toInt = 2 ∧
    ∃ x, Reachable (Exchange.Step .little (nextFibonacci fun _ => 0)) (.start .little 1) x ∧
      x.sent.length = 2 ∧
      ∀ (j : ℕ) (numb : Int32), x.sent[j]? = some numb → numb.toInt = Nat.fib (2 + j) := by
  obtain ⟨-, hnext, hsent⟩ := exchange_fibonacci (fun _ => 0) .little
  have htwo : (nextFibonacci (fun _ => 0) 1).toInt = 2 :=
    hnext 2 1 le_rfl rfl (by decide)
  have hsmall : nextFibonacci (fun _ => 0) 1 ≤ 10000 := by
    rw [Int32.le_iff_toInt_le, htwo]
    decide
  have hread : Peer.Step .little (nextFibonacci fun _ => 0) (some Locals.start = none)
      ⟨getBytes .little 1, some .start⟩ none ⟨[], some (Locals.start.receive [1, 0, 0, 0])⟩ :=
    .receive [1, 0, 0, 0] [] (by decide) nofun (by simp)
  have hreply : Peer.Step .little (nextFibonacci fun _ => 0) (some Locals.start = none)
      ⟨[], some (Locals.start.receive [1, 0, 0, 0])⟩ (some (nextFibonacci (fun _ => 0) 1))
      ⟨[], some .start⟩ :=
    .reply (by decide) hsmall
  have hreach := Reachable.head (Exchange.Step.client (x := .start .little 1) hread)
    (.head (.client hreply) (.refl _))
  refine ⟨htwo, _, hreach, rfl, fun j numb hnumb => ?_⟩
  exact hsent 2 1 _ le_rfl rfl hreach j numb hnumb (.inl (by decide))

/-- The 46th Fibonacci number is an `int`, the one after it is not. -/
theorem nextFibonacci_fib_overflow :
    ¬∃ unspecified : ℤ → Int32, ∀ (k : ℕ) (n : Int32), 2 ≤ k → n.toInt = Nat.fib k →
      (nextFibonacci unspecified n).toInt = Nat.fib (k + 1) := by
  rintro ⟨unspecified, hall⟩
  have hvalue : _ = (Nat.fib 47 : ℤ) := hall 46 1836311903 (by decide) (by decide +kernel)
  have hlt := (nextFibonacci unspecified 1836311903).toInt_lt
  have hlarge : 2 ^ 31 ≤ Nat.fib 47 := by decide +kernel
  omega

end Netsvc.CsSocketApp
