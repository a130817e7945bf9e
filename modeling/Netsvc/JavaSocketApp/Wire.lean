import Mathlib.Data.List.Basic
import Netsvc.JavaSocketApp.FibSocket

/-! The byte `dos.write` sends of an `int`, and what the server of `FibSocket.java`
shows of the results. -/
namespace Netsvc.JavaSocketApp
open Netsvc.Library.Fibonacci Netsvc.Library.Transition

theorem toInt_readByte (byte : UInt8) : (readByte byte).toInt = byte.toNat := by
  have hlt := byte.toNat_lt
  exact Int32.toInt_ofNat_of_lt (by omega)

theorem toNat_lowByte (v : Int32) : ((lowByte v).toNat : ℤ) = v.toInt % 256 := by
  have hlt := v.toUInt32.toNat_lt
  have hsigned : v.toInt = (v.toUInt32.toNat : ℤ).bmod (2 ^ 32) := BitVec.toInt_eq_toNat_bmod _
  have hword : v.toInt % 2 ^ 32 = v.toUInt32.toNat := by
    rw [hsigned]
    refine (Int.bmod_emod ..).trans (Int.emod_eq_of_lt ?_ ?_) <;> omega
  unfold lowByte
  rw [UInt32.toNat_toUInt8]
  omega

/-- One byte carries the numbers from 0 to 255, and no others. -/
theorem readByte_lowByte_iff (v : Int32) :
    readByte (lowByte v) = v ↔ 0 ≤ v.toInt ∧ v.toInt < 256 := by
  rw [← Int32.toInt_inj, toInt_readByte, toNat_lowByte]
  constructor
  · intro h
    have hlo := Int.emod_nonneg v.toInt (show (256 : ℤ) ≠ 0 by decide)
    have hhi := Int.emod_lt_of_pos v.toInt (show (0 : ℤ) < 256 by decide)
    omega
  · rintro ⟨hlo, hhi⟩
    exact Int.emod_eq_of_lt hlo hhi

section Fib
variable {n i a b v : Int32} {rounds : ℕ}

theorem fibFor_some (hmax : n.toInt < 2 ^ 31 - 1) (hi : 0 ≤ i.toInt)
    (h : fibFor rounds n i a b = some v) : v = fibLoop (n.toInt + 1 - i.toInt).toNat a b := by
  induction rounds generalizing i a b with
  | zero => cases h
  | succ rounds ih =>
    unfold fibFor at h
    split_ifs at h with hle
    · have hlei := Int32.le_iff_toInt_le.mp hle
      have hnext := toInt_add_one hi hlei hmax
      have hcount : (n.toInt + 1 - i.toInt).toNat = (n.toInt + 1 - (i + 1).toInt).toNat + 1 := by
        omega
      rw [ih (by omega) h, hcount]
      rfl
    · have hlt : n.toInt < i.toInt := Int.not_le.mp (mt Int32.le_iff_toInt_le.mpr hle)
      have hcount : (n.toInt + 1 - i.toInt).toNat = 0 := by omega
      rw [hcount]
      exact (Option.some_inj.mp h).symm

theorem fibFor_max (hmax : ¬n.toInt < 2 ^ 31 - 1) : fibFor rounds n i a b = none := by
  induction rounds generalizing i a b with
  | zero => rfl
  | succ rounds ih =>
    have hlt := i.toInt_lt
    unfold fibFor
    rw [if_pos (Int32.le_iff_toInt_le.mpr (by omega))]
    exact ih

theorem fibWithin_some (h : 0 ≤ n) (hv : fibWithin rounds n = some v) :
    v = Int32.ofNat (Nat.fib n.toNatClampNeg) := by
  rw [← fib_eq h]
  unfold fibWithin at hv
  unfold fib
  split_ifs at hv ⊢ with hzero
  · exact (Option.some_inj.mp hv).symm
  · by_cases hmax : n.toInt < 2 ^ 31 - 1
    · have hvalue := fibFor_some hmax (by decide) hv
      have htwo : Int32.toInt 2 = 2 := rfl
      have hcount : (n.toInt + 1 - 2).toNat = (n.toInt - 1).toNat := by omega
      rwa [htwo, hcount] at hvalue
    · rw [fibFor_max hmax] at hv
      cases hv

end Fib

theorem ofNat_in_byte_iff (m : ℕ) :
    (0 ≤ (Int32.ofNat m).toInt ∧ (Int32.ofNat m).toInt < 256) ↔ m % 2 ^ 32 < 256 := by
  have hsigned : (Int32.ofNat m).toInt = (m : ℤ).bmod (2 ^ 32) := Int32.toInt_ofNat'
  rw [hsigned, Int.bmod_def]
  omega

def answerByte (byte : UInt8) : UInt8 := lowByte (fib (readByte byte))

inductive Answered : ClientPoint → List UInt8 → List UInt8 → Prop
  | reading (taken : List UInt8) : Answered .reading taken (taken.map answerByte)
  | computed (done : List UInt8) (byte : UInt8) :
      Answered (.computed (fib (readByte byte))) (done ++ [byte]) (done.map answerByte)
  | exited {taken answered : List UInt8} (h : answered <+: taken.map answerByte) :
      Answered .exited taken answered

theorem Answered.prefix {client : ClientPoint} {taken answered : List UInt8}
    (h : Answered client taken answered) : answered <+: taken.map answerByte := by
  cases h with
  | reading => exact List.prefix_refl _
  | computed done byte =>
    rw [List.map_append]
    exact List.prefix_append _ _
  | exited h => exact h

def FibSocket.numbers (s : FibSocket) : List Int32 :=
  s.consumed.map Prod.snd ++ match s.main with
    | .testing numb => [numb]
    | _ => []

/-- Until the server ends, the bytes go round in order: sent, taken, answered and read.
Behind them it may read `ends` ends of the stream. -/
structure FibSocket.Pipeline (s : FibSocket) (taken answered read : List UInt8) (ends : ℕ) :
    Prop where
  sent : s.sent.map Prod.snd = taken ++ s.toClient
  answers : Answered s.client taken answered
  received : answered = read ++ s.toServer
  numbers : s.numbers = read.map readByte ++ List.replicate ends endOfStream
  gone : 0 < ends → s.client = .exited ∧ s.toServer = []

def FibSocket.InOrder (s : FibSocket) : Prop :=
  ∀ (j : ℕ) (branch : Branch) (numb : Int32), s.consumed[j]? = some (branch, numb) →
    numb ≠ endOfStream →
    ∃ writer byte, s.sent[j]? = some (writer, byte) ∧ numb = readByte (answerByte byte)

theorem FibSocket.Pipeline.inOrder {s : FibSocket} {taken answered read : List UInt8} {ends : ℕ}
    (h : s.Pipeline taken answered read ends) : s.InOrder := by
  intro j branch numb hnumb hend
  have hlt : j < (s.consumed.map Prod.snd).length := by
    rw [List.length_map]
    exact (List.getElem?_eq_some_iff.mp hnumb).1
  have hnumbers : s.numbers[j]? = some numb := by
    unfold FibSocket.numbers
    rw [List.getElem?_append_left hlt, List.getElem?_map, hnumb]
    rfl
  rw [h.numbers] at hnumbers
  have hread : j < (read.map readByte).length := by
    by_contra hge
    rw [List.getElem?_append_right (Nat.le_of_not_lt hge)] at hnumbers
    exact hend (List.eq_of_mem_replicate (List.mem_of_getElem? hnumbers))
  rw [List.getElem?_append_left hread, List.getElem?_map] at hnumbers
  obtain ⟨answer, hanswer, rfl⟩ := Option.map_eq_some_iff.mp hnumbers
  -- the byte read is an answer, and so the answer to a byte taken
  have hprefix : read <+: taken.map answerByte :=
    (List.prefix_append _ _).trans (h.received ▸ h.answers.prefix)
  have htaken : (taken.map answerByte)[j]? = some answer := by
    obtain ⟨rest, hrest⟩ := hprefix
    rw [← hrest, List.getElem?_append_left (List.getElem?_eq_some_iff.mp hanswer).1, hanswer]
  rw [List.getElem?_map] at htaken
  obtain ⟨byte, hbyte, rfl⟩ := Option.map_eq_some_iff.mp htaken
  have hsent : (s.sent.map Prod.snd)[j]? = some byte := by
    rw [h.sent, List.getElem?_append_left (List.getElem?_eq_some_iff.mp hbyte).1, hbyte]
  rw [List.getElem?_map] at hsent
  obtain ⟨⟨writer, _⟩, hpair, rfl⟩ := Option.map_eq_some_iff.mp hsent
  exact ⟨writer, _, hpair, rfl⟩

section Pipeline
variable {s : FibSocket} {taken answered read : List UInt8} {ends : ℕ}
  (h : s.Pipeline taken answered read ends)
include h

theorem FibSocket.Pipeline.send (temp : Fin 30) :
    (s.sendIndex temp).Pipeline taken answered read ends := by
  refine ⟨?_, h.answers, h.received, h.numbers, h.gone⟩
  simp [FibSocket.sendIndex, h.sent]

theorem FibSocket.Pipeline.serverRead {byte : UInt8} {rest : List UInt8} (hm : s.main = .reading)
    (hr : s.toServer = byte :: rest) :
    { s with main := .testing (readByte byte), toServer := rest }.Pipeline
      taken answered (read ++ [byte]) 0 := by
  have hnumbers := h.numbers
  unfold FibSocket.numbers at hnumbers
  have hnone : ends = 0 := by
    by_contra hne
    have hempty := (h.gone (Nat.pos_of_ne_zero hne)).2
    rw [hr] at hempty
    cases hempty
  subst hnone
  rw [hm, List.append_nil, List.replicate_zero, List.append_nil] at hnumbers
  refine ⟨h.sent, h.answers, ?_, ?_, nofun⟩
  · rw [h.received, hr, List.append_assoc]
    rfl
  · simp [FibSocket.numbers, hnumbers]

theorem FibSocket.Pipeline.test {numb : Int32} (hm : s.main = .testing numb) :
    (s.test numb).Pipeline taken answered read ends := by
  have hnumbers := h.numbers
  unfold FibSocket.numbers at hnumbers
  rw [hm] at hnumbers
  have htested : ∀ branch, (s.consumed ++ [(branch, numb)]).map Prod.snd =
      read.map readByte ++ List.replicate ends endOfStream := by
    intro branch
    simpa using hnumbers
  unfold FibSocket.test
  split_ifs
  · exact ⟨h.sent, h.answers, h.received, (List.append_nil _).trans (htested .index), h.gone⟩
  · exact ⟨h.sent, h.answers, h.received, (List.append_nil _).trans (htested .result), h.gone⟩

theorem FibSocket.Pipeline.clientRead {byte : UInt8} {rest : List UInt8}
    (hc : s.client = .reading) (hr : s.toClient = byte :: rest) :
    { s with client := .computed (fib (readByte byte)), toClient := rest }.Pipeline
      (taken ++ [byte]) answered read ends := by
  have hanswers := h.answers
  rw [hc] at hanswers
  cases hanswers
  refine ⟨?_, .computed taken byte, h.received, h.numbers, fun hpos => ?_⟩
  · rw [h.sent, hr, List.append_assoc]
    rfl
  · exact absurd (hc.symm.trans (h.gone hpos).1) (by simp)

theorem FibSocket.Pipeline.clientReply {numb : Int32} (hc : s.client = .computed numb) :
    { s with
      client := .reading, clientCurr := s.clientCurr + 1
      toServer := s.toServer ++ [lowByte numb] }.Pipeline
      taken (taken.map answerByte) read ends := by
  have hanswers := h.answers
  rw [hc] at hanswers
  cases hanswers with
  | computed done byte =>
    refine ⟨h.sent, .reading _, ?_, h.numbers, fun hpos => ?_⟩
    · rw [List.map_append, h.received, List.append_assoc]
      rfl
    · exact absurd (hc.symm.trans (h.gone hpos).1) (by simp)

theorem FibSocket.Pipeline.step {s' : FibSocket} {e : Event}
    (hstep : FibSocket.Step s e s') (hmain : s'.main ≠ .exited) (hbefore : s.main ≠ .exited) :
    ∃ taken answered read ends, s'.Pipeline taken answered read ends := by
  have hnumbers := h.numbers
  unfold FibSocket.numbers at hnumbers
  cases hstep with
  | startWrite temp hm =>
    rw [hm] at hnumbers
    exact ⟨taken, answered, read, ends, (h.send temp).sent, h.answers, h.received, hnumbers, h.gone⟩
  | timerWrite temp ht =>
    exact ⟨taken, answered, read, ends, (h.send temp).sent, h.answers, h.received, hnumbers, h.gone⟩
  | startLower hm | startCancel hm | raise hm =>
    rw [hm] at hnumbers
    exact ⟨taken, answered, read, ends, h.sent, h.answers, h.received, hnumbers, h.gone⟩
  | timerLower | timerCancel =>
    exact ⟨taken, answered, read, ends, h.sent, h.answers, h.received, hnumbers, h.gone⟩
  | read hm _ hr => exact ⟨_, _, _, _, h.serverRead hm hr⟩
  | readEnd hm _ hr hc =>
    rw [hm, List.append_nil] at hnumbers
    refine ⟨taken, answered, read, ends + 1, h.sent, h.answers, h.received, ?_, fun _ => ⟨hc, hr⟩⟩
    simp [FibSocket.numbers, hnumbers, List.replicate_succ']
  | test hm => exact ⟨_, _, _, _, h.test hm⟩
  | reply hm =>
    rw [hm] at hnumbers
    refine ⟨taken, answered, read, ends, ?_, h.answers, h.received, hnumbers, h.gone⟩
    simp [h.sent]
  | exit => exact absurd rfl hmain
  | clientRead hc _ hr => exact ⟨_, _, _, _, h.clientRead hc hr⟩
  | clientReadEnd _ _ _ hexited => exact absurd hexited hbefore
  | clientReply hc => exact ⟨_, _, _, _, h.clientReply hc⟩
  | clientExit hc =>
    refine ⟨taken, answered, read, ends, h.sent, .exited h.answers.prefix, h.received, hnumbers, ?_⟩
    exact fun hpos => ⟨rfl, (h.gone hpos).2⟩

end Pipeline

structure FibSocket.Recorded (s : FibSocket) : Prop where
  inOrder : s.InOrder
  indexes : ∀ p ∈ s.sent, p.1 = .task → p.2.toNat < 30
  pipeline : s.main ≠ .exited → ∃ taken answered read ends, s.Pipeline taken answered read ends

theorem FibSocket.InOrder.of_prefix {s s' : FibSocket} (h : s.InOrder)
    (hconsumed : s'.consumed = s.consumed) (hsent : s.sent <+: s'.sent) : s'.InOrder := by
  intro j branch numb hnumb hend
  rw [hconsumed] at hnumb
  obtain ⟨writer, byte, hpair, hvalue⟩ := h j branch numb hnumb hend
  obtain ⟨rest, hrest⟩ := hsent
  refine ⟨writer, byte, ?_, hvalue⟩
  rw [← hrest, List.getElem?_append_left (List.getElem?_eq_some_iff.mp hpair).1, hpair]

theorem toNat_ofNat_index (temp : Fin 30) : (UInt8.ofNat temp).toNat < 30 := by
  rw [UInt8.toNat_ofNat', Nat.mod_eq_of_lt (by omega)]
  exact temp.isLt

theorem FibSocket.Step.sent_eq {s s' : FibSocket} {e : Event} (h : FibSocket.Step s e s') :
    ∃ late, s'.sent = s.sent ++ late ∧ ∀ p ∈ late, p.1 = .task → p.2.toNat < 30 := by
  cases h with
  | startWrite temp | timerWrite temp =>
    exact ⟨[(.task, UInt8.ofNat temp)], rfl,
      List.forall_mem_singleton.mpr fun _ => toNat_ofNat_index temp⟩
  | @reply numb =>
    exact ⟨[(.main, lowByte numb)], rfl, List.forall_mem_singleton.mpr nofun⟩
  | @test numb =>
    refine ⟨[], ?_, nofun⟩
    unfold FibSocket.test
    split_ifs <;> simp
  | startLower | startCancel | timerLower | timerCancel | read | readEnd | raise | exit
  | clientRead | clientReadEnd | clientReply | clientExit =>
    exact ⟨[], (List.append_nil _).symm, nofun⟩

theorem FibSocket.Step.main_eq_exited {s s' : FibSocket} {e : Event}
    (h : FibSocket.Step s e s') (hmain : s.main = .exited) : s'.main = .exited := by
  cases h with
  | startWrite _ hm | startLower hm | startCancel hm | read hm | readEnd hm | test hm | raise hm
  | reply hm => simp [hmain] at hm
  | exit => rfl
  | timerWrite | timerLower | timerCancel | clientRead | clientReadEnd | clientReply
  | clientExit => exact hmain

theorem FibSocket.Step.consumed_eq {s s' : FibSocket} {e : Event} (h : FibSocket.Step s e s')
    (hmain : s'.main = .exited) : s'.consumed = s.consumed := by
  cases h with
  | test =>
    unfold FibSocket.test at hmain
    split_ifs at hmain
  | _ => rfl

theorem FibSocket.Recorded.step {s s' : FibSocket} {e : Event} (h : s.Recorded)
    (hstep : FibSocket.Step s e s') : s'.Recorded := by
  obtain ⟨late, hsent, hlate⟩ := hstep.sent_eq
  have hindexes : ∀ p ∈ s'.sent, p.1 = .task → p.2.toNat < 30 := by
    rw [hsent]
    exact List.forall_mem_append.mpr ⟨h.indexes, hlate⟩
  have hprefix : s.sent <+: s'.sent := ⟨late, hsent.symm⟩
  by_cases hafter : s'.main = .exited
  · have hconsumed := hstep.consumed_eq hafter
    exact ⟨h.inOrder.of_prefix hconsumed hprefix, hindexes, fun hne => absurd hafter hne⟩
  · have hbefore : s.main ≠ .exited := fun hmain => hafter (hstep.main_eq_exited hmain)
    obtain ⟨taken, answered, read, ends, hpipeline⟩ := h.pipeline hbefore
    obtain ⟨taken', answered', read', ends', hnext⟩ := hpipeline.step hstep hafter hbefore
    exact ⟨hnext.inOrder, hindexes, fun _ => ⟨taken', answered', read', ends', hnext⟩⟩

theorem FibSocket.start_recorded : FibSocket.start.Recorded where
  inOrder := nofun
  indexes := nofun
  pipeline _ := ⟨[], [], [], 0, rfl, .reading [], rfl, rfl, nofun⟩

theorem readByte_answerByte_iff {byte : UInt8} (h : byte.toNat < 30) :
    readByte (answerByte byte) = fib (readByte byte) ↔ byte.toNat ≤ 13 := by
  have hall : ∀ k : Fin 30, readByte (answerByte (UInt8.ofNat k)) = fib (readByte (UInt8.ofNat k)) ↔
      k.val ≤ 13 := by decide +kernel
  have hbyte := hall ⟨byte.toNat, h⟩
  rwa [UInt8.ofNat_toNat] at hbyte

/-- A number crosses the wire when it fits into a byte; so, of the results the server
shows in a run without confusion, those up to the thirteenth Fibonacci number are right. -/
theorem wire_iff (v : Int32) :
    (readByte (lowByte v) = v ↔ 0 ≤ v.toInt ∧ v.toInt < 256) ∧
      (∀ (rounds : ℕ) (i : Int32), 0 ≤ i → fibWithin rounds i = some v →
        (readByte (lowByte v) = v ↔ Nat.fib i.toNatClampNeg % 2 ^ 32 < 256)) ∧
      ∀ s, Reachable FibSocket.Step FibSocket.start s → s.Safe →
        ∀ j : ℕ, s.consumed[j]? = some (.result, v) → v ≠ endOfStream →
          ∃ byte, s.sent[j]? = some (.task, byte) ∧
            (v = fib (readByte byte) ↔ byte.toNat ≤ 13) := by
  refine ⟨readByte_lowByte_iff v, ?_, ?_⟩
  · intro rounds i hi hv
    rw [readByte_lowByte_iff, fibWithin_some hi hv, ofNat_in_byte_iff]
  · intro s hreach hsafe j hnumb hend
    have hrecorded := hreach.invariant FibSocket.Recorded
      (fun _ _ _ hrec hstep => hrec.step hstep) FibSocket.start_recorded
    obtain ⟨writer, byte, hpair, rfl⟩ := hrecorded.inOrder j .result v hnumb hend
    have hmem := List.mem_of_getElem? hpair
    obtain rfl : writer = .task := hsafe.sent _ hmem
    exact ⟨byte, hpair, readByte_answerByte_iff (hrecorded.indexes _ hmem rfl)⟩

/-- The result 377 of index 14 arrives as 121. -/
theorem wire_loses_fib_fourteen :
    ¬∀ (rounds : ℕ) (i v : Int32), 0 ≤ i → fibWithin rounds i = some v →
      readByte (lowByte v) = v := by
  intro hall
  exact absurd (hall 15 14 377 (by decide) (by decide)) (by decide)

end Netsvc.JavaSocketApp
