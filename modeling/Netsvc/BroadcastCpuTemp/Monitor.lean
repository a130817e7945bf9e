import Mathlib.Logic.Function.Basic
import Netsvc.BroadcastCpuTemp.CpuUsage
import Netsvc.Library.Binary64
import Netsvc.Library.Datagram
import Netsvc.Library.Decimal

/-! `broadcast.cpp` with any number of clients: each sends the text of its value, and
the server shows what arrives. -/
namespace Netsvc.BroadcastCpuTemp
open Netsvc.Library.Binary64 Netsvc.Library.Datagram Netsvc.Library.Decimal
open Netsvc.Library.Transition

/-- `getCurrentValue` with every operation of `percent` rounded to a `double`. -/
def getCurrentDouble (last total : Sample) : Double × Sample :=
  if total.user < last.user ∨ total.userLow < last.userLow ∨ total.sys < last.sys ∨
      total.idle < last.idle then (.finite (-1), total)
  else
    let busy := (total.user - last.user) + (total.userLow - last.userLow) + (total.sys - last.sys)
    let all := busy + (total.idle - last.idle)
    ((quotient (nearest busy.toNat) (nearest all.toNat)).scale 100, total)

/-- `usage_str = to_string(cpu_usage)`. What zero divided by zero leaves is written
with a sign on some machines. -/
def usageStr (nanSigned : Bool) : Double → Text
  | .nan => if nanSigned then ['-', 'n', 'a', 'n'] else ['n', 'a', 'n']
  | .inf => ['i', 'n', 'f']
  | .finite cpuUsage => fixed 6 cpuUsage

/-- `read_data`, with a buffer of `BUFFER_SIZE`. -/
def readData (datagram : Text) : Text := datagram.take 1024

/-- The static variables of a client, and all samples it has read. -/
structure Client where
  last : Sample
  samples : List Sample

structure Monitor (ι : Type*) where
  clients : ι → Client
  network : Network Text
  shown : List Text

def Monitor.start {ι : Type*} : Monitor ι := ⟨fun _ => ⟨Sample.zero, []⟩, .start, []⟩

inductive Event (ι : Type*)
  | client (i : ι) (total : Sample)
  | server (datagram : Text)
  | network

inductive Monitor.Step {ι : Type*} [DecidableEq ι] (duplicates : Prop) (nanSigned : Bool) :
    Monitor ι → Event ι → Monitor ι → Prop
  | client {x : Monitor ι} {network : Network Text} (i : ι) (total : Sample)
      (hsend : Network.Step duplicates x.network
        (.send (usageStr nanSigned (getCurrentDouble (x.clients i).last total).1)) network) :
      Step duplicates nanSigned x (.client i total)
        ⟨Function.update x.clients i ⟨(getCurrentDouble (x.clients i).last total).2,
          (x.clients i).samples ++ [total]⟩, network, x.shown⟩
  | server {x : Monitor ι} {network : Network Text} (datagram : Text)
      (hdeliver : Network.Step duplicates x.network (.deliver datagram) network) :
      Step duplicates nanSigned x (.server datagram)
        ⟨x.clients, network, x.shown ++ [readData datagram]⟩
  | lose {x : Monitor ι} {network : Network Text}
      (hlose : Network.Step duplicates x.network .lose network) :
      Step duplicates nanSigned x .network ⟨x.clients, network, x.shown⟩
  | duplicate {x : Monitor ι} {network : Network Text}
      (hduplicate : Network.Step duplicates x.network .duplicate network) :
      Step duplicates nanSigned x .network ⟨x.clients, network, x.shown⟩

section Doubles
variable {last total : Sample}

theorem getCurrentDouble_snd (last total : Sample) : (getCurrentDouble last total).2 = total := by
  unfold getCurrentDouble
  split_ifs <;> rfl

theorem getCurrentDouble_fst_of_decreases (h : Decreases last total) :
    (getCurrentDouble last total).1 = .finite (-1) := by
  unfold Decreases at h
  unfold getCurrentDouble
  rw [if_pos h]

theorem getCurrentDouble_fst_of_not_decreases (h : ¬Decreases last total) :
    (getCurrentDouble last total).1 = (quotient (nearest (busySum last total : ℚ))
      (nearest ((busySum last total + idleDelta last total) % 2 ^ 64 : ℕ))).scale 100 := by
  have hguard := h
  unfold Decreases at hguard
  unfold getCurrentDouble
  simp only [if_neg hguard, toNat_busy_of_not_decreases h, toNat_all_of_not_decreases h]

theorem Advances.getCurrentDouble_fst (h : Advances last total) :
    ∃ v, (getCurrentDouble last total).1 = .finite v ∧
      |v - usage last total| ≤ 1 / 10 ^ 12 := by
  have hle : (busyDelta last total : ℚ) ≤ (busyDelta last total + idleDelta last total : ℕ) := by
    exact_mod_cast Nat.le_add_right _ _
  have hone : (1 : ℚ) ≤ (busyDelta last total + idleDelta last total : ℕ) := by
    exact_mod_cast h.all_pos
  have hexact : usage last total = (busyDelta last total : ℚ) /
      (busyDelta last total + idleDelta last total : ℕ) * 100 := by
    unfold usage
    push_cast
    ring
  rw [getCurrentDouble_fst_of_not_decreases h.not_decreases, h.busySum_eq,
    Nat.mod_eq_of_lt h.sum_lt, hexact]
  exact scale_quotient (Nat.cast_nonneg _) hle hone

theorem getCurrentDouble_abs_lt {v : ℚ} (h : (getCurrentDouble last total).1 = .finite v) :
    |v| < 10 ^ 23 := by
  by_cases hback : Decreases last total
  · rw [getCurrentDouble_fst_of_decreases hback, Double.finite.injEq] at h
    rw [← h]
    norm_num
  · rw [getCurrentDouble_fst_of_not_decreases hback] at h
    have hbusy : (busySum last total : ℚ) ≤ 2 ^ 64 := by
      exact_mod_cast (Nat.mod_lt _ (by decide)).le
    have hbound := scale_quotient_abs_le (Nat.cast_nonneg _) hbusy (by norm_num) h
    exact hbound.trans_lt (by norm_num)

end Doubles

section Texts
variable {last total : Sample}

theorem readData_usageStr (nanSigned : Bool) :
    readData (usageStr nanSigned (getCurrentDouble last total).1) =
      usageStr nanSigned (getCurrentDouble last total).1 := by
  apply List.take_of_length_le
  cases hvalue : (getCurrentDouble last total).1 with
  | nan => cases nanSigned <;> decide
  | inf =>
    change 3 ≤ 1024
    decide
  | finite v =>
    have hlength : (fixed 6 v).length ≤ 23 + 6 + 3 :=
      length_fixed_le (by decide) (getCurrentDouble_abs_lt hvalue)
    exact hlength.trans (by decide)

theorem usageStr_of_decreases (nanSigned : Bool) (h : Decreases last total) :
    usageStr nanSigned (getCurrentDouble last total).1 = "-1.000000".toList := by
  rw [getCurrentDouble_fst_of_decreases h]
  change fixed 6 (-1) = _
  decide +kernel

theorem value_usageStr (nanSigned : Bool) (h : Advances last total) :
    ∃ w, value (usageStr nanSigned (getCurrentDouble last total).1) = some w ∧
      |w - usage last total| ≤ 1 / 2 / 10 ^ 6 + 1 / 10 ^ 12 := by
  obtain ⟨v, hvalue, hnear⟩ := h.getCurrentDouble_fst
  have hplaces : 0 < 6 := by decide
  obtain ⟨w, hw, hround⟩ := value_fixed hplaces v
  refine ⟨w, ?_, (abs_sub_le w v _).trans (add_le_add hround hnear)⟩
  rw [hvalue]
  exact hw

end Texts

theorem intervals_concat (last total : Sample) (samples : List Sample) :
    intervals last (samples ++ [total]) =
      intervals last samples ++ [((last :: samples).getLast (List.cons_ne_nil _ _), total)] := by
  induction samples generalizing last with
  | nil => rfl
  | cons sample samples ih =>
    have hrest := ih sample
    unfold intervals at *
    rw [List.cons_append, List.zip_cons_cons, hrest]
    rfl

section Runs
variable {ι : Type*} {duplicates : Prop} {nanSigned : Bool} {x y : Monitor ι}

def Monitor.Measured (nanSigned : Bool) (x : Monitor ι) (line : Text) : Prop :=
  ∃ i, ∃ p ∈ intervals Sample.zero (x.clients i).samples,
    line = usageStr nanSigned (getCurrentDouble p.1 p.2).1

structure Monitor.Sound (nanSigned : Bool) (x : Monitor ι) : Prop where
  last_eq : ∀ i, (x.clients i).last =
    (Sample.zero :: (x.clients i).samples).getLast (List.cons_ne_nil _ _)
  genuine : x.network.Genuine
  measured : ∀ line ∈ x.network.sent, x.Measured nanSigned line
  shown : (x.shown : Multiset Text) = x.network.delivered.map readData

theorem Monitor.Sound.start : (Monitor.start : Monitor ι).Sound nanSigned :=
  ⟨fun _ => rfl, .start, fun _ hline => absurd hline (Multiset.notMem_zero _), rfl⟩

theorem Monitor.Measured.mono {line : Text} (h : x.Measured nanSigned line)
    (hsamples : ∀ i, intervals Sample.zero (x.clients i).samples ⊆
      intervals Sample.zero (y.clients i).samples) : y.Measured nanSigned line := by
  obtain ⟨i, p, hp, hline⟩ := h
  exact ⟨i, p, hsamples i hp, hline⟩

theorem Monitor.Sound.shown_eq (h : x.Sound nanSigned) :
    (x.shown : Multiset Text) = x.network.delivered := by
  rw [h.shown]
  refine (Multiset.map_congr rfl fun line hline => ?_).trans (Multiset.map_id _)
  obtain ⟨i, p, -, rfl⟩ := h.measured line (h.genuine.delivered hline)
  exact readData_usageStr nanSigned

variable [DecidableEq ι]

theorem Monitor.Sound.client {network : Network Text} {i : ι} {total : Sample}
    (h : x.Sound nanSigned)
    (hsend : Network.Step duplicates x.network
      (.send (usageStr nanSigned (getCurrentDouble (x.clients i).last total).1)) network) :
    Monitor.Sound nanSigned ⟨Function.update x.clients i
      ⟨(getCurrentDouble (x.clients i).last total).2, (x.clients i).samples ++ [total]⟩,
        network, x.shown⟩ := by
  obtain ⟨hsent, hdelivered⟩ := hsend.of_send
  have hown := intervals_concat Sample.zero total (x.clients i).samples
  refine ⟨fun j => ?_, h.genuine.step hsend, fun line hline => ?_, ?_⟩
  · rcases eq_or_ne j i with rfl | hne
    · simp [getCurrentDouble_snd]
    · simp only [Function.update_of_ne hne]
      exact h.last_eq j
  · rw [hsent, Multiset.mem_cons] at hline
    rcases hline with rfl | hline
    · refine ⟨i, ((x.clients i).last, total), ?_, rfl⟩
      simp [hown, h.last_eq i]
    · refine (h.measured line hline).mono fun j => ?_
      rcases eq_or_ne j i with rfl | hne
      · simp [hown]
      · simp [Function.update_of_ne hne]
  · exact h.shown.trans (congrArg _ hdelivered.symm)

theorem Monitor.Sound.step {e : Event ι} (h : x.Sound nanSigned)
    (hstep : Monitor.Step duplicates nanSigned x e y) : y.Sound nanSigned := by
  cases hstep with
  | client i total hsend => exact h.client hsend
  | server datagram hdeliver =>
    obtain ⟨hsent, hdelivered⟩ := hdeliver.of_deliver
    refine ⟨h.last_eq, h.genuine.step hdeliver, ?_, ?_⟩
    · rw [hsent]
      exact h.measured
    · rw [hdelivered, Multiset.map_cons, ← h.shown, ← Multiset.singleton_add, add_comm,
        ← Multiset.coe_singleton, Multiset.coe_add]
  | lose hlose =>
    obtain ⟨hsent, hdelivered⟩ := hlose.of_lose
    refine ⟨h.last_eq, h.genuine.step hlose, ?_, h.shown.trans (congrArg _ hdelivered.symm)⟩
    rw [hsent]
    exact h.measured
  | duplicate hduplicate =>
    obtain ⟨hsent, hdelivered⟩ := hduplicate.of_duplicate
    refine ⟨h.last_eq, h.genuine.step hduplicate, ?_, h.shown.trans (congrArg _ hdelivered.symm)⟩
    rw [hsent]
    exact h.measured

theorem Monitor.sound (h : Reachable (Monitor.Step duplicates nanSigned) Monitor.start x) :
    x.Sound nanSigned :=
  h.invariant (Monitor.Sound nanSigned) (fun _ _ _ hx hstep => hx.step hstep) .start

theorem Monitor.conserved (hnone : ¬duplicates)
    (h : Reachable (Monitor.Step duplicates nanSigned) Monitor.start x) : x.network.Conserved := by
  refine h.invariant (fun y => y.network.Conserved) (fun y e z hy hstep => ?_) .start
  cases hstep with
  | client _ _ hsend => exact hy.step hnone hsend
  | server _ hdeliver => exact hy.step hnone hdeliver
  | lose hlose => exact hy.step hnone hlose
  | duplicate hduplicate => exact hy.step hnone hduplicate

end Runs

/-- Whatever the network does, no line of the server is made up: it is the text of a
value some client has taken between two of its samples, the marker where a counter
went back, and where the counters advance the usage up to the rounding. If the network
makes no copies, no line appears more often than it was sent. -/
theorem monitor_shows {ι : Type*} [DecidableEq ι] (duplicates : Prop) (nanSigned : Bool)
    (x : Monitor ι) (h : Reachable (Monitor.Step duplicates nanSigned) Monitor.start x) :
    (∀ line ∈ x.shown, ∃ i, ∃ p ∈ intervals Sample.zero (x.clients i).samples,
      line = usageStr nanSigned (getCurrentDouble p.1 p.2).1 ∧
      (Decreases p.1 p.2 → line = "-1.000000".toList) ∧
      (Advances p.1 p.2 → ∃ w, value line = some w ∧
        |w - usage p.1 p.2| ≤ 1 / 2 / 10 ^ 6 + 1 / 10 ^ 12)) ∧
    (¬duplicates → (x.shown : Multiset Text) ≤ x.network.sent) := by
  have hsound := Monitor.sound h
  constructor
  · intro line hline
    have hdelivered : line ∈ x.network.delivered := by
      rw [← hsound.shown_eq]
      exact hline
    obtain ⟨i, p, hp, rfl⟩ := hsound.measured line (hsound.genuine.delivered hdelivered)
    exact ⟨i, p, hp, rfl, usageStr_of_decreases nanSigned, value_usageStr nanSigned⟩
  · intro hnone
    rw [hsound.shown_eq]
    exact (Multiset.le_add_right _ _).trans (Monitor.conserved hnone h)

theorem monitor_shows_quarter : ∃ x : Monitor Unit,
    Reachable (Monitor.Step False false) Monitor.start x ∧
      x.shown = ["25.000000".toList] ∧ (x.shown : Multiset Text) ≤ x.network.sent := by
  set text := usageStr false (getCurrentDouble Sample.zero ⟨1, 0, 0, 3⟩).1 with htext
  have hsend : Monitor.Step False false (Monitor.start : Monitor Unit) (.client () ⟨1, 0, 0, 3⟩)
      ⟨_, ⟨text ::ₘ 0, text ::ₘ 0, 0⟩, []⟩ := .client () _ (.send text)
  have hshow (clients : Unit → Client) : Monitor.Step False false
      ⟨clients, ⟨text ::ₘ 0, text ::ₘ 0, 0⟩, []⟩ (.server text)
      ⟨clients, ⟨text ::ₘ 0, 0, text ::ₘ 0⟩, [readData text]⟩ :=
    .server text (.deliver text)
  have hreach := Reachable.head hsend (reachable_of_step (hshow _))
  refine ⟨_, hreach, ?_, (monitor_shows False false _ hreach).2 not_false⟩
  rw [htext]
  decide +kernel

end Netsvc.BroadcastCpuTemp
