import Mathlib.Algebra.Order.Field.Rat
import Mathlib.Tactic.FieldSimp
import Mathlib.Tactic.Positivity
import Mathlib.Tactic.Ring

/-! The processor usage the C and the C++ program take from `/proc/stat`. A `double` is
an exact rational here, and `none` is what a division by zero leaves. -/
namespace Netsvc.BroadcastCpuTemp

/-- The four counters of the first line of `/proc/stat`. -/
structure Sample where
  user : UInt64
  userLow : UInt64
  sys : UInt64
  idle : UInt64
  deriving DecidableEq

def Sample.zero : Sample := ⟨0, 0, 0, 0⟩

/-- `get_cpu_percentage` of `client.c`, with the static `last_` variables passed
along: both operands of the division are integers. -/
def getCpuPercentage (last total : Sample) : Option ℚ × Sample :=
  let userLowDiff := total.userLow - last.userLow
  let userDiff := total.user - last.user
  let sysDiff := total.sys - last.sys
  let idleDiff := total.idle - last.idle
  let totalDiff := userDiff + userLowDiff + sysDiff + idleDiff
  (if totalDiff = 0 then none
    else some (((userDiff + userLowDiff + sysDiff) / totalDiff).toNat * 100), total)

/-- `getCurrentValue` of `broadcast.cpp`: the sum is a `double` before it is divided. -/
def getCurrentValue (last total : Sample) : Option ℚ × Sample :=
  if total.user < last.user ∨ total.userLow < last.userLow ∨ total.sys < last.sys ∨
      total.idle < last.idle then (some (-1), total)
  else
    let busy := (total.user - last.user) + (total.userLow - last.userLow) + (total.sys - last.sys)
    let all := busy + (total.idle - last.idle)
    (if all = 0 then none else some (busy.toNat / all.toNat * 100), total)

def values (call : Sample → Sample → Option ℚ × Sample) : Sample → List Sample → List (Option ℚ)
  | _, [] => []
  | last, total :: samples => (call last total).1 :: values call (call last total).2 samples

def intervals (last : Sample) (samples : List Sample) : List (Sample × Sample) :=
  (last :: samples).zip samples

theorem values_eq_map {call : Sample → Sample → Option ℚ × Sample}
    (h : ∀ last total, (call last total).2 = total) (last : Sample) (samples : List Sample) :
    values call last samples = (intervals last samples).map fun p => (call p.1 p.2).1 := by
  induction samples generalizing last with
  | nil => rfl
  | cons total samples ih =>
    rw [values, h, ih]
    rfl

theorem getCpuPercentage_snd (last total : Sample) : (getCpuPercentage last total).2 = total := rfl

theorem getCurrentValue_snd (last total : Sample) : (getCurrentValue last total).2 = total := by
  unfold getCurrentValue
  split_ifs <;> rfl

section Interval
variable (last total : Sample)

def busyDelta : ℕ :=
  (total.user.toNat - last.user.toNat) + (total.userLow.toNat - last.userLow.toNat) +
    (total.sys.toNat - last.sys.toNat)

def idleDelta : ℕ := total.idle.toNat - last.idle.toNat

def usage : ℚ := 100 * busyDelta last total / (busyDelta last total + idleDelta last total)

structure Advances : Prop where
  user : last.user ≤ total.user
  userLow : last.userLow ≤ total.userLow
  sys : last.sys ≤ total.sys
  idle : last.idle ≤ total.idle
  increases : last ≠ total
  sum_lt : busyDelta last total + idleDelta last total < 2 ^ 64

def busySum : ℕ := busyDelta last total % 2 ^ 64

def Decreases : Prop :=
  total.user < last.user ∨ total.userLow < last.userLow ∨ total.sys < last.sys ∨
    total.idle < last.idle

instance : Decidable (Decreases last total) := inferInstanceAs (Decidable (_ ∨ _))

end Interval

section Guard
variable {last total : Sample}

theorem not_decreases_iff : ¬Decreases last total ↔ last.user ≤ total.user ∧
    last.userLow ≤ total.userLow ∧ last.sys ≤ total.sys ∧ last.idle ≤ total.idle := by
  unfold Decreases
  simp only [not_or, UInt64.not_lt]

theorem toNat_busy_of_not_decreases (h : ¬Decreases last total) :
    (total.user - last.user + (total.userLow - last.userLow) + (total.sys - last.sys)).toNat =
      busySum last total := by
  obtain ⟨huser, huserLow, hsys, -⟩ := not_decreases_iff.mp h
  unfold busySum busyDelta
  rw [UInt64.toNat_add, UInt64.toNat_add, UInt64.toNat_sub_of_le _ _ huser,
    UInt64.toNat_sub_of_le _ _ huserLow, UInt64.toNat_sub_of_le _ _ hsys, Nat.mod_add_mod]

theorem toNat_all_of_not_decreases (h : ¬Decreases last total) :
    (total.user - last.user + (total.userLow - last.userLow) + (total.sys - last.sys) +
      (total.idle - last.idle)).toNat =
        (busySum last total + idleDelta last total) % 2 ^ 64 := by
  obtain ⟨-, -, -, hidle⟩ := not_decreases_iff.mp h
  rw [UInt64.toNat_add, toNat_busy_of_not_decreases h, UInt64.toNat_sub_of_le _ _ hidle]
  rfl

theorem getCurrentValue_fst_of_decreases (h : Decreases last total) :
    (getCurrentValue last total).1 = some (-1) := by
  unfold Decreases at h
  unfold getCurrentValue
  rw [if_pos h]

theorem getCurrentValue_fst_of_not_decreases (h : ¬Decreases last total) :
    (getCurrentValue last total).1 =
      (if (busySum last total + idleDelta last total) % 2 ^ 64 = 0 then none
        else some ((busySum last total : ℚ) /
          ((busySum last total + idleDelta last total) % 2 ^ 64 : ℕ) * 100) : Option ℚ) := by
  have hguard := h
  unfold Decreases at hguard
  unfold getCurrentValue
  simp only [if_neg hguard, ← UInt64.toNat_inj, toNat_busy_of_not_decreases h,
    toNat_all_of_not_decreases h]
  rfl

end Guard

namespace Advances
variable {last total : Sample} (h : Advances last total)
include h

theorem not_decreases : ¬Decreases last total :=
  not_decreases_iff.mpr ⟨h.user, h.userLow, h.sys, h.idle⟩

theorem busySum_eq : busySum last total = busyDelta last total :=
  Nat.mod_eq_of_lt (Nat.lt_of_le_of_lt (Nat.le_add_right _ _) h.sum_lt)

theorem toNat_busy :
    (total.user - last.user + (total.userLow - last.userLow) + (total.sys - last.sys)).toNat =
      busyDelta last total := by
  rw [toNat_busy_of_not_decreases h.not_decreases, h.busySum_eq]

theorem toNat_all :
    (total.user - last.user + (total.userLow - last.userLow) + (total.sys - last.sys) +
      (total.idle - last.idle)).toNat = busyDelta last total + idleDelta last total := by
  rw [toNat_all_of_not_decreases h.not_decreases, h.busySum_eq]
  exact Nat.mod_eq_of_lt h.sum_lt

theorem all_pos : 0 < busyDelta last total + idleDelta last total := by
  by_contra hzero
  have huser := UInt64.le_iff_toNat_le.mp h.user
  have huserLow := UInt64.le_iff_toNat_le.mp h.userLow
  have hsys := UInt64.le_iff_toNat_le.mp h.sys
  have hidle := UInt64.le_iff_toNat_le.mp h.idle
  unfold busyDelta idleDelta at hzero
  have huser' : last.user = total.user := UInt64.toNat_inj.mp (by omega)
  have huserLow' : last.userLow = total.userLow := UInt64.toNat_inj.mp (by omega)
  have hsys' : last.sys = total.sys := UInt64.toNat_inj.mp (by omega)
  have hidle' : last.idle = total.idle := UInt64.toNat_inj.mp (by omega)
  apply h.increases
  cases last
  cases total
  simp_all only

theorem all_ne_zero :
    total.user - last.user + (total.userLow - last.userLow) + (total.sys - last.sys) +
      (total.idle - last.idle) ≠ 0 := by
  intro hzero
  have hall := h.toNat_all
  rw [hzero] at hall
  exact h.all_pos.ne hall

theorem getCpuPercentage_fst : (getCpuPercentage last total).1 =
    some (((busyDelta last total / (busyDelta last total + idleDelta last total) : ℕ) : ℚ) *
      100) := by
  unfold getCpuPercentage
  simp only [if_neg h.all_ne_zero, UInt64.toNat_div, h.toNat_busy, h.toNat_all]

theorem getCurrentValue_fst : (getCurrentValue last total).1 = some (usage last total) := by
  rw [getCurrentValue_fst_of_not_decreases h.not_decreases, h.busySum_eq,
    Nat.mod_eq_of_lt h.sum_lt, if_neg h.all_pos.ne']
  unfold usage
  push_cast
  congr 1
  ring

end Advances

/-- The integer quotient is exact at the two ends only. -/
theorem quotient_eq_iff {busy idle : ℕ} (hpos : 0 < busy + idle) :
    ((busy / (busy + idle) : ℕ) : ℚ) * 100 = 100 * busy / (busy + idle) ↔
      idle = 0 ∨ busy = 0 := by
  have hne : (busy + idle : ℚ) ≠ 0 := by
    norm_cast
    exact hpos.ne'
  rcases Nat.eq_zero_or_pos idle with rfl | hidle
  · rw [Nat.add_zero] at hpos ⊢
    rw [Nat.cast_zero, add_zero] at hne ⊢
    rw [Nat.div_self hpos]
    apply iff_of_true
    · field_simp
      norm_num
    · exact .inl rfl
  · rw [Nat.div_eq_of_lt (by omega), Nat.cast_zero, zero_mul, eq_comm, div_eq_zero_iff]
    simp [hne, hidle.ne']

/-- The C value is the C++ value where the processor was all idle or all busy. -/
theorem values_eq_iff {samples : List Sample}
    (h : ∀ p ∈ intervals Sample.zero samples, Advances p.1 p.2) :
    (values getCpuPercentage Sample.zero samples = values getCurrentValue Sample.zero samples ∧
      values getCurrentValue Sample.zero samples =
        (intervals Sample.zero samples).map fun p => some (usage p.1 p.2)) ↔
      ∀ p ∈ intervals Sample.zero samples, idleDelta p.1 p.2 = 0 ∨ busyDelta p.1 p.2 = 0 := by
  have hcpp : values getCurrentValue Sample.zero samples =
      (intervals Sample.zero samples).map fun p => some (usage p.1 p.2) := by
    rw [values_eq_map getCurrentValue_snd]
    exact List.map_congr_left fun p hp => (h p hp).getCurrentValue_fst
  rw [and_iff_left hcpp, hcpp, values_eq_map getCpuPercentage_snd, List.map_inj_left]
  apply forall₂_congr
  intro p hp
  rw [(h p hp).getCpuPercentage_fst, Option.some_inj]
  exact quotient_eq_iff (h p hp).all_pos

theorem values_eq_at_the_ends :
    (values getCpuPercentage Sample.zero [⟨3, 0, 1, 0⟩, ⟨3, 0, 1, 8⟩] =
        values getCurrentValue Sample.zero [⟨3, 0, 1, 0⟩, ⟨3, 0, 1, 8⟩] ∧
      values getCurrentValue Sample.zero [⟨3, 0, 1, 0⟩, ⟨3, 0, 1, 8⟩] =
        (intervals Sample.zero [⟨3, 0, 1, 0⟩, ⟨3, 0, 1, 8⟩]).map
          fun p => some (usage p.1 p.2)) := by
  apply (values_eq_iff ?_).mpr
  · intro p hp
    rcases List.mem_pair.mp hp with rfl | rfl <;> decide
  · intro p hp
    rcases List.mem_pair.mp hp with rfl | rfl
    · exact ⟨by decide, by decide, by decide, by decide, by decide, by decide⟩
    · exact ⟨by decide, by decide, by decide, by decide, by decide, by decide⟩

/-- One busy tick and three idle ones: 0 percent in C, 25 in C++. -/
theorem values_differ :
    ¬∀ samples, (∀ p ∈ intervals Sample.zero samples, Advances p.1 p.2) →
      values getCpuPercentage Sample.zero samples = values getCurrentValue Sample.zero samples ∧
        values getCurrentValue Sample.zero samples =
          (intervals Sample.zero samples).map fun p => some (usage p.1 p.2) := by
  intro hall
  have hadvances : Advances Sample.zero ⟨1, 0, 0, 3⟩ :=
    ⟨by decide, by decide, by decide, by decide, by decide, by decide⟩
  have heq := (hall [⟨1, 0, 0, 3⟩] fun p hp => List.mem_singleton.mp hp ▸ hadvances).1
  have hhead : (getCpuPercentage Sample.zero ⟨1, 0, 0, 3⟩).1 =
      (getCurrentValue Sample.zero ⟨1, 0, 0, 3⟩).1 := (List.cons.inj heq).1
  rw [hadvances.getCpuPercentage_fst, hadvances.getCurrentValue_fst, Option.some_inj] at hhead
  exact absurd ((quotient_eq_iff hadvances.all_pos).mp hhead) (by decide)

/-- A call of `getCurrentValue`: the sample before and the one just read, the value,
and the static variables afterwards. -/
structure Call where
  previous : Sample
  sample : Sample
  value : Option ℚ
  baselines : Sample

def calls (previous last : Sample) : List Sample → List Call
  | [] => []
  | total :: samples =>
    ⟨previous, total, (getCurrentValue last total).1, (getCurrentValue last total).2⟩ ::
      calls total (getCurrentValue last total).2 samples

structure Call.Right (c : Call) : Prop where
  skip : c.value = some (-1) ↔ Decreases c.previous c.sample
  percentage : ¬Decreases c.previous c.sample → ∃ v, c.value = some v ∧ 0 ≤ v ∧ v ≤ 100
  baselines : c.baselines = c.sample

def callOn (p : Sample × Sample) : Call :=
  ⟨p.1, p.2, (getCurrentValue p.1 p.2).1, (getCurrentValue p.1 p.2).2⟩

theorem calls_eq_map (last : Sample) (samples : List Sample) :
    calls last last samples = (intervals last samples).map callOn := by
  induction samples generalizing last with
  | nil => rfl
  | cons total samples ih =>
    have htail : calls total (getCurrentValue last total).2 samples =
        (intervals total samples).map callOn := by
      rw [getCurrentValue_snd, ih]
    exact congrArg (callOn (last, total) :: ·) htail

/-- The exact quotient of two words is at most 100 percent when the sum does not wrap. -/
theorem percentage_iff {busy idle : ℕ} (hbusy : busy < 2 ^ 64) (hidle : idle < 2 ^ 64) :
    ((busy + idle) % 2 ^ 64 ≠ 0 ∧
      (busy / ((busy + idle) % 2 ^ 64 : ℕ) * 100 : ℚ) ≤ 100) ↔
        0 < busy + idle ∧ busy + idle < 2 ^ 64 := by
  have hquotient : (busy + idle) % 2 ^ 64 ≠ 0 →
      ((busy / ((busy + idle) % 2 ^ 64 : ℕ) * 100 : ℚ) ≤ 100 ↔
        busy ≤ (busy + idle) % 2 ^ 64) := by
    intro hne
    have hpos : (0 : ℚ) < ((busy + idle) % 2 ^ 64 : ℕ) := Nat.cast_pos.mpr (Nat.pos_of_ne_zero hne)
    rw [mul_le_iff_le_one_left (by norm_num), div_le_one hpos, Nat.cast_le]
  constructor
  · rintro ⟨hne, hle⟩
    rw [hquotient hne] at hle
    omega
  · rintro ⟨hpos, hlt⟩
    have hne : (busy + idle) % 2 ^ 64 ≠ 0 := by omega
    refine ⟨hne, (hquotient hne).mpr ?_⟩
    omega

theorem callOn_right_iff (last total : Sample) : (callOn (last, total)).Right ↔
    Decreases last total ∨ 0 < busySum last total + idleDelta last total ∧
      busySum last total + idleDelta last total < 2 ^ 64 := by
  have hsnd := getCurrentValue_snd last total
  by_cases hback : Decreases last total
  · have hvalue := getCurrentValue_fst_of_decreases hback
    apply iff_of_true
    · exact ⟨iff_of_true hvalue hback, fun hnot => absurd hback hnot, hsnd⟩
    · exact .inl hback
  · have hbusy : busySum last total < 2 ^ 64 := Nat.mod_lt _ (by decide)
    have hidle : idleDelta last total < 2 ^ 64 :=
      Nat.lt_of_le_of_lt (Nat.sub_le _ _) total.idle.toNat_lt
    have hvalue := getCurrentValue_fst_of_not_decreases hback
    rw [or_iff_right hback, ← percentage_iff hbusy hidle]
    constructor
    · intro hright
      obtain ⟨v, hv, -, hle⟩ := hright.percentage hback
      replace hv := hvalue.symm.trans hv
      split_ifs at hv with hzero
      rw [Option.some_inj] at hv
      exact ⟨hzero, hv.trans_le hle⟩
    · rintro ⟨hne, hle⟩
      rw [if_neg hne] at hvalue
      refine ⟨iff_of_false ?_ hback, fun _ => ⟨_, hvalue, by positivity, hle⟩, hsnd⟩
      intro hskip
      have hminus := Option.some_inj.mp (hvalue.symm.trans hskip)
      have hnonneg : (0 : ℚ) ≤ -1 := hminus ▸ by positivity
      exact absurd hnonneg (by decide)

/-- Every call gives the marker or a percentage exactly when no interval is empty and
no sum of its differences wraps around at the last addition. -/
theorem calls_right_iff (samples : List Sample) :
    (∀ c ∈ calls Sample.zero Sample.zero samples, c.Right) ↔
      ∀ p ∈ intervals Sample.zero samples, Decreases p.1 p.2 ∨
        0 < busySum p.1 p.2 + idleDelta p.1 p.2 ∧
          busySum p.1 p.2 + idleDelta p.1 p.2 < 2 ^ 64 := by
  rw [calls_eq_map, List.forall_mem_map]
  exact forall₂_congr fun p _ => callOn_right_iff p.1 p.2

/-- Two samples in one tick: the division is by zero. -/
theorem calls_equal_samples :
    ¬∀ samples, ∀ c ∈ calls Sample.zero Sample.zero samples, c.Right := by
  intro hall
  have hcall := hall [⟨1, 0, 0, 3⟩, ⟨1, 0, 0, 3⟩] (callOn (⟨1, 0, 0, 3⟩, ⟨1, 0, 0, 3⟩)) (by
    rw [calls_eq_map]
    exact List.mem_map_of_mem (by decide))
  exact absurd ((callOn_right_iff _ _).mp hcall) (by decide)

end Netsvc.BroadcastCpuTemp
