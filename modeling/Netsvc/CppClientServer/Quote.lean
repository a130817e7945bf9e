import Netsvc.QuotesFile

/-! `Quote::stringToQuote` of `quote_class.h`. Positions are a 32-bit `int` and
string offsets a 64-bit `size_t`, with the conversions C++ makes between them. -/
namespace Netsvc.CppClientServer

inductive Fault
  | outOfRange
  | overflow
  | outOfFuel
  deriving DecidableEq, Repr

def intMax : Int := 2 ^ 31 - 1
def sizeModulus : Nat := 2 ^ 64
def npos : Nat := sizeModulus - 1

/-- Conversion of a `size_t` to `int`. -/
def toInt (n : Nat) : Int :=
  if n % 2 ^ 32 < 2 ^ 31 then n % 2 ^ 32 else n % 2 ^ 32 - 2 ^ 32

def toSize (i : Int) : Nat := (i % sizeModulus).toNat

/-- `position + 1` on an `int`, undefined at the largest one. -/
def increment (position : Int) : Except Fault Int :=
  if position = intMax then .error .overflow else .ok (position + 1)

/-- `std::string::find` of one character. -/
def find (text : Text) (c : Char) : Nat := if c ∈ text then text.idxOf c else npos

/-- `std::string::substr`, which throws when it starts behind the end. -/
def substr (text : Text) (pos n : Nat) : Except Fault Text :=
  if text.length < pos then .error .outOfRange else .ok ((text.drop pos).take n)

structure Quote where
  name : Text
  quote : Text
  date : Text
  deriving DecidableEq, Repr

/-- The `while` loop: at most `fuel` tests of its condition. -/
def splitLoop : Nat → Text → Int → Except Fault Int
  | 0, _, _ => .error .outOfFuel
  | fuel + 1, after, position => do
      let start ← increment position
      let ahead ← substr after (toSize start) 1
      if ahead = [' '] then
        let quoteSplit ← substr after (toSize start) npos
        let advance := (find quoteSplit ',' + 1) % sizeModulus
        splitLoop fuel after (toInt ((toSize position + advance) % sizeModulus))
      else pure position

def stringToQuote (fuel : Nat) (data : Text) : Except Fault Quote := do
  let position := toInt (find data ',')
  let name ← substr data 0 (toSize position)
  let start ← increment position
  let after ← substr data (toSize start) npos
  let position ← splitLoop fuel after (toInt (find after ','))
  let quote ← substr after 0 (toSize position)
  let start ← increment position
  let date ← substr after (toSize start) 10
  pure ⟨name, quote, date⟩

def intMin : Int := -2 ^ 31

def IsInt (i : Int) : Prop := intMin ≤ i ∧ i ≤ intMax

theorem isInt_toInt (n : Nat) : IsInt (toInt n) := by
  unfold IsInt toInt intMin intMax
  split_ifs <;> omega

theorem toInt_of_lt {n : Nat} (h : n < 2 ^ 31) : toInt n = n := by
  unfold toInt
  split_ifs <;> omega

theorem toSize_natCast {n : Nat} (h : n < 2 ^ 64) : toSize n = n := by
  simp only [toSize, sizeModulus]
  omega

theorem eq_of_toSize_eq {i : Int} (hi : IsInt i) {n : Nat} (hn : n < 2 ^ 63)
    (h : toSize i = n) : i = n := by
  obtain ⟨hlo, hhi⟩ := hi
  simp only [toSize, sizeModulus, intMin, intMax] at h hlo hhi
  omega

theorem bind_eq_ok_iff {α β : Type} {run : Except Fault α} {next : α → Except Fault β} {b : β} :
    run >>= next = .ok b ↔ ∃ a, run = .ok a ∧ next a = .ok b := by
  cases run <;> simp [bind, Except.bind]

theorem increment_eq_ok_iff {i j : Int} : increment i = .ok j ↔ i ≠ intMax ∧ j = i + 1 := by
  unfold increment
  split_ifs with h
  · simp [h]
  · simp [h, eq_comm]

theorem substr_eq_ok_iff {text sub : Text} {pos n : Nat} :
    substr text pos n = .ok sub ↔ pos ≤ text.length ∧ (text.drop pos).take n = sub := by
  unfold substr
  split_ifs with h
  · simp
    omega
  · simp
    omega

theorem find_append {left : Text} {c : Char} (h : c ∉ left) (right : Text) :
    find (left ++ c :: right) c = left.length := by
  have hmem : c ∈ left ++ c :: right := by simp
  rw [find, if_pos hmem, List.idxOf_append_of_notMem h, List.idxOf_cons_self, Nat.add_zero]

theorem splitLoop_isInt {fuel : Nat} {after : Text} {position result : Int}
    (hp : IsInt position) (h : splitLoop fuel after position = .ok result) : IsInt result := by
  induction fuel generalizing position with
  | zero => simp [splitLoop] at h
  | succ fuel ih =>
    obtain ⟨start, _, h⟩ := bind_eq_ok_iff.mp h
    obtain ⟨ahead, _, h⟩ := bind_eq_ok_iff.mp h
    split at h
    · obtain ⟨quoteSplit, _, h⟩ := bind_eq_ok_iff.mp h
      exact ih (isInt_toInt _) h
    · cases h
      exact hp

theorem stringToQuote_eq_ok {fuel : Nat} {data : Text} {q : Quote}
    (h : stringToQuote fuel data = .ok q) :
    ∃ after position,
      toInt (find data ',') ≠ intMax ∧
      data.take (toSize (toInt (find data ','))) = q.name ∧
      substr data (toSize (toInt (find data ',') + 1)) npos = .ok after ∧
      splitLoop fuel after (toInt (find after ',')) = .ok position ∧
      position ≠ intMax ∧
      after.take (toSize position) = q.quote ∧
      substr after (toSize (position + 1)) 10 = .ok q.date := by
  obtain ⟨name, hname, h⟩ := bind_eq_ok_iff.mp h
  obtain ⟨start, hstart, h⟩ := bind_eq_ok_iff.mp h
  obtain ⟨after, hafter, h⟩ := bind_eq_ok_iff.mp h
  obtain ⟨position, hloop, h⟩ := bind_eq_ok_iff.mp h
  obtain ⟨quote, hquote, h⟩ := bind_eq_ok_iff.mp h
  obtain ⟨start', hstart', h⟩ := bind_eq_ok_iff.mp h
  obtain ⟨date, hdate, h⟩ := bind_eq_ok_iff.mp h
  cases h
  obtain ⟨hmax, rfl⟩ := increment_eq_ok_iff.mp hstart
  obtain ⟨hmax', rfl⟩ := increment_eq_ok_iff.mp hstart'
  exact ⟨after, position, hmax, (substr_eq_ok_iff.mp hname).2, hafter, hloop, hmax',
    (substr_eq_ok_iff.mp hquote).2, hdate⟩

end Netsvc.CppClientServer
