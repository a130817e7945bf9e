import Mathlib.Data.Nat.Find
import Netsvc.CppClientServer.Quote
import Netsvc.Library.Delimiter
import Netsvc.Library.Fuel

/-! Where the loop of `stringToQuote` stops, and on which strings it does. -/
namespace Netsvc.CppClientServer
open Netsvc.Library.Delimiter Netsvc.Library.Fuel

theorem find_drop {text : Text} {c : Char} {start i : ℕ} (h : NextAt c text start i) :
    find (text.drop start) c = i - start := by
  rw [find, if_pos (mem_drop_of_getElem? h.le h.get), h.idxOf_drop]

theorem nextAt_find {text : Text} {c : Char} (h : c ∈ text) : NextAt c text 0 (find text c) := by
  have hnext : NextAt c text 0 (0 + (text.drop 0).idxOf c) := nextAt_idxOf h
  rw [List.drop_zero, Nat.zero_add] at hnext
  rwa [find, if_pos h]

theorem toInt_position {n : ℕ} (h : n < 2 ^ 31 - 1) :
    toInt n ≠ intMax ∧ toSize (toInt n) = n ∧ toSize (toInt n + 1) = n + 1 := by
  rw [toInt_of_lt (by omega)]
  refine ⟨?_, toSize_natCast (by omega), toSize_natCast (n := n + 1) (by omega)⟩
  unfold intMax
  omega

theorem take_one_drop_eq_iff {text : Text} {c : Char} {i : ℕ} :
    (text.drop i).take 1 = [c] ↔ text[i]? = some c := by
  rw [← List.head?_drop]
  cases text.drop i <;> simp

def advance (after : Text) (position : Int) : Int :=
  toInt ((toSize position + (find (after.drop (toSize (position + 1))) ',' + 1) % sizeModulus) %
    sizeModulus)

section Round
variable {after : Text} {position : Int}

theorem splitLoop_overflow (fuel : ℕ) (after : Text) :
    splitLoop (fuel + 1) after intMax = .error .overflow := rfl

theorem increment_of_ne (hmax : position ≠ intMax) : increment position = .ok (position + 1) :=
  increment_eq_ok_iff.mpr ⟨hmax, rfl⟩

theorem splitLoop_outOfRange (hmax : position ≠ intMax)
    (h : after.length < toSize (position + 1)) (fuel : ℕ) :
    splitLoop (fuel + 1) after position = .error .outOfRange := by
  unfold splitLoop substr
  rw [increment_of_ne hmax]
  simp only [bind, Except.bind, if_pos h]

theorem splitLoop_stop (hmax : position ≠ intMax) (hle : toSize (position + 1) ≤ after.length)
    (h : after[toSize (position + 1)]? ≠ some ' ') (fuel : ℕ) :
    splitLoop (fuel + 1) after position = .ok position := by
  unfold splitLoop substr
  rw [increment_of_ne hmax]
  simp only [bind, Except.bind, if_neg hle.not_gt, take_one_drop_eq_iff, if_neg h]
  rfl

theorem splitLoop_again (hmax : position ≠ intMax) (hsize : after.length < 2 ^ 63)
    (h : after[toSize (position + 1)]? = some ' ') (fuel : ℕ) :
    splitLoop (fuel + 1) after position = splitLoop fuel after (advance after position) := by
  have hlt : toSize (position + 1) < after.length := (List.getElem?_eq_some_iff.mp h).1
  have hwhole : (after.drop (toSize (position + 1))).take npos =
      after.drop (toSize (position + 1)) := by
    apply List.take_of_length_le
    rw [List.length_drop]
    unfold npos sizeModulus
    omega
  rw [splitLoop, increment_of_ne hmax]
  simp only [bind, Except.bind, substr, if_neg hlt.not_gt, take_one_drop_eq_iff, if_pos h, hwhole]
  rfl

theorem toSize_position (hp : IsInt position) (hmax : position ≠ intMax) {text : Text}
    (hsize : text.length < 2 ^ 63) (hle : toSize (position + 1) ≤ text.length) :
    (toSize (position + 1) : ℤ) = position + 1 ∧ toSize (position + 1) < 2 ^ 31 := by
  obtain ⟨hlo, hhi⟩ := hp
  simp only [toSize, sizeModulus, intMin, intMax] at hle hlo hhi hmax ⊢
  omega

theorem advance_nextAt (hp : IsInt position) (hmax : position ≠ intMax)
    (hsize : after.length < 2 ^ 63) (hle : toSize (position + 1) ≤ after.length) {c : ℕ}
    (h : NextAt ',' after (toSize (position + 1)) c) : advance after position = toInt c := by
  obtain ⟨hstart, -⟩ := toSize_position hp hmax hsize hle
  have hc : c < after.length := (List.getElem?_eq_some_iff.mp h.get).1
  have hsc := h.le
  unfold advance
  rw [find_drop h]
  congr 1
  simp only [toSize, sizeModulus] at hstart hle hsc ⊢
  omega

theorem advance_notMem (hp : IsInt position)
    (h : ',' ∉ after.drop (toSize (position + 1))) : advance after position = position := by
  obtain ⟨hlo, hhi⟩ := hp
  unfold advance find
  rw [if_neg h]
  simp only [toInt, toSize, npos, sizeModulus, intMin, intMax] at hlo hhi ⊢
  split_ifs <;> omega

end Round

/-- The commas the loop can come to: those at an `int` below the largest one, and
the first one behind them. -/
structure Candidate (after : Text) (c : ℕ) : Prop where
  get : after[c]? = some ','
  ne : ∀ j, 2 ^ 31 - 1 ≤ j → j < c → after[j]? ≠ some ','

def Stops (after : Text) (c : ℕ) : Prop :=
  toInt c ≠ intMax ∧ after[toSize (toInt c + 1)]? ≠ some ' '

section Walk
variable {after : Text} (hsize : after.length < 2 ^ 63)
include hsize

/-- The loop goes from comma to comma while a space follows. -/
theorem reaches_candidate {c : ℕ} (hc : Candidate after c)
    (hbefore : ∀ j < c, after[j]? = some ',' → after[j + 1]? = some ' ') {j : ℕ}
    (hj : after[j]? = some ',') (hle : j ≤ c) :
    Reaches (fun fuel position => splitLoop fuel after position) (toInt j) (toInt c) := by
  induction hn : c - j using Nat.strong_induction_on generalizing j with
  | _ n ih =>
    rcases hle.eq_or_lt with rfl | hlt
    · exact .refl _ _
    · have hsmall : j < 2 ^ 31 - 1 := by
        by_contra hlarge
        exact hc.ne j (by omega) hlt hj
      obtain ⟨hmax, -, hstart⟩ := toInt_position hsmall
      have hspace : after[toSize (toInt j + 1)]? = some ' ' := hstart ▸ hbefore j hlt hj
      have hmem : ',' ∈ after.drop (toSize (toInt j + 1)) :=
        mem_drop_of_getElem? (by omega) hc.get
      have hnext := nextAt_idxOf hmem
      set next := toSize (toInt j + 1) + (after.drop (toSize (toInt j + 1))).idxOf ','
      have hnextle : next ≤ c := by
        by_contra hgt
        exact hnext.ne c (by omega) (by omega) hc.get
      have hstartle : toSize (toInt j + 1) ≤ after.length :=
        (List.getElem?_eq_some_iff.mp hspace).1.le
      refine .head (fun fuel => splitLoop_again hmax hsize hspace fuel) ?_
      rw [advance_nextAt (isInt_toInt j) hmax hsize hstartle hnext]
      exact ih (c - next) (by have := hnext.le; omega) hnext.get hnextle rfl

theorem reaches_first {c : ℕ} (hc : Candidate after c)
    (hbefore : ∀ j < c, after[j]? = some ',' → after[j + 1]? = some ' ') :
    Reaches (fun fuel position => splitLoop fuel after position) (toInt (find after ','))
      (toInt c) := by
  have hnext := nextAt_find (List.mem_of_getElem? hc.get)
  apply reaches_candidate hsize hc hbefore hnext.get
  by_contra hgt
  exact hnext.ne c (Nat.zero_le c) (by omega) hc.get

end Walk

def Ended {α : Type} : Except Fault α → Prop
  | .ok _ => True
  | .error fault => fault = .outOfRange

theorem Stops.ended {after : Text} {c : ℕ} (h : Stops after c) :
    Ended (splitLoop 1 after (toInt c)) := by
  rcases Nat.lt_or_ge after.length (toSize (toInt c + 1)) with hout | hin
  · rw [splitLoop_outOfRange h.1 hout]
    rfl
  · rw [splitLoop_stop h.1 hin h.2]
    trivial

def LoopEnds (after : Text) : Prop :=
  (∃ c, Candidate after c ∧ Stops after c) ∨ ',' ∉ after ∧ after[0]? ≠ some ' '

section Loop
variable {after : Text} (hsize : after.length < 2 ^ 63)
include hsize

theorem splitLoop_ended (h : LoopEnds after) :
    ∃ fuel, Ended (splitLoop fuel after (toInt (find after ','))) := by
  classical
  rcases h with hcomma | ⟨hcomma, hhead⟩
  · obtain ⟨hc, hstops⟩ := Nat.find_spec hcomma
    refine (reaches_first hsize hc fun j hj hget => ?_).exists_run Ended hstops.ended
    -- an earlier comma is a candidate too, and the loop goes on behind it
    have hsmall : j < 2 ^ 31 - 1 := by
      by_contra hlarge
      exact hc.ne j (by omega) hj hget
    obtain ⟨hmax, -, hstart⟩ := toInt_position hsmall
    by_contra hspace
    apply Nat.find_min hcomma hj
    exact ⟨⟨hget, by omega⟩, hmax, hstart ▸ hspace⟩
  · refine ⟨1, ?_⟩
    have hnpos : toInt (find after ',') = -1 := by
      rw [find, if_neg hcomma]
      rfl
    rw [hnpos, splitLoop_stop (by decide) (Nat.zero_le _) hhead]
    trivial

/-- Behind every comma the loop comes to there is a space, or the position overflows. -/
def Stuck (after : Text) (position : Int) : Prop :=
  IsInt position ∧ (position = intMax ∨ after[toSize (position + 1)]? = some ' ')

theorem Stuck.step {position : Int} (hno : ∀ c, Candidate after c → ¬Stops after c)
    (h : Stuck after position) (hmax : position ≠ intMax) :
    Stuck after (advance after position) := by
  have hspace := h.2.resolve_left hmax
  have hle := (List.getElem?_eq_some_iff.mp hspace).1.le
  obtain ⟨-, hsmall⟩ := toSize_position h.1 hmax hsize hle
  by_cases hmem : ',' ∈ after.drop (toSize (position + 1))
  · have hnext := nextAt_idxOf hmem
    rw [advance_nextAt h.1 hmax hsize hle hnext]
    refine ⟨isInt_toInt _, ?_⟩
    have hstops := hno _ ⟨hnext.get, fun j hj hlt => hnext.ne j (by omega) hlt⟩
    by_contra hgo
    exact hstops (not_or.mp hgo)
  · rw [advance_notMem h.1 hmem]
    exact h

theorem not_ended_of_stuck {position : Int} (hno : ∀ c, Candidate after c → ¬Stops after c)
    (h : Stuck after position) (fuel : ℕ) : ¬Ended (splitLoop fuel after position) := by
  refine forall_run_of_invariant (fun fuel position => splitLoop fuel after position)
    (Stuck after) (fun result => ¬Ended result) ?_ ?_ h fuel
  · intro position _
    exact nofun
  · intro position fuel hstuck
    by_cases hmax : position = intMax
    · left
      rw [hmax, splitLoop_overflow]
      exact nofun
    · exact .inr ⟨_, hstuck.step hsize hno hmax,
        splitLoop_again hmax hsize (hstuck.2.resolve_left hmax) fuel⟩

theorem splitLoop_ended_iff :
    (∃ fuel, Ended (splitLoop fuel after (toInt (find after ',')))) ↔ LoopEnds after := by
  constructor
  · rintro ⟨fuel, hended⟩
    by_contra hnot
    obtain ⟨hno, hhead⟩ := not_or.mp hnot
    have hno' : ∀ c, Candidate after c → ¬Stops after c := fun c hc hs => hno ⟨c, hc, hs⟩
    apply not_ended_of_stuck hsize hno' ?_ fuel hended
    by_cases hmem : ',' ∈ after
    · have hnext := nextAt_find hmem
      refine ⟨isInt_toInt _, ?_⟩
      by_contra hgo
      exact hno' _ ⟨hnext.get, fun j _ hlt => hnext.ne j (Nat.zero_le j) hlt⟩ (not_or.mp hgo)
    · have hspace : after[0]? = some ' ' := by
        by_contra hne
        exact hhead ⟨hmem, hne⟩
      rw [find, if_neg hmem]
      exact ⟨isInt_toInt _, .inr hspace⟩
  · exact splitLoop_ended hsize

end Loop

theorem splitLoop_ok {fuel : ℕ} {after : Text} {position result : Int}
    (h : splitLoop fuel after position = .ok result) :
    result ≠ intMax ∧ toSize (result + 1) ≤ after.length := by
  induction fuel generalizing position with
  | zero => simp [splitLoop] at h
  | succ fuel ih =>
    obtain ⟨start, hstart, h⟩ := bind_eq_ok_iff.mp h
    obtain ⟨ahead, hahead, h⟩ := bind_eq_ok_iff.mp h
    split at h
    · obtain ⟨quoteSplit, _, h⟩ := bind_eq_ok_iff.mp h
      exact ih h
    · cases h
      obtain ⟨hmax, rfl⟩ := increment_eq_ok_iff.mp hstart
      exact ⟨hmax, (substr_eq_ok_iff.mp hahead).1⟩

theorem splitLoop_unique {fuel fuel' : ℕ} {after : Text} {position : Int}
    (h : splitLoop fuel after position ≠ .error .outOfFuel)
    (h' : splitLoop fuel' after position ≠ .error .outOfFuel) :
    splitLoop fuel after position = splitLoop fuel' after position := by
  induction fuel generalizing fuel' position with
  | zero => exact absurd rfl h
  | succ fuel ih =>
    cases fuel' with
    | zero => exact absurd rfl h'
    | succ fuel' =>
      unfold splitLoop at h h' ⊢
      cases hincrement : increment position with
      | error fault => rfl
      | ok start =>
        simp only [hincrement, bind, Except.bind] at h h' ⊢
        cases hahead : substr after (toSize start) 1 with
        | error fault => rfl
        | ok ahead =>
          simp only [hahead] at h h' ⊢
          split_ifs at h h' ⊢
          · cases hsplit : substr after (toSize start) npos with
            | error fault => rfl
            | ok quoteSplit =>
              simp only [hsplit] at h h' ⊢
              exact ih h h'
          · rfl

def firstPosition (data : Text) : Int := toInt (find data ',')

def behind (data : Text) : Text := data.drop (toSize (firstPosition data + 1))

theorem substr_zero (text : Text) (n : ℕ) : substr text 0 n = .ok (text.take n) :=
  substr_eq_ok_iff.mpr ⟨Nat.zero_le _, rfl⟩

section Call
variable {data : Text}

theorem stringToQuote_eq (fuel : ℕ) (data : Text) : stringToQuote fuel data = (do
    let start ← increment (firstPosition data)
    let after ← substr data (toSize start) npos
    let position ← splitLoop fuel after (toInt (find after ','))
    let start ← increment position
    let date ← substr after (toSize start) 10
    pure ⟨data.take (toSize (firstPosition data)), after.take (toSize position), date⟩) := by
  simp only [stringToQuote, substr_zero]
  rfl

theorem stringToQuote_unique {fuel fuel' : ℕ}
    (h : stringToQuote fuel data ≠ .error .outOfFuel)
    (h' : stringToQuote fuel' data ≠ .error .outOfFuel) :
    stringToQuote fuel data = stringToQuote fuel' data := by
  rw [stringToQuote_eq] at h h' ⊢
  rw [stringToQuote_eq]
  cases hstart : increment (firstPosition data) with
  | error fault => rfl
  | ok start =>
    simp only [hstart, bind, Except.bind] at h h' ⊢
    cases hafter : substr data (toSize start) npos with
    | error fault => rfl
    | ok after =>
      simp only [hafter] at h h' ⊢
      have hloop : splitLoop fuel after (toInt (find after ',')) =
          splitLoop fuel' after (toInt (find after ',')) := by
        apply splitLoop_unique
        · intro hout
          exact h (by rw [hout])
        · intro hout
          exact h' (by rw [hout])
      rw [hloop]

theorem stringToQuote_overflow (fuel : ℕ) (h : firstPosition data = intMax) :
    stringToQuote fuel data = .error .overflow := by
  rw [stringToQuote_eq, h]
  rfl

theorem stringToQuote_outOfRange (fuel : ℕ) (hmax : firstPosition data ≠ intMax)
    (h : data.length < toSize (firstPosition data + 1)) :
    stringToQuote fuel data = .error .outOfRange := by
  rw [stringToQuote_eq, increment_of_ne hmax]
  simp only [bind, Except.bind, substr, if_pos h]

theorem stringToQuote_eq_map (fuel : ℕ) (hmax : firstPosition data ≠ intMax)
    (hsize : data.length < 2 ^ 63) (hle : toSize (firstPosition data + 1) ≤ data.length) :
    stringToQuote fuel data =
      (splitLoop fuel (behind data) (toInt (find (behind data) ','))).map fun position =>
        ⟨data.take (toSize (firstPosition data)), (behind data).take (toSize position),
          ((behind data).drop (toSize (position + 1))).take 10⟩ := by
  have hafter : substr data (toSize (firstPosition data + 1)) npos = .ok (behind data) := by
    rw [substr_eq_ok_iff]
    refine ⟨hle, List.take_of_length_le ?_⟩
    rw [List.length_drop]
    unfold npos sizeModulus
    omega
  rw [stringToQuote_eq, increment_of_ne hmax]
  simp only [bind, Except.bind, hafter]
  cases hloop : splitLoop fuel (behind data) (toInt (find (behind data) ',')) with
  | error fault => rfl
  | ok position =>
    obtain ⟨hmax', hle'⟩ := splitLoop_ok hloop
    simp only [increment_of_ne hmax', substr, if_neg hle'.not_gt]
    rfl

theorem ended_map {α β : Type} (f : α → β) (result : Except Fault α) :
    Ended (result.map f) ↔ Ended result := by
  cases result <;> rfl

def SplitEnds (data : Text) : Prop :=
  firstPosition data ≠ intMax ∧
    (data.length < toSize (firstPosition data + 1) ∨ LoopEnds (behind data))

theorem length_behind_lt (hsize : data.length < 2 ^ 63) : (behind data).length < 2 ^ 63 := by
  unfold behind
  rw [List.length_drop]
  omega

end Call

/-- A call ends unless the loop is held up by a space, behind every comma it can
come to or at the beginning of a text without commas. -/
theorem stringToQuote_ended_iff (data : Text) (hsize : data.length < 2 ^ 63) :
    (∃ fuel, Ended (stringToQuote fuel data)) ↔ SplitEnds data := by
  by_cases hmax : firstPosition data = intMax
  · apply iff_of_false
    · rintro ⟨fuel, h⟩
      rw [stringToQuote_overflow fuel hmax] at h
      exact (show Fault.overflow ≠ .outOfRange by decide) h
    · exact fun h => h.1 hmax
  · rcases Nat.lt_or_ge data.length (toSize (firstPosition data + 1)) with hout | hle
    · apply iff_of_true
      · exact ⟨0, stringToQuote_outOfRange 0 hmax hout ▸ rfl⟩
      · exact ⟨hmax, .inl hout⟩
    · have hloop := splitLoop_ended_iff (length_behind_lt hsize)
      simp only [stringToQuote_eq_map _ hmax hsize hle, ended_map, hloop, SplitEnds, hle.not_gt,
        false_or, hmax, ne_eq, not_false_eq_true, true_and]

theorem stringToQuote_ended_three :
    (∃ fuel, Ended (stringToQuote fuel ['a', ',', 'b', ',', 'c'])) ↔
      SplitEnds ['a', ',', 'b', ',', 'c'] :=
  stringToQuote_ended_iff _ (by decide)

theorem firstPosition_of_nextAt {data : Text} {p : ℕ} (hp : NextAt ',' data 0 p) :
    firstPosition data = toInt p := by
  unfold firstPosition
  rw [(nextAt_find (List.mem_of_getElem? hp.get)).eq hp]

theorem firstPosition_of_notMem {data : Text} (h : ',' ∉ data) : firstPosition data = -1 := by
  unfold firstPosition find
  rw [if_neg h]
  rfl

theorem behind_of_nextAt {data : Text} {p : ℕ} (hp : NextAt ',' data 0 p)
    (hlt : p < 2 ^ 31 - 1) : behind data = data.drop (p + 1) := by
  unfold behind
  rw [firstPosition_of_nextAt hp, (toInt_position hlt).2.2]

theorem length_behind_le (data : Text) : (behind data).length ≤ data.length := by
  unfold behind
  rw [List.length_drop]
  exact Nat.sub_le _ _

theorem firstPosition_in_range {data : Text} (hsize : data.length < 2 ^ 31) :
    firstPosition data ≠ intMax ∧ toSize (firstPosition data + 1) ≤ data.length := by
  by_cases hmem : ',' ∈ data
  · have hfirst := nextAt_find hmem
    have hlt := (List.getElem?_eq_some_iff.mp hfirst.get).1
    obtain ⟨hmax, -, hstart⟩ := toInt_position (n := find data ',') (by omega)
    rw [firstPosition_of_nextAt hfirst, hstart]
    exact ⟨hmax, hlt⟩
  · rw [firstPosition_of_notMem hmem]
    exact ⟨by decide, Nat.zero_le _⟩

theorem candidate_and_stops_iff {after : Text} (hsize : after.length < 2 ^ 31) {c : ℕ} :
    Candidate after c ∧ Stops after c ↔ after[c]? = some ',' ∧ after[c + 1]? ≠ some ' ' := by
  constructor
  · rintro ⟨hc, -, hspace⟩
    have hlt := (List.getElem?_eq_some_iff.mp hc.get).1
    rw [(toInt_position (n := c) (by omega)).2.2] at hspace
    exact ⟨hc.get, hspace⟩
  · rintro ⟨hget, hspace⟩
    have hlt := (List.getElem?_eq_some_iff.mp hget).1
    obtain ⟨hmax, -, hstart⟩ := toInt_position (n := c) (by omega)
    exact ⟨⟨hget, by omega⟩, hmax, hstart ▸ hspace⟩

/-- Where no position is cut, the condition speaks of the text alone. -/
theorem splitEnds_iff_of_length_lt {data : Text} (hsize : data.length < 2 ^ 31) :
    SplitEnds data ↔
      (∃ c, (behind data)[c]? = some ',' ∧ (behind data)[c + 1]? ≠ some ' ') ∨
        ',' ∉ behind data ∧ (behind data)[0]? ≠ some ' ' := by
  obtain ⟨hmax, hle⟩ := firstPosition_in_range hsize
  have hbehind := length_behind_le data
  simp only [SplitEnds, LoopEnds, candidate_and_stops_iff (hbehind.trans_lt hsize), hle.not_gt,
    hmax, ne_eq, not_false_eq_true, true_and, false_or]

/-- Cut behind the comma inside the quote, a line holds the loop up. -/
theorem stringToQuote_cut_line :
    ¬∀ data : Text, data.length < 2 ^ 63 → ∃ fuel, Ended (stringToQuote fuel data) := by
  intro hall
  obtain ⟨fuel, hended⟩ := hall ['a', ',', ' ', 'b'] (by decide)
  rw [stringToQuote_eq_map fuel (by decide) (by decide) (by decide), ended_map] at hended
  have hbehind : behind ['a', ',', ' ', 'b'] = [' ', 'b'] := rfl
  rw [hbehind] at hended
  rcases (splitLoop_ended_iff (by decide)).mp ⟨fuel, hended⟩ with ⟨c, hc, -⟩ | ⟨-, hhead⟩
  · exact absurd (List.mem_of_getElem? hc.get) (by decide)
  · exact hhead rfl

theorem splitLoop_split (after : Text) (hsize : after.length < 2 ^ 31) {c : ℕ}
    (hc : after[c]? = some ',') (hspace : after[c + 1]? ≠ some ' ')
    (hbefore : ∀ j < c, after[j]? = some ',' → after[j + 1]? = some ' ') :
    ∃ least, ∀ fuel, least ≤ fuel →
      splitLoop fuel after (toInt (find after ',')) = .ok (toInt c) := by
  obtain ⟨hcandidate, hmax, hstop⟩ := (candidate_and_stops_iff hsize).mpr ⟨hc, hspace⟩
  have hlt := (List.getElem?_eq_some_iff.mp hc).1
  have hrange : toSize (toInt c + 1) ≤ after.length := by
    rw [(toInt_position (n := c) (by omega)).2.2]
    exact hlt
  refine (reaches_first (by omega) hcandidate hbefore).eventually
    (fun result => result = .ok (toInt c)) 1 fun fuel hle => ?_
  obtain ⟨fuel, rfl⟩ := Nat.exists_eq_add_of_le' hle
  exact splitLoop_stop hmax hrange hstop fuel

/-- The quote ends at the first comma that no space follows. -/
theorem stringToQuote_split {data : Text} (hsize : data.length < 2 ^ 31) {p c : ℕ}
    (hp : data[p]? = some ',') (hfirst : ∀ j < p, data[j]? ≠ some ',')
    (hpc : p < c) (hc : data[c]? = some ',') (hspace : data[c + 1]? ≠ some ' ')
    (hbefore : ∀ j < c, p < j → data[j]? = some ',' → data[j + 1]? = some ' ') :
    ∃ least, ∀ fuel, least ≤ fuel → stringToQuote fuel data =
      .ok ⟨data.take p, (data.drop (p + 1)).take (c - (p + 1)), (data.drop (c + 1)).take 10⟩ := by
  have hclt := (List.getElem?_eq_some_iff.mp hc).1
  obtain ⟨hmax, hname, hstart⟩ := toInt_position (n := p) (by omega)
  have hcomma : NextAt ',' data 0 p := ⟨Nat.zero_le p, hp, fun j _ hj => hfirst j hj⟩
  have hposition := firstPosition_of_nextAt hcomma
  have hbehind : behind data = data.drop (p + 1) := behind_of_nextAt hcomma (by omega)
  have hget : ∀ j, (behind data)[j]? = data[p + 1 + j]? := by
    intro j
    rw [hbehind, List.getElem?_drop]
  have hindex : p + 1 + (c - (p + 1)) = c := by omega
  have hcomma' : (behind data)[c - (p + 1)]? = some ',' := by
    rw [hget, hindex, hc]
  have hspace' : (behind data)[c - (p + 1) + 1]? ≠ some ' ' := by
    rw [hget, ← Nat.add_assoc, hindex]
    exact hspace
  have hbefore' : ∀ j < c - (p + 1), (behind data)[j]? = some ',' →
      (behind data)[j + 1]? = some ' ' := by
    intro j hj hget'
    rw [hget] at hget' ⊢
    exact hbefore (p + 1 + j) (by omega) (by omega) hget'
  have hafter := length_behind_le data
  obtain ⟨least, hloop⟩ := splitLoop_split (behind data) (by omega) hcomma' hspace' hbefore'
  obtain ⟨-, hquote, hdate⟩ := toInt_position (n := c - (p + 1)) (by omega)
  have hrest : p + 1 + (c - (p + 1) + 1) = c + 1 := by omega
  refine ⟨least, fun fuel hle => ?_⟩
  rw [stringToQuote_eq_map fuel (hposition ▸ hmax) (by omega) (by rw [hposition, hstart]; omega),
    hloop fuel hle, hposition, hname, hbehind]
  simp only [Except.map, hquote, hdate, List.drop_drop, hrest]

theorem stringToQuote_split_spaced :
    ∃ least, ∀ fuel, least ≤ fuel →
      stringToQuote fuel ['a', ',', 'b', ',', ' ', 'c', ',', 'd'] =
        .ok ⟨['a'], ['b', ',', ' ', 'c'], ['d']⟩ :=
  stringToQuote_split (p := 1) (c := 6) (by decide) rfl (by decide) (by decide) rfl (by decide)
    (by decide)

end Netsvc.CppClientServer
