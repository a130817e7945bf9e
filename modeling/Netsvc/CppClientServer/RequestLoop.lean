import Netsvc.CppClientServer.Session
import Netsvc.CppClientServer.SplitPoint
import Netsvc.JavaClientServer.RequestLoop
import Netsvc.Library.Loop

/-! The request loop of the server child of `client_server.cpp` when the client goes
away: from then on `recv` returns 0, and `read_data` an empty string. -/
namespace Netsvc.CppClientServer
open Netsvc.Library.Loop Netsvc.Library.Delimiter

/-- The child at the test of its condition, with the texts `recv` has left to
return before it returns 0, and the values `rand` will give. -/
structure Child where
  dataAsk : Text
  random : Fin maxQuotes
  draws : ℕ → Fin maxQuotes
  segments : List Text

def Child.start (random : Fin maxQuotes) (draws : ℕ → Fin maxQuotes) (segments : List Text) :
    Child :=
  ⟨[], random, draws, segments⟩

/-- The line is split, or the split throws. Where neither holds the split itself
never ends. -/
def Splits (line : Text) : Prop := ∃ fuel quote, stringToQuote fuel line = .ok quote

def Throws (line : Text) : Prop := ∃ fuel, stringToQuote fuel line = .error .outOfRange

def Child.next (c : Child) (dataAsk : Text) (segments : List Text) : Child :=
  if dataAsk = ['n'] then ⟨dataAsk, c.draws 0, fun i => c.draws (i + 1), segments⟩
  else ⟨dataAsk, c.random, c.draws, segments⟩

inductive Child.Exit (arr : Fin maxQuotes → Text) : Child → Prop
  | closed {c : Child} (h : c.dataAsk = ['e']) : Exit arr c
  | crashed {c : Child} (h : c.dataAsk ≠ ['e']) (ht : Throws (arr c.random)) : Exit arr c

inductive Child.Round (arr : Fin maxQuotes → Text) : Child → Child → Prop
  | request {c : Child} {segment : Text} {rest : List Text} (h : c.dataAsk ≠ ['e'])
      (hs : Splits (arr c.random)) (hi : c.segments = segment :: rest) :
      Round arr c (c.next segment rest)
  | endOfFile {c : Child} (h : c.dataAsk ≠ ['e']) (hs : Splits (arr c.random))
      (hi : c.segments = []) : Round arr c (c.next [] [])

variable {arr : Fin maxQuotes → Text}

def Child.pick (c : Child) (k : ℕ) : Fin maxQuotes :=
  match (c.segments.take k).count ['n'] with
  | 0 => c.random
  | m + 1 => c.draws m

/-- The rounds before round `k` are ordinary, and round `k` is the last. -/
structure Child.EndsAt (arr : Fin maxQuotes → Text) (c : Child) (k : ℕ) : Prop where
  splits : ∀ j < k, Splits (arr (c.pick j))
  goesOn : ∀ j < k, c.segments[j]? ≠ some ['e']
  last : Throws (arr (c.pick k)) ∨ Splits (arr (c.pick k)) ∧ c.segments[k]? = some ['e']

section Next
variable (c : Child) (segment : Text) (rest : List Text)

@[simp] theorem Child.next_dataAsk : (c.next segment rest).dataAsk = segment := by
  unfold Child.next
  split_ifs <;> rfl

@[simp] theorem Child.next_segments : (c.next segment rest).segments = rest := by
  unfold Child.next
  split_ifs <;> rfl

@[simp] theorem Child.next_nil_random : (c.next [] rest).random = c.random := rfl

theorem Child.pick_zero : c.pick 0 = c.random := rfl

variable {c segment rest} (hi : c.segments = segment :: rest)
include hi

theorem Child.pick_succ (k : ℕ) : c.pick (k + 1) = (c.next segment rest).pick k := by
  unfold Child.pick
  rw [hi, Child.next_segments, List.take_succ_cons]
  unfold Child.next
  split_ifs with hn
  · rw [hn, List.count_cons_self]
    cases (rest.take k).count ['n'] <;> rfl
  · rw [List.count_cons_of_ne hn]

theorem Child.endsAt_zero : c.EndsAt arr 0 ↔
    Throws (arr c.random) ∨ Splits (arr c.random) ∧ segment = ['e'] := by
  constructor
  · intro h
    simpa [Child.pick_zero, hi] using h.last
  · intro h
    exact ⟨nofun, nofun, by simpa [Child.pick_zero, hi] using h⟩

theorem Child.endsAt_succ (k : ℕ) : c.EndsAt arr (k + 1) ↔
    Splits (arr c.random) ∧ segment ≠ ['e'] ∧ (c.next segment rest).EndsAt arr k := by
  have hsegments : ∀ j, c.segments[j + 1]? = (c.next segment rest).segments[j]? := by
    intro j
    rw [hi, List.getElem?_cons_succ, Child.next_segments]
  constructor
  · rintro ⟨hsplits, hgoesOn, hlast⟩
    refine ⟨hsplits 0 (Nat.succ_pos k), ?_, fun j hj => ?_, fun j hj => ?_, ?_⟩
    · simpa [hi] using hgoesOn 0 (Nat.succ_pos k)
    · exact Child.pick_succ hi j ▸ hsplits (j + 1) (Nat.succ_lt_succ hj)
    · exact hsegments j ▸ hgoesOn (j + 1) (Nat.succ_lt_succ hj)
    · rwa [Child.pick_succ hi, hsegments] at hlast
  · rintro ⟨hsplit, hne, hsplits, hgoesOn, hlast⟩
    refine ⟨fun j hj => ?_, fun j hj => ?_, ?_⟩
    · cases j with
      | zero => exact hsplit
      | succ j => exact Child.pick_succ hi j ▸ hsplits j (Nat.lt_of_succ_lt_succ hj)
    · cases j with
      | zero => simpa [hi] using hne
      | succ j => exact hsegments j ▸ hgoesOn j (Nat.lt_of_succ_lt_succ hj)
    · rwa [Child.pick_succ hi, hsegments]

end Next

theorem Child.ends_nil {c : Child} (h : c.dataAsk ≠ ['e']) (hi : c.segments = []) :
    Ends (Child.Exit arr) (Child.Round arr) c ↔ Throws (arr c.random) := by
  constructor
  · intro hends
    by_contra hthrows
    refine not_ends_of_invariant
      (fun c' : Child => c'.dataAsk ≠ ['e'] ∧ c'.segments = [] ∧ c'.random = c.random) ?_ ?_
      ⟨h, hi, rfl⟩ hends
    · rintro c' ⟨hask, -, hrandom⟩ hexit
      cases hexit with
      | closed hclosed => exact hask hclosed
      | crashed _ ht => exact hthrows (hrandom ▸ ht)
    · rintro c' t ⟨hask, hsegments, hrandom⟩ hround
      cases hround with
      | request _ _ hcons => cases hcons.symm.trans hsegments
      | endOfFile => exact ⟨by simp, by simp, by simpa using hrandom⟩
  · intro hthrows
    exact Netsvc.Library.Loop.ends_iff.mpr (.inl (.crashed h hthrows))

theorem Child.ends_cons {c : Child} {segment : Text} {rest : List Text} (h : c.dataAsk ≠ ['e'])
    (hi : c.segments = segment :: rest) :
    Ends (Child.Exit arr) (Child.Round arr) c ↔ Throws (arr c.random) ∨
      Splits (arr c.random) ∧ Ends (Child.Exit arr) (Child.Round arr) (c.next segment rest) := by
  rw [Netsvc.Library.Loop.ends_iff]
  constructor
  · rintro (hexit | ⟨t, hround, hends⟩)
    · cases hexit with
      | closed hclosed => exact absurd hclosed h
      | crashed _ ht => exact .inl ht
    · cases hround with
      | request _ hs hcons =>
        cases hi.symm.trans hcons
        exact .inr ⟨hs, hends⟩
      | endOfFile _ _ hnil => cases hi.symm.trans hnil
  · rintro (ht | ⟨hs, hends⟩)
    · exact .inl (.crashed h ht)
    · exact .inr ⟨_, .request h hs hi, hends⟩

theorem Child.ends_iff {c : Child} (h : c.dataAsk ≠ ['e']) :
    Ends (Child.Exit arr) (Child.Round arr) c ↔ ∃ k ≤ c.segments.length, c.EndsAt arr k := by
  induction hi : c.segments generalizing c with
  | nil =>
    rw [Child.ends_nil h hi]
    constructor
    · intro ht
      exact ⟨0, le_rfl, nofun, nofun, .inl ht⟩
    · rintro ⟨k, hk, hends⟩
      obtain rfl := Nat.le_zero.mp hk
      rcases hends.last with ht | ⟨-, hend⟩
      · exact ht
      · rw [hi] at hend
        cases hend
  | cons segment rest ih =>
    rw [Child.ends_cons h hi]
    by_cases hend : segment = ['e']
    · have hclosed : Ends (Child.Exit arr) (Child.Round arr) (c.next segment rest) :=
        Netsvc.Library.Loop.ends_iff.mpr (.inl (.closed ((c.next_dataAsk _ _).trans hend)))
      constructor
      · intro hor
        exact ⟨0, Nat.zero_le _, (Child.endsAt_zero hi).mpr (hor.imp_right fun hs => ⟨hs.1, hend⟩)⟩
      · rintro ⟨k, -, hat⟩
        cases k with
        | zero => exact ((Child.endsAt_zero hi).mp hat).imp_right fun hs => ⟨hs.1, hclosed⟩
        | succ k => exact absurd hend ((Child.endsAt_succ hi k).mp hat).2.1
    · have hnext := ih ((c.next_dataAsk segment rest).trans_ne hend) (c.next_segments segment rest)
      rw [hnext]
      constructor
      · rintro (ht | ⟨hs, k, hk, hat⟩)
        · exact ⟨0, Nat.zero_le _, (Child.endsAt_zero hi).mpr (.inl ht)⟩
        · exact ⟨k + 1, Nat.succ_le_succ hk, (Child.endsAt_succ hi k).mpr ⟨hs, hend, hat⟩⟩
      · rintro ⟨k, hk, hat⟩
        cases k with
        | zero => exact ((Child.endsAt_zero hi).mp hat).imp_right fun hs => absurd hs.2 hend
        | succ k =>
          obtain ⟨hs, -, hat⟩ := (Child.endsAt_succ hi k).mp hat
          exact .inr ⟨hs, k, Nat.le_of_succ_le_succ hk, hat⟩

theorem Splits.not_throws {line : Text} (h : Splits line) : ¬Throws line := by
  rintro ⟨fuel', hthrows⟩
  obtain ⟨fuel, quote, hsplits⟩ := h
  have hsame : stringToQuote fuel line = stringToQuote fuel' line := by
    apply stringToQuote_unique
    · simp [hsplits]
    · simp [hthrows]
  rw [hsplits, hthrows] at hsame
  cases hsame

theorem Child.Round.unique (c t u : Child) (ht : Child.Round arr c t) (hu : Child.Round arr c u) :
    t = u := by
  cases ht with
  | request _ _ hi =>
    cases hu with
    | request _ _ hi' =>
      cases hi.symm.trans hi'
      rfl
    | endOfFile _ _ hnil => cases hi.symm.trans hnil
  | endOfFile _ _ hnil =>
    cases hu with
    | request _ _ hi => cases hi.symm.trans hnil
    | endOfFile => rfl

theorem Child.Round.splits {c t : Child} (h : Child.Round arr c t) :
    c.dataAsk ≠ ['e'] ∧ Splits (arr c.random) := by
  cases h with
  | request h hs => exact ⟨h, hs⟩
  | endOfFile h hs => exact ⟨h, hs⟩

theorem Child.Exit.not_round (c t : Child) (h : Child.Exit arr c) : ¬Child.Round arr c t := by
  intro hround
  cases h with
  | closed hclosed => exact hround.splits.1 hclosed
  | crashed _ ht => exact hround.splits.2.not_throws ht

theorem Child.Round.random_eq {c t : Child} (h : Child.Round arr c t) (hask : t.dataAsk ≠ ['n']) :
    t.random = c.random := by
  cases h with
  | request | endOfFile =>
    rw [Child.next_dataAsk] at hask
    rw [Child.next, if_neg hask]

theorem Child.Round.session {c t : Child} (h : Child.Round arr c t) {s : Session}
    (hs : s.server = .waiting) (hrandom : s.random = c.random)
    (hrecv : (∃ rest, Segment t.dataAsk rest s.toServer) ∨
      t.dataAsk = [] ∧ s.toServer = [] ∧ s.client = .closed) :
    ∃ e s₁ s₂, Session.Step arr s e s₁ ∧ Session.Step arr s₁ .answer s₂ ∧
      s₂.random = t.random ∧ (s₂.server = .closed ↔ t.dataAsk = ['e']) := by
  obtain ⟨fuel, quote, hquote⟩ := hrandom ▸ h.splits.2
  have hn : t.dataAsk ≠ ['n'] → t.random = s.random := by
    intro hask
    rw [h.random_eq hask, hrandom]
  have hclosed : ∀ line (s₁ : Session),
      (s₁.answer line quote t.dataAsk t.random).server = .closed ↔ t.dataAsk = ['e'] := by
    intro line s₁
    unfold Session.answer
    split_ifs with hend <;> simp [hend]
  rcases hrecv with ⟨rest, hsegment⟩ | ⟨hask, hempty, hclient⟩
  · exact ⟨_, _, _, .receive hs hquote hsegment, .answer rfl hn, rfl, hclosed _ _⟩
  · rw [hask] at hn hclosed ⊢
    exact ⟨_, _, _, .receiveEnd hs hquote hempty hclient, .answer rfl hn, rfl, hclosed _ _⟩

theorem Child.not_forever {c : Child} (h : Ends (Child.Exit arr) (Child.Round arr) c) :
    ¬∃ run : ℕ → Child, run 0 = c ∧ ∀ n, Child.Round arr (run n) (run (n + 1)) :=
  h.not_forever Child.Round.unique Child.Exit.not_round

theorem Child.ends_iff_of_splits {c : Child} (hall : ∀ index, Splits (arr index))
    (h : c.dataAsk ≠ ['e']) :
    Ends (Child.Exit arr) (Child.Round arr) c ↔ ['e'] ∈ c.segments := by
  rw [Child.ends_iff h]
  constructor
  · rintro ⟨k, -, hat⟩
    have hend := (hat.last.resolve_left (hall _).not_throws).2
    exact List.mem_of_getElem? hend
  · intro hmem
    obtain ⟨k, hfirst⟩ : ∃ k, NextAt ['e'] c.segments 0 k := ⟨_, nextAt_idxOf hmem⟩
    have hlt := (List.getElem?_eq_some_iff.mp hfirst.get).1
    exact ⟨k, hlt.le, fun j _ => hall _, fun j hj => hfirst.ne j (Nat.zero_le j) hj,
      .inr ⟨hall _, hfirst.get⟩⟩

/-- The read error behind the end of the stream ends neither loop. -/
theorem requestLoops_end_iff (qotd : Option (List Text)) (input : List Text)
    (arr : Fin maxQuotes → Text) (random : Fin maxQuotes) (draws : ℕ → Fin maxQuotes)
    (segments : List Text) :
    (Ends (JavaClientServer.Worker.Exit qotd) (JavaClientServer.Worker.Round qotd)
        (JavaClientServer.Worker.start input) ↔
      ∃ request ∈ input, request = ['E'] ∨ JavaClientServer.Uncaught qotd request) ∧
    (Ends (Child.Exit arr) (Child.Round arr) (Child.start random draws segments) ↔
      ∃ k ≤ segments.length, (Child.start random draws segments).EndsAt arr k) := by
  constructor
  · exact JavaClientServer.Worker.ends_iff (by simp)
  · exact Child.ends_iff (by simp [Child.start])

theorem requestLoops_spin_on_empty :
    ¬Ends (JavaClientServer.Worker.Exit (some [['a'], ['b'], ['c']]))
      (JavaClientServer.Worker.Round (some [['a'], ['b'], ['c']]))
      (JavaClientServer.Worker.start []) ∧
    ¬Ends (Child.Exit fun _ => ['a', ',', 'b', ',', 'c'])
      (Child.Round fun _ => ['a', ',', 'b', ',', 'c'])
      (Child.start ⟨0, by decide⟩ (fun _ => ⟨0, by decide⟩) []) := by
  have hsplits : Splits ['a', ',', 'b', ',', 'c'] := ⟨1, ⟨['a'], ['b'], ['c']⟩, rfl⟩
  constructor
  · exact JavaClientServer.Worker.not_ends (by simp)
  · intro hends
    exact hsplits.not_throws ((Child.ends_nil (by simp [Child.start]) rfl).mp hends)

end Netsvc.CppClientServer
