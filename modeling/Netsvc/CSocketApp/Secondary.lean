import Netsvc.CSocketApp.Exchange

/-! The rounds of the secondary in `main.c`, whatever `recv` comes to in them. -/
namespace Netsvc.CSocketApp
open Netsvc.Library.ByteOrder Netsvc.Library.Transition

inductive Outcome
  | received (bytes : Bytes) (pos : 0 < bytes.length) (le : bytes.length ≤ wordSize)
  | endOfStream
  | error

def Outcome.bytes : Outcome → Bytes
  | received bytes _ _ => bytes
  | endOfStream => []
  | error => []

def Outcome.Complete (outcome : Outcome) : Prop := outcome.bytes.length = wordSize

instance (outcome : Outcome) : Decidable outcome.Complete := inferInstanceAs (Decidable (_ = _))

def valueOf (message : Bytes) : Int32 := (Order.big.word message).toInt32

inductive Act
  | fibonacci (index : Int32)
  | write (message : Bytes)

structure Round where
  outcome : Outcome
  acts : List Act

/-- The rounds of the secondary: `read_int` is converted in place whatever `recv`
has returned. On index 0 `fibonacci` ends the process. -/
def secondaryRounds (order : Order) : Int32 → List Outcome → List Round
  | _, [] => []
  | readInt, outcome :: outcomes =>
    let readInt := ntohlInt order (receiveInt order readInt outcome.bytes)
    match fibResultOf readInt with
    | none => [⟨outcome, [.fibonacci readInt]⟩]
    | some fib => ⟨outcome, [.fibonacci readInt, .write (sendInt order fib)]⟩ ::
        secondaryRounds order readInt outcomes

structure Round.Right (round : Round) : Prop where
  index : ∀ index, .fibonacci index ∈ round.acts → index = valueOf round.outcome.bytes
  silent : ¬round.outcome.Complete → round.acts = []

theorem ntohlInt_receiveInt (order : Order) (before : Int32) {message : Bytes}
    (h : message.length = wordSize) :
    ntohlInt order (receiveInt order before message) = valueOf message := by
  rw [receiveInt_eq order before h]
  unfold ntohlInt intOf
  rw [UInt32.toUInt32_toInt32, ntohl_word order h]
  rfl

def WholeUntilZero (outcomes : List Outcome) : Prop :=
  ∀ before outcome after, outcomes = before ++ outcome :: after →
    outcome.Complete ∨ ∃ earlier ∈ before, earlier.Complete ∧ valueOf earlier.bytes = 0

theorem wholeUntilZero_nil : WholeUntilZero [] := by
  intro before outcome after h
  exact absurd h.symm (List.append_ne_nil_of_right_ne_nil _ (List.cons_ne_nil _ _))

theorem wholeUntilZero_cons (first : Outcome) (outcomes : List Outcome) :
    WholeUntilZero (first :: outcomes) ↔
      first.Complete ∧ (valueOf first.bytes = 0 ∨ WholeUntilZero outcomes) := by
  constructor
  · intro h
    have hfirst : first.Complete := by simpa using h [] first outcomes rfl
    refine ⟨hfirst, or_iff_not_imp_left.mpr fun hvalue before outcome after heq => ?_⟩
    refine (h (first :: before) outcome after (congrArg (first :: ·) heq)).imp_right ?_
    rintro ⟨earlier, hmem, hcomplete, hzero⟩
    rcases List.mem_cons.mp hmem with rfl | hmem
    · exact absurd hzero hvalue
    · exact ⟨earlier, hmem, hcomplete, hzero⟩
  · rintro ⟨hfirst, hrest⟩ before outcome after heq
    cases before with
    | nil =>
      cases heq
      exact .inl hfirst
    | cons other before =>
      obtain ⟨rfl, htail⟩ := List.cons.inj heq
      rcases hrest with hzero | hrest
      · exact .inr ⟨first, List.mem_cons_self, hfirst, hzero⟩
      · refine (hrest before outcome after htail).imp_right ?_
        rintro ⟨earlier, hmem, hearlier⟩
        exact ⟨earlier, List.mem_cons_of_mem _ hmem, hearlier⟩

theorem Round.right_iff (outcome : Outcome) (index : Int32) (late : List Act)
    (hlate : ∀ act ∈ late, ∃ message, act = .write message) :
    (Round.mk outcome (.fibonacci index :: late)).Right ↔
      outcome.Complete ∧ index = valueOf outcome.bytes := by
  constructor
  · intro h
    refine ⟨?_, h.index index List.mem_cons_self⟩
    by_contra hnot
    exact List.cons_ne_nil _ _ (h.silent hnot)
  · rintro ⟨hcomplete, rfl⟩
    refine ⟨fun other hmem => ?_, fun hnot => absurd hcomplete hnot⟩
    rcases List.mem_cons.mp hmem with heq | hmem
    · exact Act.fibonacci.inj heq
    · obtain ⟨message, hwrite⟩ := hlate _ hmem
      cases hwrite

theorem secondaryRounds_right_iff (order : Order) (readInt : Int32) (outcomes : List Outcome) :
    (∀ round ∈ secondaryRounds order readInt outcomes, round.Right) ↔
      WholeUntilZero outcomes := by
  induction outcomes generalizing readInt with
  | nil => exact iff_of_true nofun wholeUntilZero_nil
  | cons first outcomes ih =>
    have hvalue : first.Complete →
        ntohlInt order (receiveInt order readInt first.bytes) = valueOf first.bytes :=
      ntohlInt_receiveInt order readInt
    rw [wholeUntilZero_cons, secondaryRounds]
    set index := ntohlInt order (receiveInt order readInt first.bytes)
    cases hfib : fibResultOf index with
    | none =>
      have hzero := fibResultOf_eq_none_iff.mp hfib
      rw [List.forall_mem_singleton, Round.right_iff first index [] nofun]
      constructor
      · rintro ⟨hcomplete, hindex⟩
        exact ⟨hcomplete, .inl (hindex.symm.trans hzero)⟩
      · rintro ⟨hcomplete, -⟩
        exact ⟨hcomplete, hvalue hcomplete⟩
    | some fib =>
      have hne : index ≠ 0 := by
        intro hzero
        rw [fibResultOf_eq_none_iff.mpr hzero] at hfib
        cases hfib
      rw [List.forall_mem_cons, ih, Round.right_iff first index [.write (sendInt order fib)]
        (List.forall_mem_singleton.mpr ⟨_, rfl⟩)]
      constructor
      · rintro ⟨⟨hcomplete, -⟩, hrest⟩
        exact ⟨hcomplete, .inr hrest⟩
      · rintro ⟨hcomplete, hrest⟩
        have hindex := hvalue hcomplete
        exact ⟨⟨hcomplete, hindex⟩, hrest.resolve_left (hindex ▸ hne)⟩

/-- The secondary acts on received indexes alone exactly when no `recv` falls short
before the index 0 ends it. -/
theorem secondary_acts_iff (order : Order) (outcomes : List Outcome) :
    (∀ round ∈ secondaryRounds order 0 outcomes, round.Right) ↔ WholeUntilZero outcomes :=
  secondaryRounds_right_iff order 0 outcomes

/-- A message with the index 5, and then the end of the stream: the secondary swaps
the bytes of the 5 it has and answers again. -/
theorem secondaryRounds_stale :
    ¬∀ (order : Order) (outcomes : List Outcome),
      ∀ round ∈ secondaryRounds order 0 outcomes, round.Right := by
  intro hall
  have hright := hall .little [.received [0, 0, 0, 5] (by decide) (by decide), .endOfStream]
  have hwhole := (secondaryRounds_right_iff .little 0 _).mp hright
  obtain ⟨-, hzero | hend⟩ := (wholeUntilZero_cons _ _).mp hwhole
  · exact absurd hzero (by decide)
  · exact absurd ((wholeUntilZero_cons _ _).mp hend).1 (by decide)

def Act.index : Act → Option Int32
  | fibonacci index => some index
  | write _ => none

def Round.indexes (round : Round) : List Int32 := round.acts.filterMap Act.index

/-- The rounds are those of a secondary in the exchange, on the same outcomes. -/
theorem Peer.secondaryRounds {setup : Setup} {order : Order} {p : Peer} (hp : p.point = .loop)
    (hr : p.readingIndex = true) {outcomes : List Outcome}
    (hi : p.i + outcomes.length ≤ setup.maxMessages) :
    ∃ p', Reachable (Peer.Step setup false order) p p' ∧ p'.indexes =
      p.indexes ++ (CSocketApp.secondaryRounds order p.readInt outcomes).flatMap
        Round.indexes := by
  induction outcomes generalizing p with
  | nil => exact ⟨p, .refl p, (List.append_nil _).symm⟩
  | cons first outcomes ih =>
    rw [List.length_cons] at hi
    have hawait : Peer.Step setup false order p .none { p with point := .reading } :=
      .await hp (by omega) rfl
    have hread : Peer.Step setup false order { p with point := .reading } (.receive first.bytes)
        { p with point := .received, readInt := receiveInt order p.readInt first.bytes } :=
      .read first.bytes rfl
    rw [CSocketApp.secondaryRounds]
    set index := ntohlInt order (receiveInt order p.readInt first.bytes)
    cases hfib : fibResultOf index with
    | none =>
      exact ⟨_, .head hawait (.head hread (.head (.indexExit rfl hr hfib) (.refl _))), rfl⟩
    | some fib =>
      have hnext : p.i + 1 + outcomes.length ≤ setup.maxMessages := by omega
      obtain ⟨p', hreach, hindexes⟩ := ih (p := { p with
        point := .loop, i := p.i + 1, readInt := index, fibResult := fib
        indexes := p.indexes ++ [index] }) rfl hr hnext
      refine ⟨p', .head hawait (.head hread (.head (.index fib rfl hr hfib) ?_)), ?_⟩
      · exact .head (.reply rfl) hreach
      · rw [hindexes, List.append_assoc]
        rfl

end Netsvc.CSocketApp
