import Netsvc.JavaClientServer.Selection

/-! What one call of `readFile` leaves in the static fields, and what the next
call makes of it. -/
namespace Netsvc.JavaClientServer

theorem Parser.static_next (p : Parser) (c : Char) : (p.next c).static =
    if p.static.isMultiLine then { p.static with isMultiLine := false, pendingField := [] }
    else p.static := by
  have hflag : (p.embeddedQuotes c).static = p.static := by
    unfold Parser.embeddedQuotes
    split_ifs <;> rfl
  have hconsume : ∀ q : Parser,
      (q.consume defaultSeparator defaultQuoteChar c).static = q.static := by
    intro q
    unfold Parser.consume
    split_ifs <;> rfl
  unfold Parser.next Parser.step
  rw [hconsume]
  unfold Parser.restorePending
  rw [hflag]
  split_ifs <;> simp [hflag]

def Static.Tidy (static : Static) : Prop := static.isMultiLine = false → static.pendingField = []

theorem Parser.static_feed {p : Parser} (h : p.static.Tidy) (line : Text) :
    (p.feed line).static.Tidy ∧
      (p.feed line).static.pendingFieldLine = p.static.pendingFieldLine := by
  induction line generalizing p with
  | nil => exact ⟨h, rfl⟩
  | cons c line ih =>
    have hnext : (p.next c).static.Tidy ∧
        (p.next c).static.pendingFieldLine = p.static.pendingFieldLine := by
      rw [Parser.static_next]
      split_ifs
      · exact ⟨fun _ => rfl, rfl⟩
      · exact ⟨h, rfl⟩
    obtain ⟨htidy, hline⟩ := ih hnext.1
    exact ⟨htidy, hline.trans hnext.2⟩

theorem parseLine_static {static : Static} (h : static.Tidy) (line : Text) :
    (parseLine line static).2.Tidy := by
  have hfeed := (Parser.static_feed (p := Parser.start static) h line).1
  rw [parseLine_eq]
  unfold Parser.finish
  split_ifs
  · exact nofun
  · exact hfeed

def Static.Clean (static : Static) : Prop := static.isMultiLine = false → static = Static.initial

theorem Static.Clean.tidy {static : Static} (h : static.Clean) : static.Tidy := by
  intro hclosed
  rw [h hclosed]
  rfl

theorem Reader.step_clean {state : List (List Text) × Static} (h : state.2.Clean) (line : Text) :
    (Reader.step state line).2.Clean := by
  have htidy := parseLine_static h.tidy line
  unfold Reader.step
  set static := (parseLine line state.2).2
  obtain ⟨isMultiLine, pendingField, pendingFieldLine⟩ := static
  unfold Reader.addFields
  cases isMultiLine with
  | true => exact nofun
  | false =>
    have hfield : pendingField = [] := htidy rfl
    intro _
    cases pendingFieldLine with
    | nil => simp [hfield, Static.initial]
    | cons first rest => simp [hfield, Static.initial]

theorem foldl_step_clean (lines : List Text) :
    (lines.foldl Reader.step ([], Static.initial)).2.Clean := by
  induction lines using List.reverseRecOn with
  | nil => exact fun _ => rfl
  | append_singleton lines line ih =>
    rw [List.foldl_append]
    exact Reader.step_clean ih line

theorem readFileLines_static_iff (lines : List Text) :
    (readFileLines lines 0 Static.initial).2 = Static.initial ↔ Even (quotesIn lines) := by
  have hopen := (length_readFileLines lines).1
  rw [readFileLines_eq]
  constructor
  · intro hinitial
    rw [hinitial] at hopen
    have hodd : ¬Odd (quotesIn lines) := of_decide_eq_false hopen.symm
    exact Nat.not_odd_iff_even.mp hodd
  · intro heven
    apply foldl_step_clean lines
    rw [hopen]
    exact decide_eq_false (Nat.not_odd_iff_even.mpr heven)

theorem length_readFileLines_after {a : List Text} (ha : Odd (quotesIn a)) (b : List Text) :
    (readFileLines b 0 (readFileLines a 0 Static.initial).2).1.length =
      b.length - (evenEnds b).length := by
  have hopen : (readFileLines a 0 Static.initial).2.isMultiLine = true := by
    rw [readFileLines_eq, (length_readFileLines a).1]
    exact decide_eq_true ha
  rw [readFileLines_eq b, (length_foldl_step b _).2, if_pos hopen]

/-- Then the two lists can only agree by chance, on a file with as many even line
ends as odd ones. -/
theorem readFileLines_after_ne {a b : List Text} (ha : Odd (quotesIn a))
    (hb : 2 * (evenEnds b).length ≠ b.length) :
    (readFileLines b 0 (readFileLines a 0 Static.initial).2).1 ≠
      (readFileLines b 0 Static.initial).1 := by
  intro heq
  have hrecords := congrArg List.length heq
  rw [length_readFileLines_after ha, readFileLines_eq, (length_readFileLines b).2] at hrecords
  omega

/-- The next file is read as if it were the first, whatever it is, unless a field
was still open at the end of the one before it. -/
theorem readFileLines_after_iff (a : List Text) :
    (∀ b, (readFileLines b 0 (readFileLines a 0 Static.initial).2).1 =
      (readFileLines b 0 Static.initial).1) ↔ Even (quotesIn a) := by
  constructor
  · intro h
    by_contra hodd
    -- one empty line is a record of its own, or part of the field left open
    exact readFileLines_after_ne (Nat.not_even_iff_odd.mp hodd) (by decide) (h [[]])
  · intro heven b
    rw [(readFileLines_static_iff a).mpr heven]

theorem readFileLines_after_open :
    ¬∀ a b, (readFileLines b 0 (readFileLines a 0 Static.initial).2).1 =
      (readFileLines b 0 Static.initial).1 := by
  intro hall
  exact absurd (hall [['"', 'a']] [['b']]) (by decide)

end Netsvc.JavaClientServer
