import Netsvc.JavaClientServer.Structure

/-! The map of quotes the server of `WOTD.java` fills, and the key it draws. -/
namespace Netsvc.JavaClientServer

def quotes (csvFile : Text) (key : Nat) : Option (List Text) :=
  (readFile csvFile Static.initial).1[key]?

/-- The argument of `nextInt`. -/
def quoteBound : Nat := 1660

def Parser.isOpen (p : Parser) : Bool := p.static.isMultiLine || p.inQuotes

theorem Parser.isOpen_embeddedQuotes (p : Parser) (c : Char) :
    (p.embeddedQuotes c).isOpen = p.isOpen := by
  unfold Parser.embeddedQuotes
  split_ifs <;> rfl

theorem Parser.isOpen_restorePending (p : Parser) :
    p.restorePending.isOpen = p.isOpen ∧ p.restorePending.static.isMultiLine = false := by
  unfold Parser.restorePending Parser.isOpen
  split_ifs with h
  · simp [h]
  · simp [h]

theorem Parser.isOpen_consume {p : Parser} (h : p.static.isMultiLine = false) (c : Char) :
    (p.consume defaultSeparator defaultQuoteChar c).isOpen = (p.isOpen ^^ decide (c = '"')) := by
  unfold Parser.consume Parser.isOpen defaultQuoteChar doubleQuotes
  split_ifs with hc hs
  · simp [h, hc]
  · simp [hc]
  · simp [hc]

theorem Parser.isOpen_next (p : Parser) (c : Char) :
    (p.next c).isOpen = (p.isOpen ^^ decide (c = '"')) := by
  have hrestored := (p.embeddedQuotes c).isOpen_restorePending
  rw [p.isOpen_embeddedQuotes c] at hrestored
  rw [← hrestored.1]
  exact Parser.isOpen_consume hrestored.2 c

theorem decide_odd_add (m n : ℕ) :
    decide (Odd (m + n)) = (decide (Odd m) ^^ decide (Odd n)) := by
  simp only [Nat.odd_iff]
  rcases Nat.mod_two_eq_zero_or_one m with hm | hm <;>
    rcases Nat.mod_two_eq_zero_or_one n with hn | hn <;> simp [Nat.add_mod, hm, hn]

theorem Parser.isOpen_feed (p : Parser) (line : Text) :
    (p.feed line).isOpen = (p.isOpen ^^ decide (Odd (line.count '"'))) := by
  induction line generalizing p with
  | nil => simp
  | cons c line ih =>
    rw [Parser.feed_cons, ih, Parser.isOpen_next, List.count_cons, decide_odd_add, Bool.xor_assoc]
    congr 1
    rw [Bool.xor_comm]
    congr 1
    by_cases hc : c = '"' <;> simp [hc]

theorem Parser.isMultiLine_finish (p : Parser) : p.finish.2.isMultiLine = p.isOpen := by
  unfold Parser.finish Parser.isOpen
  split_ifs with h <;> simp [h]

theorem isMultiLine_parseLine (line : Text) (static : Static) :
    (parseLine line static).2.isMultiLine =
      (static.isMultiLine ^^ decide (Odd (line.count '"'))) := by
  rw [parseLine_eq, Parser.isMultiLine_finish, Parser.isOpen_feed]
  simp [Parser.isOpen, Parser.start]

theorem Reader.step_isMultiLine (state : List (List Text) × Static) (line : Text) :
    (Reader.step state line).2.isMultiLine =
        (state.2.isMultiLine ^^ decide (Odd (line.count '"'))) ∧
      (Reader.step state line).1.length =
        state.1.length + if (Reader.step state line).2.isMultiLine then 0 else 1 := by
  have hparse := isMultiLine_parseLine line state.2
  unfold Reader.step Reader.addFields
  dsimp only
  split_ifs with hopen hpending <;> simp_all

theorem length_foldl_step (lines : List Text) (static : Static) :
    (lines.foldl Reader.step ([], static)).2.isMultiLine =
        (static.isMultiLine ^^ decide (Odd (quotesIn lines))) ∧
      (lines.foldl Reader.step ([], static)).1.length =
        if static.isMultiLine then lines.length - (evenEnds lines).length
        else (evenEnds lines).length := by
  induction lines using List.reverseRecOn with
  | nil => simp [quotesIn, evenEnds]
  | append_singleton lines line ih =>
    have hquotes : quotesIn (lines ++ [line]) = quotesIn lines + line.count '"' := by
      rw [quotesIn_append]
      simp [quotesIn]
    have hle : (evenEnds lines).length ≤ lines.length := by
      have hfilter : (evenEnds lines).length ≤ (List.range lines.length).length :=
        List.length_filter_le _ _
      rwa [List.length_range] at hfilter
    rw [List.foldl_append, List.foldl_cons, List.foldl_nil]
    set state := lines.foldl Reader.step ([], static)
    have hstep := Reader.step_isMultiLine state line
    have hopen : (Reader.step state line).2.isMultiLine =
        (static.isMultiLine ^^ decide (Odd (quotesIn (lines ++ [line])))) := by
      rw [hstep.1, ih.1, hquotes, decide_odd_add, Bool.xor_assoc]
    refine ⟨hopen, ?_⟩
    rw [hstep.2, ih.2, hopen, evenEnds_snoc, List.length_append, List.length_append]
    by_cases heven : Even (quotesIn (lines ++ [line]))
    · cases static.isMultiLine <;> simp [heven]
    · cases static.isMultiLine <;> simp [heven, Nat.not_even_iff_odd.mp heven]
      omega

theorem length_readFileLines (lines : List Text) :
    (lines.foldl Reader.step ([], Static.initial)).2.isMultiLine = decide (Odd (quotesIn lines)) ∧
      (lines.foldl Reader.step ([], Static.initial)).1.length = (evenEnds lines).length := by
  simpa [Static.initial] using length_foldl_step lines Static.initial

/-- Every key `nextInt` can give belongs to a record. -/
theorem quotes_isSome_iff (csvFile : Text) :
    (∀ key < quoteBound, (quotes csvFile key).isSome) ↔
      quoteBound ≤ (evenEnds (readLines csvFile)).length := by
  have hlength : (readFile csvFile Static.initial).1.length =
      (evenEnds (readLines csvFile)).length := by
    unfold readFile
    rw [readFileLines_eq]
    exact (length_readFileLines _).2
  simp only [quotes, Option.isSome_iff_ne_none, ne_eq, List.getElem?_eq_none_iff, hlength]
  constructor
  · intro h
    have hlast := h (quoteBound - 1) (by decide)
    unfold quoteBound at hlast ⊢
    omega
  · intro h key hkey
    omega

end Netsvc.JavaClientServer
