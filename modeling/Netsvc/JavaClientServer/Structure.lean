import Mathlib.Algebra.Ring.Parity
import Mathlib.Data.List.Forall2
import Mathlib.Data.List.Induction
import Netsvc.JavaClientServer.ReadFile
import Netsvc.Library.Quoting

/-! The structural law of `readFile` on arbitrary lines, balanced or not. One
invariant ties the parser state to the quote parity of the record read so far;
line ends move it between the parser and the static fields. -/
namespace Netsvc.JavaClientServer
open Netsvc.Library.Quoting

def quotesIn (lines : List Text) : Nat := lines.flatten.count '"'

def joinLines (lines : List Text) : Text := newLine.intercalate lines

/-- Lines read so far: those of the finished records and those since the last
line end at which the number of double quotes was even. -/
structure Grouping where
  closed : List (List Text)
  current : List Text

def Grouping.lines (g : Grouping) : List Text := g.closed.flatten ++ g.current

def Grouping.add (g : Grouping) (line : Text) : Grouping :=
  if Even (quotesIn (g.lines ++ [line])) then ⟨g.closed ++ [g.current ++ [line]], []⟩
  else ⟨g.closed, g.current ++ [line]⟩

def groupLines (lines : List Text) : Grouping := lines.foldl Grouping.add ⟨[], []⟩

def evenEnds (lines : List Text) : List Nat :=
  (List.range lines.length).filter fun i => Even (quotesIn (lines.take (i + 1)))

/-- What the fields of a record keep of its lines. -/
def RecordLaw (lines record : List Text) : Prop :=
  record.length = separators ',' '"' 0 (joinLines lines) + 1 ∧
    strip '"' record.flatten = payload ',' '"' 0 (joinLines lines)

/-- What the static fields hold of the lines that belong to no record yet. -/
def PendingLaw (lines : List Text) (static : Static) : Prop :=
  static.isMultiLine = !lines.isEmpty ∧
    static.pendingFieldLine.length = separators ',' '"' 0 (joinLines lines) ∧
    strip '"' (static.pendingFieldLine.flatten ++ static.pendingField) =
      payload ',' '"' 0 (joinLines lines)

theorem quotesIn_append (left right : List Text) :
    quotesIn (left ++ right) = quotesIn left + quotesIn right := by
  simp [quotesIn]

theorem joinLines_snoc {lines : List Text} (h : lines ≠ []) (line : Text) :
    joinLines (lines ++ [line]) = joinLines lines ++ '\n' :: line := by
  induction lines with
  | nil => contradiction
  | cons first lines ih =>
    cases lines with
    | nil => simp [joinLines, newLine, List.intercalate_cons_cons]
    | cons second lines =>
      have hrest := ih (by simp)
      simp only [joinLines, newLine, List.cons_append, List.intercalate_cons_cons] at hrest ⊢
      simp [hrest]

theorem count_joinLines (lines : List Text) : (joinLines lines).count '"' = quotesIn lines := by
  induction lines using List.reverseRecOn with
  | nil => rfl
  | append_singleton lines line ih =>
    rcases eq_or_ne lines [] with rfl | hne
    · simp [joinLines, quotesIn]
    · simp [joinLines_snoc hne, ih, quotesIn]

section Grouping
variable (lines : List Text) (line : Text)

theorem groupLines_snoc : groupLines (lines ++ [line]) = (groupLines lines).add line := by
  simp [groupLines]

theorem Grouping.lines_add (g : Grouping) (line : Text) :
    (g.add line).lines = g.lines ++ [line] := by
  unfold Grouping.add
  split_ifs <;> simp [Grouping.lines]

theorem lines_groupLines : (groupLines lines).lines = lines := by
  induction lines using List.reverseRecOn with
  | nil => rfl
  | append_singleton lines line ih => rw [groupLines_snoc, Grouping.lines_add, ih]

theorem even_closed : Even (quotesIn (groupLines lines).closed.flatten) := by
  induction lines using List.reverseRecOn with
  | nil => simp [groupLines, quotesIn]
  | append_singleton lines line ih =>
    rw [groupLines_snoc]
    unfold Grouping.add
    split_ifs with h
    · simpa [Grouping.lines, quotesIn] using h
    · exact ih

theorem odd_current (h : (groupLines lines).current ≠ []) :
    Odd (quotesIn (groupLines lines).current) := by
  have hsum : quotesIn (groupLines lines).closed.flatten + quotesIn (groupLines lines).current =
      quotesIn lines := by
    rw [← quotesIn_append]
    exact congrArg quotesIn (lines_groupLines lines)
  suffices hodd : Odd (quotesIn lines) by
    rw [← hsum] at hodd
    exact (Nat.odd_add'.mp hodd).mpr (even_closed lines)
  induction lines using List.reverseRecOn with
  | nil => simp [groupLines] at h
  | append_singleton lines line _ =>
    rw [groupLines_snoc] at h
    unfold Grouping.add at h
    split_ifs at h with heven
    · simp at h
    · rwa [lines_groupLines, Nat.not_even_iff_odd] at heven

theorem evenEnds_snoc : evenEnds (lines ++ [line]) = evenEnds lines ++
    if Even (quotesIn (lines ++ [line])) then [lines.length] else [] := by
  have hbefore : ∀ i ∈ List.range lines.length,
      (lines ++ [line]).take (i + 1) = lines.take (i + 1) := by
    intro i hi
    exact List.take_append_of_le_length (Nat.succ_le_of_lt (List.mem_range.mp hi))
  unfold evenEnds
  rw [List.length_append, List.length_singleton, List.range_succ, List.filter_append]
  congr 1
  · exact List.filter_congr fun i hi => by rw [hbefore i hi]
  · have hall : (lines ++ [line]).take (lines.length + 1) = lines ++ [line] :=
      List.take_of_length_le (by simp)
    simp [List.filter_singleton, hall]

theorem length_closed : (groupLines lines).closed.length = (evenEnds lines).length := by
  induction lines using List.reverseRecOn with
  | nil => rfl
  | append_singleton lines line ih =>
    rw [groupLines_snoc, evenEnds_snoc]
    unfold Grouping.add
    rw [lines_groupLines]
    split_ifs <;> simp [ih]

end Grouping

/-- The parser has read `text` of the current record, whose first fields are in
`pendingFieldLine`. -/
structure Parser.Tracks (p : Parser) (text : Text) : Prop where
  restored : p.static.isMultiLine = false
  cleared : p.static.pendingField = []
  parity : p.inQuotes = true ↔ Odd (text.count '"')
  fields : (p.static.pendingFieldLine ++ p.result).length = separators ',' '"' 0 text
  kept : strip '"' ((p.static.pendingFieldLine ++ p.result).flatten ++ p.field) =
    payload ',' '"' 0 text

theorem Parser.next_quote_cases {p : Parser} (h : p.static.isMultiLine = false) :
    ∃ flag kept, strip '"' kept = [] ∧ p.next '"' = { p with
      field := p.field ++ kept, inQuotes := !p.inQuotes,
      isFieldWithEmbeddedDoubleQuotes := flag } := by
  cases he : p.isFieldWithEmbeddedDoubleQuotes with
  | false => exact ⟨true, [], rfl, by simp [Parser.next_quote_first h he]⟩
  | true =>
    by_cases hf : p.field = []
    · exact ⟨true, [], rfl, by simp [Parser.next_quote_empty h he hf, ← he]⟩
    · exact ⟨false, ['"'], by simp, Parser.next_quote_again h he hf⟩

theorem Parser.Tracks.next {p : Parser} {text : Text} (h : p.Tracks text) (c : Char) :
    (p.next c).Tracks (text ++ [c]) := by
  obtain ⟨hm, hp, hq, hl, hk⟩ := h
  rcases eq_or_ne c '"' with rfl | hc
  · obtain ⟨flag, kept, hstrip, hnext⟩ := Parser.next_quote_cases hm
    rw [hnext]
    refine ⟨hm, hp, ?_, ?_, ?_⟩
    · simp only [List.count_append, List.count_singleton_self, Nat.odd_add_one, ← hq]
      simp
    · simpa [separators_snoc] using hl
    · rw [payload_snoc, ← hk]
      simp [hstrip]
  · have hparity : Even (0 + text.count '"') ↔ p.inQuotes = false := by
      rw [Nat.zero_add, ← Nat.not_odd_iff_even, ← hq, Bool.not_eq_true]
    by_cases hsep : c = ',' ∧ p.inQuotes = false
    · obtain ⟨rfl, hin⟩ := hsep
      rw [Parser.next_separator hm hin]
      refine ⟨hm, hp, ?_, ?_, ?_⟩
      · simpa using hq
      · rw [separators_snoc, ← hl, if_pos ⟨hc, rfl, hparity.mpr hin⟩]
        simp only [List.length_append, List.length_singleton]
        omega
      · rw [payload_snoc, ← hk, if_pos (Or.inr ⟨rfl, hparity.mpr hin⟩)]
        simp
    · rw [Parser.next_of_ne_quote hm hc (by grind)]
      refine ⟨hm, hp, ?_, ?_, ?_⟩
      · simpa [List.count_singleton, hc] using hq
      · rw [separators_snoc, ← hl, if_neg (by rw [hparity]; tauto)]
        rfl
      · rw [payload_snoc, ← hk, if_neg (by rw [hparity]; tauto)]
        simp [strip_singleton_of_ne hc]

theorem Parser.Tracks.feed {p : Parser} {text : Text} (h : p.Tracks text) (line : Text) :
    (p.feed line).Tracks (text ++ line) := by
  induction line generalizing p text with
  | nil => simpa using h
  | cons c line ih => simpa using ih (h.next c)

def Parser.resumed (static : Static) : Parser :=
  ⟨⟨false, [], static.pendingFieldLine⟩, [], true, false, static.pendingField ++ newLine⟩

/-- The first character of a line puts the pending field back before it is
read. A line without characters never does. -/
theorem Parser.start_feed_eq_resumed {static : Static} (h : static.isMultiLine = true)
    {line : Text} (hline : line ≠ []) :
    (Parser.start static).feed line = (Parser.resumed static).feed line := by
  cases line with
  | nil => contradiction
  | cons c line =>
    simp only [Parser.feed_cons]
    congr 1
    simp only [Parser.next, Parser.step, Parser.start, Parser.resumed, Parser.embeddedQuotes,
      Parser.restorePending]
    by_cases hc : c = doubleQuotes <;> simp [hc, h]

theorem Parser.Tracks.start_initial : (Parser.start Static.initial).Tracks [] :=
  ⟨rfl, rfl, by simp [Parser.start], rfl, rfl⟩

theorem PendingLaw.resumed {lines : List Text} {static : Static} (h : PendingLaw lines static)
    (hodd : Odd (quotesIn lines)) :
    (Parser.resumed static).Tracks (joinLines lines ++ newLine) := by
  obtain ⟨_, hl, hk⟩ := h
  rw [← count_joinLines] at hodd
  have hopen : ¬Even (0 + (joinLines lines).count '"') := by simpa using hodd
  refine ⟨rfl, rfl, ?_, ?_, ?_⟩
  · simpa [Parser.resumed, newLine] using hodd
  · rw [newLine, separators_snoc, ← hl]
    simp [Parser.resumed]
  · rw [newLine, payload_snoc, ← hk]
    simp [Parser.resumed, newLine, strip_singleton_of_ne]

section LineEnd
variable {p : Parser} {text line : Text} {static : Static} (records : List (List Text))

theorem Reader.step_open (h : p.Tracks text) (hp : (Parser.start static).feed line = p)
    (hodd : Odd (text.count '"')) :
    Reader.step (records, static) line =
      (records, ⟨true, p.field, p.static.pendingFieldLine ++ p.result⟩) := by
  have hq := h.parity.mpr hodd
  simp [Reader.step, Reader.addFields, parseLine_eq, hp, Parser.finish, hq, joinArrays]

theorem Reader.step_close (h : p.Tracks text) (hp : (Parser.start static).feed line = p)
    (heven : Even (text.count '"')) :
    Reader.step (records, static) line =
      (records ++ [p.static.pendingFieldLine ++ (p.result ++ [p.field])], Static.initial) := by
  have hq : p.inQuotes = false := by
    rw [← Bool.not_eq_true, h.parity, Nat.not_odd_iff_even]
    exact heven
  have hm := h.restored
  have hc := h.cleared
  obtain ⟨⟨isMultiLine, pendingField, pendingFieldLine⟩, result, inQuotes, flag, field⟩ := p
  simp only at hq hm hc
  subst hq hm hc
  rcases pendingFieldLine with _ | ⟨first, rest⟩ <;>
    simp [Reader.step, Reader.addFields, parseLine_eq, hp, Parser.finish, joinArrays,
      Static.initial]

end LineEnd

/-- What holds between two lines. Only an open group leaves anything in the
static fields. -/
structure ReadInvariant (lines : List Text) (state : List (List Text) × Static) : Prop where
  records : List.Forall₂ RecordLaw (groupLines lines).closed state.1
  clean : (groupLines lines).current = [] → state.2 = Static.initial
  pending : PendingLaw (groupLines lines).current state.2

theorem ReadInvariant.start : ReadInvariant [] ([], Static.initial) :=
  ⟨.nil, fun _ => rfl, rfl, rfl, rfl⟩

theorem ReadInvariant.tracks {lines : List Text} {state : List (List Text) × Static}
    (h : ReadInvariant lines state) {line : Text}
    (hline : Odd (quotesIn lines) → line ≠ []) :
    ((Parser.start state.2).feed line).Tracks
      (joinLines ((groupLines lines).current ++ [line])) := by
  rcases eq_or_ne (groupLines lines).current [] with hcur | hcur
  · rw [hcur, h.clean hcur]
    simpa [joinLines] using Parser.Tracks.start_initial.feed line
  · have hodd := odd_current lines hcur
    have hall : Odd (quotesIn lines) := by
      rw [← lines_groupLines lines, Grouping.lines, quotesIn_append]
      exact (even_closed lines).add_odd hodd
    have hmulti : state.2.isMultiLine = true := by
      rw [h.pending.1, List.isEmpty_eq_false_iff.mpr hcur]
      rfl
    rw [Parser.start_feed_eq_resumed hmulti (hline hall), joinLines_snoc hcur]
    simpa [newLine] using (h.pending.resumed hodd).feed line

theorem ReadInvariant.step {lines : List Text} {state : List (List Text) × Static}
    (h : ReadInvariant lines state) {line : Text}
    (hline : Odd (quotesIn lines) → line ≠ []) :
    ReadInvariant (lines ++ [line]) (Reader.step state line) := by
  have htracks := h.tracks hline
  have hcount : (joinLines ((groupLines lines).current ++ [line])).count '"' +
      quotesIn (groupLines lines).closed.flatten = quotesIn (lines ++ [line]) := by
    rw [count_joinLines, Nat.add_comm, ← quotesIn_append, ← List.append_assoc]
    exact congrArg (fun l => quotesIn (l ++ [line])) (lines_groupLines lines)
  have hadd : groupLines (lines ++ [line]) = if Even (quotesIn (lines ++ [line])) then
      ⟨(groupLines lines).closed ++ [(groupLines lines).current ++ [line]], []⟩
      else ⟨(groupLines lines).closed, (groupLines lines).current ++ [line]⟩ := by
    rw [groupLines_snoc, Grouping.add, lines_groupLines]
  obtain ⟨records, static⟩ := state
  obtain ⟨hm, hp, hq, hl, hk⟩ := htracks
  by_cases heven : Even (quotesIn (lines ++ [line]))
  · rw [if_pos heven] at hadd
    rw [← hcount, Nat.even_add] at heven
    rw [Reader.step_close records ⟨hm, hp, hq, hl, hk⟩ rfl (heven.mpr (even_closed lines))]
    constructor
    · rw [hadd]
      refine List.rel_append h.records (.cons ⟨?_, ?_⟩ .nil)
      · rw [← hl]
        simp
        omega
      · rw [← hk]
        simp
    · intro _
      rfl
    · rw [hadd]
      exact ⟨rfl, rfl, rfl⟩
  · rw [if_neg heven] at hadd
    rw [← hcount, Nat.even_add, iff_true_right (even_closed lines), Nat.not_even_iff_odd] at heven
    rw [Reader.step_open records ⟨hm, hp, hq, hl, hk⟩ rfl heven]
    constructor
    · rw [hadd]
      exact h.records
    · intro hcur
      simp [hadd] at hcur
    · rw [hadd]
      exact ⟨by simp, hl, hk⟩

theorem readInvariant_foldl (lines : List Text)
    (h : ∀ before line after, lines = before ++ line :: after → Odd (quotesIn before) → line ≠ []) :
    ReadInvariant lines (lines.foldl Reader.step ([], Static.initial)) := by
  induction lines using List.reverseRecOn with
  | nil => exact ReadInvariant.start
  | append_singleton lines line ih =>
    rw [List.foldl_append]
    refine (ih ?_).step fun hodd => h lines line [] rfl hodd
    intro before other after hsplit
    exact h before other (after ++ [line]) (by simp [hsplit])

/-- The structural law of the reader: one record for each even line end, its
fields cut at the structural commas and nothing but quotes and those commas
lost, and the open rest held in the static fields. -/
theorem readFile_structure (lines : List Text)
    (h : ∀ before line after, lines = before ++ line :: after → Odd (quotesIn before) → line ≠ []) :
    (readFileLines lines 0 Static.initial).1.length = (evenEnds lines).length ∧
      (groupLines lines).closed.flatten ++ (groupLines lines).current = lines ∧
      List.Forall₂ RecordLaw (groupLines lines).closed (readFileLines lines 0 Static.initial).1 ∧
      PendingLaw (groupLines lines).current (readFileLines lines 0 Static.initial).2 := by
  have hinv := readInvariant_foldl lines h
  rw [readFileLines_eq]
  refine ⟨?_, lines_groupLines lines, hinv.records, hinv.pending⟩
  rw [← hinv.records.length_eq, length_closed]

def unbalancedLines : List Text := [['a', ',', '"', 'b'], ['c', '"', '"', '"'], ['"', ',', 'd']]

theorem readFile_structure_unbalanced :
    (readFileLines unbalancedLines 0 Static.initial).1.length =
        (evenEnds unbalancedLines).length ∧
      (groupLines unbalancedLines).closed.flatten ++ (groupLines unbalancedLines).current =
        unbalancedLines ∧
      List.Forall₂ RecordLaw (groupLines unbalancedLines).closed
        (readFileLines unbalancedLines 0 Static.initial).1 ∧
      PendingLaw (groupLines unbalancedLines).current
        (readFileLines unbalancedLines 0 Static.initial).2 :=
  readFile_structure unbalancedLines fun before line after hsplit _ => by
    have hall : ∀ line ∈ unbalancedLines, line ≠ [] := by decide
    exact hall line (by simp [hsplit])

example : readFileLines [['a', ',', '"', 'b'], ['c', '"', '"', '"'], ['"', ',', 'd']] 0
    Static.initial = ([[['a'], ['b', '\n', 'c', '"']]], ⟨true, [',', 'd'], []⟩) := by decide

end Netsvc.JavaClientServer
