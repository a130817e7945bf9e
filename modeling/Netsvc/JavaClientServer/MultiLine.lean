import Mathlib.Data.List.Infix
import Netsvc.JavaClientServer.ReadFile
import Netsvc.Library.Delimiter

/-! Records whose fields span several lines. The file is read here one character
at a time, a line feed being the end of a line, so that a field can be followed
through all the lines it covers. -/
namespace Netsvc.JavaClientServer
open Netsvc.Library

def encodeLines (field : Text) : Text :=
  if ',' ∈ field ∨ '\n' ∈ field then '"' :: field ++ ['"'] else field

def encodeRecord (record : List Text) : Text := [','].intercalate (record.map encodeLines)

def encodeFile (records : List (List Text)) : Text :=
  records.flatMap fun record => encodeRecord record ++ newLine

structure Cursor where
  records : List (List Text)
  parser : Parser

def Cursor.endLine (c : Cursor) : Cursor :=
  let r := (Reader.mk c.parser.static c.records 1).addFields c.parser.finish.1 c.parser.finish.2
  ⟨r.result, Parser.start r.static⟩

def Cursor.next (c : Cursor) (char : Char) : Cursor :=
  if char = '\n' then c.endLine else ⟨c.records, c.parser.next char⟩

def Cursor.feed (c : Cursor) (text : Text) : Cursor := text.foldl Cursor.next c

@[simp] theorem Cursor.feed_nil (c : Cursor) : c.feed [] = c := rfl

@[simp] theorem Cursor.feed_cons (c : Cursor) (char : Char) (text : Text) :
    c.feed (char :: text) = (c.next char).feed text := rfl

@[simp] theorem Cursor.feed_append (c : Cursor) (left right : Text) :
    c.feed (left ++ right) = (c.feed left).feed right := by
  simp [Cursor.feed]

theorem readLinesFrom_of_ne {c : Char} (hn : c ≠ '\n') (hr : c ≠ '\r') (current : Option Text)
    (rest : Text) :
    readLinesFrom current (c :: rest) = readLinesFrom (some (current.getD [] ++ [c])) rest := by
  rw [readLinesFrom]
  · exact hn
  · intro _ h
    exact absurd h hr
  · exact hr

theorem foldl_readLinesFrom {text : Text} (h : '\r' ∉ text) (current : Option Text)
    (records : List (List Text)) (static : Static) :
    ∃ records' static',
      (readLinesFrom current (text ++ newLine)).foldl Reader.step (records, static) =
        (records', static') ∧
      (Cursor.mk records ((Parser.start static).feed (current.getD []))).feed (text ++ newLine) =
        ⟨records', Parser.start static'⟩ := by
  induction text generalizing current records static with
  | nil => exact ⟨_, _, rfl, rfl⟩
  | cons c text ih =>
    have htail : '\r' ∉ text := fun hmem => h (List.mem_cons_of_mem c hmem)
    by_cases hn : c = '\n'
    · subst hn
      exact ih htail none _ _
    · have hr : c ≠ '\r' := fun hc => h (by simp [hc])
      obtain ⟨records', static', hlines, hchars⟩ :=
        ih htail (some (current.getD [] ++ [c])) records static
      refine ⟨records', static', ?_, ?_⟩
      · rw [List.cons_append, readLinesFrom_of_ne hn hr, hlines]
      · rw [← hchars]
        simp [Cursor.next, hn]

structure Cursor.AtField (c : Cursor) (records : List (List Text)) (done : List Text) : Prop where
  records : c.records = records
  multi : c.parser.static.isMultiLine = false
  cleared : c.parser.static.pendingField = []
  done : c.parser.static.pendingFieldLine ++ c.parser.result = done
  outside : c.parser.inQuotes = false
  fresh : c.parser.isFieldWithEmbeddedDoubleQuotes = false
  field : c.parser.field = []

structure Cursor.MidField (c : Cursor) (records : List (List Text)) (done : List Text)
    (kept : Text) : Prop where
  records : c.records = records
  multi : c.parser.static.isMultiLine = false
  cleared : c.parser.static.pendingField = []
  done : c.parser.static.pendingFieldLine ++ c.parser.result = done
  inside : c.parser.inQuotes = true
  fresh : c.parser.isFieldWithEmbeddedDoubleQuotes = true → c.parser.field = []
  field : c.parser.field = kept

structure Cursor.AfterField (c : Cursor) (records : List (List Text)) (done : List Text)
    (kept : Text) : Prop where
  records : c.records = records
  multi : c.parser.static.isMultiLine = false
  cleared : c.parser.static.pendingField = []
  done : c.parser.static.pendingFieldLine ++ c.parser.result = done
  outside : c.parser.inQuotes = false
  field : c.parser.field = kept

def Cursor.lineStart (records : List (List Text)) (done : List Text) (kept : Text) : Cursor :=
  ⟨records, Parser.start ⟨true, kept, done⟩⟩

section Transitions
variable {c : Cursor} {records : List (List Text)} {done : List Text} {kept : Text}

theorem Cursor.AtField.open (h : c.AtField records done) :
    (c.next '"').MidField records done [] := by
  obtain ⟨hr, hm, hp, hd, hi, he, hf⟩ := h
  simp only [Cursor.next, Char.reduceEq, ↓reduceIte, Parser.next_quote_first hm he]
  exact ⟨hr, hm, hp, hd, by simp [hi], fun _ => hf, hf⟩

theorem Cursor.MidField.char (h : c.MidField records done kept) {char : Char}
    (hq : char ≠ '"') (hn : char ≠ '\n') :
    (c.next char).MidField records done (kept ++ [char]) := by
  obtain ⟨hr, hm, hp, hd, hi, he, hf⟩ := h
  simp only [Cursor.next, hn, ↓reduceIte, Parser.next_of_ne_quote hm hq (Or.inr hi)]
  exact ⟨hr, hm, hp, hd, hi, by simp, by simp [hf]⟩

theorem Cursor.MidField.lineFeed (h : c.MidField records done kept) :
    c.next '\n' = Cursor.lineStart records done kept := by
  obtain ⟨hr, hm, hp, hd, hi, he, hf⟩ := h
  simp [Cursor.next, Cursor.endLine, Parser.finish, Reader.addFields, joinArrays, hi, hr, hd, hf,
    Cursor.lineStart]

theorem Cursor.MidField.close (h : c.MidField records done kept) :
    (c.next '"').AfterField records done kept := by
  obtain ⟨hr, hm, hp, hd, hi, he, hf⟩ := h
  simp only [Cursor.next, Char.reduceEq, ↓reduceIte]
  cases hflag : c.parser.isFieldWithEmbeddedDoubleQuotes with
  | false =>
    rw [Parser.next_quote_first hm hflag]
    exact ⟨hr, hm, hp, hd, by simp [hi], hf⟩
  | true =>
    rw [Parser.next_quote_empty hm hflag (he hflag)]
    exact ⟨hr, hm, hp, hd, by simp [hi], hf⟩

theorem Cursor.lineStart_char {char : Char} (hq : char ≠ '"') (hn : char ≠ '\n') :
    ((Cursor.lineStart records done kept).next char).MidField records done
      (kept ++ newLine ++ [char]) := by
  constructor <;>
    simp [Cursor.next, hn, Cursor.lineStart, Parser.next, Parser.step, Parser.start,
      Parser.embeddedQuotes, Parser.restorePending, Parser.consume, doubleQuotes,
      defaultQuoteChar, hq]

theorem Cursor.lineStart_close :
    ((Cursor.lineStart records done kept).next '"').AfterField records done (kept ++ newLine) := by
  constructor <;>
    simp [Cursor.next, Cursor.lineStart, Parser.next, Parser.step, Parser.start,
      Parser.embeddedQuotes, Parser.restorePending, Parser.consume, doubleQuotes,
      defaultQuoteChar]

/-- An empty continuation line ends as an extra empty field, and its line feed is lost. -/
theorem Cursor.lineStart_lineFeed :
    (Cursor.lineStart records done kept).next '\n' =
      Cursor.lineStart records (done ++ [[]]) kept := by
  simp [Cursor.next, Cursor.endLine, Cursor.lineStart, Parser.start, Parser.finish,
    Reader.addFields, joinArrays]

theorem Cursor.AfterField.separator (h : c.AfterField records done kept) :
    (c.next ',').AtField records (done ++ [kept]) := by
  obtain ⟨hr, hm, hp, hd, hi, hf⟩ := h
  simp only [Cursor.next, Char.reduceEq, ↓reduceIte, Parser.next_separator hm hi]
  exact ⟨hr, hm, hp, by simp [← hd, hf], hi, rfl, rfl⟩

theorem Cursor.AfterField.lineFeed (h : c.AfterField records done kept) :
    (c.next '\n').AtField (records ++ [done ++ [kept]]) [] := by
  obtain ⟨hr, hm, hp, hd, hi, hf⟩ := h
  obtain ⟨rs, ⟨⟨multi, pending, line⟩, result, inQuotes, flag, field⟩⟩ := c
  simp only at hr hm hp hd hi hf
  subst hr hm hp hd hi hf
  rcases line with _ | ⟨first, rest⟩ <;>
    constructor <;>
    simp [Cursor.next, Cursor.endLine, Parser.finish, Reader.addFields, joinArrays, Parser.start]

end Transitions

/-- Number of empty continuation lines of a quoted field, `start` telling
whether a line begins here. -/
def blankLines : Bool → Text → Nat
  | _, [] => 0
  | start, c :: text =>
      if c = '\n' then blankLines true text + (if start then 1 else 0) else blankLines false text

def squeeze : Bool → Text → Text
  | start, [] => if start then newLine else []
  | start, c :: text =>
      if c = '\n' then squeeze true text
      else (if start then newLine else []) ++ c :: squeeze false text

def keptFields (field : Text) : List Text :=
  List.replicate (blankLines false field) [] ++ [squeeze false field]

theorem Cursor.feed_quoted {text : Text} (hq : '"' ∉ text) (records : List (List Text))
    (done : List Text) (kept : Text) :
    (∀ c : Cursor, c.MidField records done kept →
      (c.feed (text ++ ['"'])).AfterField records
        (done ++ List.replicate (blankLines false text) []) (kept ++ squeeze false text)) ∧
    ((Cursor.lineStart records done kept).feed (text ++ ['"'])).AfterField records
      (done ++ List.replicate (blankLines true text) []) (kept ++ squeeze true text) := by
  induction text generalizing done kept with
  | nil =>
    constructor
    · intro c h
      simpa [blankLines, squeeze] using h.close
    · simpa [blankLines, squeeze] using Cursor.lineStart_close
  | cons char text ih =>
    have hchar : char ≠ '"' := fun h => hq (by simp [h])
    have htail : '"' ∉ text := fun h => hq (List.mem_cons_of_mem char h)
    by_cases hn : char = '\n'
    · subst hn
      constructor
      · intro c h
        simpa [blankLines, squeeze, h.lineFeed] using (ih htail done kept).2
      · have := (ih htail (done ++ [[]]) kept).2
        simpa [blankLines, squeeze, Cursor.lineStart_lineFeed, List.replicate_succ] using this
    · constructor
      · intro c h
        simpa [blankLines, squeeze, hn] using
          (ih htail done (kept ++ [char])).1 _ (h.char hchar hn)
      · simpa [blankLines, squeeze, hn] using
          (ih htail done (kept ++ newLine ++ [char])).1 _ (Cursor.lineStart_char hchar hn)

theorem squeeze_of_blankLines_eq_zero {start : Bool} {text : Text}
    (h : blankLines start text = 0) :
    squeeze start text = (if start then newLine else []) ++ text := by
  induction text generalizing start with
  | nil => cases start <;> rfl
  | cons c text ih =>
    by_cases hc : c = '\n'
    · subst hc
      cases start with
      | true => simp [blankLines] at h
      | false =>
        simp only [blankLines, ↓reduceIte, Bool.false_eq_true, Nat.add_zero] at h
        simp [squeeze, ih h, newLine]
    · simp only [blankLines, hc, ↓reduceIte] at h
      simp [squeeze, hc, ih h]

theorem blankLines_eq_zero_iff {start : Bool} {text : Text} :
    blankLines start text = 0 ↔
      ¬['\n', '\n'] <:+: (if start then newLine else []) ++ text := by
  induction text generalizing start with
  | nil => cases start <;> simp [blankLines, newLine, List.infix_cons_iff]
  | cons c text ih =>
    by_cases hc : c = '\n'
    · subst hc
      cases start with
      | true => simp [blankLines, newLine, List.infix_cons_iff]
      | false => simpa [blankLines, newLine] using @ih true
    · have hnot : ¬['\n', '\n'] <:+: text ↔ ¬['\n', '\n'] <:+: c :: text := by
        simp [List.infix_cons_iff, Ne.symm hc]
      have htail := @ih false
      simp only [Bool.false_eq_true, ↓reduceIte, List.nil_append] at htail
      cases start <;>
        simp [blankLines, hc, htail, hnot, newLine, List.infix_cons_iff, Ne.symm hc]

theorem keptFields_eq_singleton {field : Text} (h : blankLines false field = 0) :
    keptFields field = [field] := by
  simp [keptFields, h, squeeze_of_blankLines_eq_zero h]

theorem Cursor.feed_plain {c : Cursor} (hm : c.parser.static.isMultiLine = false) {text : Text}
    (hq : '"' ∉ text) (hs : ',' ∉ text) (hn : '\n' ∉ text) :
    (c.feed text).records = c.records ∧ (c.feed text).parser.static = c.parser.static ∧
      (c.feed text).parser.result = c.parser.result ∧
      (c.feed text).parser.inQuotes = c.parser.inQuotes ∧
      (c.feed text).parser.field = c.parser.field ++ text := by
  induction text generalizing c with
  | nil => simp
  | cons char text ih =>
    have hnext : c.next char = ⟨c.records, { c.parser with
        field := c.parser.field ++ [char], isFieldWithEmbeddedDoubleQuotes := false }⟩ := by
      have hchar : char ≠ '\n' := fun h => hn (by simp [h])
      rw [Cursor.next, if_neg hchar, Parser.next_of_ne_quote hm (by grind) (by grind)]
    rw [Cursor.feed_cons, hnext]
    simpa using ih (c := ⟨c.records, { c.parser with
      field := c.parser.field ++ [char], isFieldWithEmbeddedDoubleQuotes := false }⟩)
      hm (by grind) (by grind) (by grind)

theorem Cursor.AtField.feed_field {c : Cursor} {records : List (List Text)} {done : List Text}
    (h : c.AtField records done) {field : Text} (hq : '"' ∉ field) :
    (c.feed (encodeLines field)).AfterField records
      (done ++ List.replicate (blankLines false field) []) (squeeze false field) := by
  by_cases hwrap : ',' ∈ field ∨ '\n' ∈ field
  · simp only [encodeLines, hwrap, ↓reduceIte, List.cons_append, Cursor.feed_cons]
    simpa using (Cursor.feed_quoted hq records done []).1 _ h.open
  · obtain ⟨hcomma, hlf⟩ := not_or.mp hwrap
    have hblank : blankLines false field = 0 :=
      blankLines_eq_zero_iff.mpr fun hblank => hlf (hblank.subset (by simp))
    obtain ⟨hr, hm, hp, hd, hi, _, hf⟩ := h
    obtain ⟨hr', hs', hd', hi', hf'⟩ := Cursor.feed_plain hm hq hcomma hlf
    rw [hblank, squeeze_of_blankLines_eq_zero hblank]
    simp only [encodeLines, hwrap, ↓reduceIte]
    exact ⟨hr'.trans hr, by rw [hs', hm], by rw [hs', hp], by simp [hs', hd', hd],
      hi'.trans hi, by simp [hf', hf]⟩

theorem Cursor.AtField.feed_record {c : Cursor} {records : List (List Text)} {done : List Text}
    (h : c.AtField records done) {record : List Text} (hne : record ≠ [])
    (hq : ∀ field ∈ record, '"' ∉ field) :
    (c.feed (encodeRecord record ++ newLine)).AtField
      (records ++ [done ++ record.flatMap keptFields]) [] := by
  induction record generalizing c done with
  | nil => contradiction
  | cons field record ih =>
    have hfield := h.feed_field (hq field List.mem_cons_self)
    cases record with
    | nil =>
      simpa [encodeRecord, newLine, keptFields] using hfield.lineFeed
    | cons second record =>
      have hcode : encodeRecord (field :: second :: record) =
          encodeLines field ++ ',' :: encodeRecord (second :: record) := by
        simp [encodeRecord, List.intercalate_cons_cons]
      have hrest := ih hfield.separator (by simp) fun f hf => hq f (List.mem_cons_of_mem _ hf)
      rw [hcode]
      simpa [keptFields] using hrest

theorem Cursor.AtField.feed_file {c : Cursor} {before : List (List Text)}
    (h : c.AtField before []) {records : List (List Text)}
    (hne : ∀ record ∈ records, record ≠ [])
    (hq : ∀ record ∈ records, ∀ field ∈ record, '"' ∉ field) :
    (c.feed (encodeFile records)).AtField
      (before ++ records.map (List.flatMap keptFields)) [] := by
  induction records generalizing c before with
  | nil => simpa [encodeFile] using h
  | cons record records ih =>
    have hrecord := h.feed_record (hne record List.mem_cons_self) (hq record List.mem_cons_self)
    have := ih hrecord (fun r hr => hne r (List.mem_cons_of_mem _ hr))
      (fun r hr => hq r (List.mem_cons_of_mem _ hr))
    simpa [encodeFile] using this

theorem carriageReturn_notMem_encodeRecord {record : List Text}
    (h : ∀ field ∈ record, '\r' ∉ field) : '\r' ∉ encodeRecord record := by
  rw [encodeRecord, Delimiter.notMem_intercalate (show '\r' ≠ ',' by decide)]
  intro code hcode
  obtain ⟨field, hfield, rfl⟩ := List.mem_map.mp hcode
  unfold encodeLines
  split_ifs <;> simp [h field hfield]

theorem encodeFile_snoc (records : List (List Text)) (record : List Text) :
    encodeFile (records ++ [record]) = encodeFile records ++ encodeRecord record ++ newLine := by
  simp [encodeFile]

theorem carriageReturn_notMem_encodeFile {records : List (List Text)}
    (h : ∀ record ∈ records, ∀ field ∈ record, '\r' ∉ field) : '\r' ∉ encodeFile records := by
  intro hmem
  obtain ⟨record, hrecord, hchar⟩ := List.mem_flatMap.mp hmem
  rcases List.mem_append.mp hchar with hchar | hchar
  · exact carriageReturn_notMem_encodeRecord (h record hrecord) hchar
  · simp [newLine] at hchar

/-- What `readFile` returns for an encoded file: every empty continuation line
has become an empty field in front of the field it belongs to. -/
theorem readFile_encodeFile {records : List (List Text)}
    (hne : ∀ record ∈ records, record ≠ [])
    (hchars : ∀ record ∈ records, ∀ field ∈ record, '"' ∉ field ∧ '\r' ∉ field) :
    readFile (encodeFile records) Static.initial =
      (records.map (List.flatMap keptFields), Static.initial) := by
  rcases List.eq_nil_or_concat' records with rfl | ⟨init, last, rfl⟩
  · rfl
  have hr : '\r' ∉ encodeFile init ++ encodeRecord last := by
    have := carriageReturn_notMem_encodeFile fun r hr f hf => (hchars r hr f hf).2
    rw [encodeFile_snoc] at this
    exact fun hmem => this (List.mem_append_left _ hmem)
  obtain ⟨records', static', hlines, hcursor⟩ :=
    foldl_readLinesFrom hr none [] Static.initial
  have hstart : (Cursor.mk [] (Parser.start Static.initial)).AtField [] [] :=
    ⟨rfl, rfl, rfl, rfl, rfl, rfl, rfl⟩
  have hfile := hstart.feed_file hne fun r hr f hf => (hchars r hr f hf).1
  rw [encodeFile_snoc] at hfile ⊢
  simp only [Option.getD_none, Parser.feed_nil] at hcursor
  rw [hcursor] at hfile
  obtain ⟨hrecords, hm, hp, hd, _, _, _⟩ := hfile
  rw [readFile, readLines, readFileLines_eq, hlines, ← List.nil_append (List.map _ _), ← hrecords]
  obtain ⟨multi, pending, line⟩ := static'
  simp only [Parser.start, List.append_nil] at hm hp hd
  subst hm hp hd
  rfl

theorem length_flatMap_keptFields (record : List Text) :
    (record.flatMap keptFields).length =
      record.length + (record.map (blankLines false)).sum := by
  induction record with
  | nil => rfl
  | cons field record ih =>
    simp only [List.flatMap_cons, List.length_append, ih, keptFields, List.length_replicate,
      List.length_cons, List.length_nil, List.map_cons, List.sum_cons]
    omega

theorem flatMap_keptFields_eq_self_iff {record : List Text} :
    record.flatMap keptFields = record ↔ ∀ field ∈ record, blankLines false field = 0 := by
  constructor
  · intro h field hfield
    have hlength := congrArg List.length h
    rw [length_flatMap_keptFields] at hlength
    have hsum : (record.map (blankLines false)).sum = 0 := by omega
    exact List.sum_eq_zero_iff_forall_eq_nat.mp hsum _ (List.mem_map_of_mem hfield)
  · intro h
    induction record with
    | nil => rfl
    | cons field record ih =>
      rw [List.flatMap_cons, keptFields_eq_singleton (h field List.mem_cons_self),
        ih fun f hf => h f (List.mem_cons_of_mem _ hf)]
      rfl

/-- The round trip succeeds exactly when no field has two line feeds in a row. -/
theorem readFile_encodeFile_iff {records : List (List Text)}
    (hne : ∀ record ∈ records, record ≠ [])
    (hchars : ∀ record ∈ records, ∀ field ∈ record, '"' ∉ field ∧ '\r' ∉ field) :
    (readFile (encodeFile records) Static.initial).1 = records ↔
      ∀ record ∈ records, ∀ field ∈ record, ¬['\n', '\n'] <:+: field := by
  have hself : records.map (List.flatMap keptFields) = records ↔
      ∀ record ∈ records, record.flatMap keptFields = record := by
    conv_lhs => rhs; rw [← List.map_id records]
    exact List.map_inj_left
  rw [readFile_encodeFile hne hchars, hself]
  simp only [flatMap_keptFields_eq_self_iff, blankLines_eq_zero_iff, Bool.false_eq_true,
    ↓reduceIte, List.nil_append]

theorem readFile_encodeFile_two_records :
    (readFile (encodeFile [[['\n', 'a'], ['b', ',']], [[], ['c', '\n', 'd']]]) Static.initial).1 =
      [[['\n', 'a'], ['b', ',']], [[], ['c', '\n', 'd']]] :=
  (readFile_encodeFile_iff (by decide) (by decide)).mpr (by decide)

/-- A field with an empty line inside comes back as two fields. -/
theorem readFile_splits_empty_line :
    (readFile (encodeFile [[['a', '\n', '\n', 'b']]]) Static.initial).1 =
        [[[], ['a', '\n', 'b']]] ∧
      (readFile (encodeFile [[['a', '\n', '\n', 'b']]]) Static.initial).1 ≠
        [[['a', '\n', '\n', 'b']]] := by
  decide

end Netsvc.JavaClientServer
