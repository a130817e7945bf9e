import Netsvc.JavaClientServer.Parse

/-! The standard one-line CSV encodings of a list of fields, and what `parse`
makes of them. Every quote a field begins with is lost. -/
namespace Netsvc.JavaClientServer

def doubled (field : Text) : Text :=
  field.flatMap fun c => if c = '"' then ['"', '"'] else [c]

def wrap (field : Text) : Text := '"' :: doubled field ++ ['"']

inductive FieldCode : Text → Text → Prop
  | bare {field : Text} (comma : ',' ∉ field) (quote : '"' ∉ field) : FieldCode field field
  | wrapped (field : Text) : FieldCode field (wrap field)

/-- The standard encodings of a non-empty list of fields as one line. -/
inductive LineCode : List Text → Text → Prop
  | last {field code : Text} (h : FieldCode field code) : LineCode [field] code
  | cons {field code : Text} {fields : List Text} {line : Text}
      (h : FieldCode field code) (tail : LineCode fields line) :
      LineCode (field :: fields) (code ++ ',' :: line)

def dropQuotes (field : Text) : Text := field.dropWhile (· == '"')

def Parser.AtField (p : Parser) (done : List Text) : Prop :=
  p.static.isMultiLine = false ∧ p.result = done ∧ p.inQuotes = false ∧
    p.isFieldWithEmbeddedDoubleQuotes = false ∧ p.field = []

/-- The parser inside a wrapped field of which it has kept `kept`. The flag
records that nothing has been kept yet, which is what decides a doubled quote. -/
def Parser.InField (p : Parser) (done : List Text) (kept : Text) : Prop :=
  p.static.isMultiLine = false ∧ p.result = done ∧ p.inQuotes = true ∧
    p.isFieldWithEmbeddedDoubleQuotes = kept.isEmpty ∧ p.field = kept

def Parser.AfterField (p : Parser) (done : List Text) (kept : Text) : Prop :=
  p.static.isMultiLine = false ∧ p.result = done ∧ p.inQuotes = false ∧ p.field = kept

theorem Parser.InField.feed_doubled {p : Parser} {done : List Text} {kept : Text}
    (h : p.InField done kept) (c : Char) :
    (p.feed (if c = '"' then ['"', '"'] else [c])).InField done
      (if kept = [] then dropQuotes [c] else kept ++ [c]) := by
  obtain ⟨hm, hr, hi, he, hf⟩ := h
  by_cases hc : c = '"'
  · subst hc
    cases kept with
    | nil =>
      simp only [List.isEmpty_nil] at he
      simp [Parser.feed, Parser.next_quote_empty, hm, he, hf, Parser.InField, hr, hi, dropQuotes]
    | cons k kept =>
      simp only [List.isEmpty_cons] at he
      simp [Parser.feed, Parser.next_quote_first, Parser.next_quote_again, hm, he, hf,
        Parser.InField, hr, hi]
  · have hn := Parser.next_of_ne_quote hm hc (Or.inr hi)
    cases kept <;> simp [hc, hn, Parser.InField, hm, hr, hi, hf, dropQuotes]

theorem Parser.InField.feed_field {p : Parser} {done : List Text} {kept : Text}
    (h : p.InField done kept) (field : Text) :
    (p.feed (doubled field)).InField done
      (if kept = [] then dropQuotes field else kept ++ field) := by
  induction field generalizing p kept with
  | nil => cases kept <;> simpa [doubled, dropQuotes] using h
  | cons c field ih =>
    have hstep := ih (h.feed_doubled c)
    have hcode : doubled (c :: field) =
        (if c = '"' then ['"', '"'] else [c]) ++ doubled field := by simp [doubled]
    rw [hcode, Parser.feed_append]
    convert hstep using 1
    by_cases hk : kept = [] <;> by_cases hc : c = '"' <;>
      simp [hk, hc, dropQuotes]

theorem Parser.AtField.feed_wrap {p : Parser} {done : List Text} (h : p.AtField done)
    (field : Text) : (p.feed (wrap field)).AfterField done (dropQuotes field) := by
  obtain ⟨hm, hr, hi, he, hf⟩ := h
  have hopen : (p.next '"').InField done [] := by
    rw [Parser.next_quote_first hm he]
    simp [Parser.InField, hm, hr, hi, hf]
  obtain ⟨hm', hr', hi', he', hf'⟩ := hopen.feed_field field
  simp only [wrap, List.cons_append, Parser.feed_cons, Parser.feed_append, Parser.feed_nil]
  simp only [↓reduceIte] at he' hf'
  -- the closing quote is never an embedded one: the flag is set only on an empty field
  cases hd : dropQuotes field with
  | nil =>
    rw [hd] at he' hf'
    rw [Parser.next_quote_empty hm' he' hf']
    simp [Parser.AfterField, hm', hr', hi', hf']
  | cons k kept =>
    rw [hd] at he' hf'
    rw [Parser.next_quote_first hm' he']
    simp [Parser.AfterField, hm', hr', hi', hf']

theorem Parser.feed_plain {p : Parser} (hm : p.static.isMultiLine = false)
    {text : Text} (hq : '"' ∉ text) (hs : ',' ∉ text ∨ p.inQuotes = true) :
    (p.feed text).static = p.static ∧ (p.feed text).result = p.result ∧
      (p.feed text).inQuotes = p.inQuotes ∧ (p.feed text).field = p.field ++ text := by
  induction text generalizing p with
  | nil => simp
  | cons c text ih =>
    have hn := Parser.next_of_ne_quote (p := p) (c := c) hm (by grind) (by grind)
    rw [Parser.feed_cons, hn]
    have := ih (p := { p with
      field := p.field ++ [c], isFieldWithEmbeddedDoubleQuotes := false }) hm (by grind) (by grind)
    simpa using this

theorem dropQuotes_eq_self_iff {field : Text} :
    dropQuotes field = field ↔ field.head? ≠ some '"' := by
  cases field with
  | nil => simp [dropQuotes]
  | cons c field =>
    by_cases hc : c = '"'
    · have hle : (field.dropWhile (· == '"')).length ≤ field.length :=
        (List.dropWhile_suffix _).length_le
      simp only [dropQuotes, hc, beq_self_eq_true, List.dropWhile_cons_of_pos, List.head?_cons,
        ne_eq, not_true_eq_false, iff_false]
      intro h
      rw [h, List.length_cons] at hle
      omega
    · simp [dropQuotes, hc]

theorem Parser.AtField.feed_code {p : Parser} {done : List Text} (h : p.AtField done)
    {field code : Text} (hcode : FieldCode field code) :
    (p.feed code).AfterField done (dropQuotes field) := by
  cases hcode with
  | wrapped => exact h.feed_wrap field
  | bare comma quote =>
    obtain ⟨hm, hr, hi, _, hf⟩ := h
    obtain ⟨hs', hr', hi', hf'⟩ := Parser.feed_plain hm quote (Or.inl comma)
    have hd : dropQuotes field = field := dropQuotes_eq_self_iff.mpr fun hh =>
      quote (List.mem_of_mem_head? (by simpa using hh))
    simp [Parser.AfterField, hs', hm, hr', hr, hi', hi, hf', hf, hd]

theorem Parser.AfterField.next_separator {p : Parser} {done : List Text} {kept : Text}
    (h : p.AfterField done kept) : (p.next ',').AtField (done ++ [kept]) := by
  obtain ⟨hm, hr, hi, hf⟩ := h
  rw [Parser.next_separator hm hi]
  simp [Parser.AtField, hm, hr, hi, hf]

theorem Parser.AtField.feed_line {p : Parser} {done : List Text} (h : p.AtField done)
    {fields : List Text} {line : Text} (hline : LineCode fields line) :
    (p.feed line).finish.1 = done ++ fields.map dropQuotes ∧
      (p.feed line).finish.2.isMultiLine = false := by
  induction hline generalizing p done with
  | last hcode =>
    obtain ⟨hm, hr, hi, hf⟩ := h.feed_code hcode
    simp [Parser.finish, hm, hr, hi, hf]
  | cons hcode _ ih =>
    have hnext := (h.feed_code hcode).next_separator
    simpa using ih hnext

/-- The parser reads every standard encoding, but without the quotes at the
front of each field. -/
theorem parse_lineCode {fields : List Text} {line : Text} (h : LineCode fields line)
    (pendingFieldLine : List Text) :
    (parseLine line ⟨false, [], pendingFieldLine⟩).1 = fields.map dropQuotes ∧
      (parseLine line ⟨false, [], pendingFieldLine⟩).2.isMultiLine = false := by
  have hstart : (Parser.start ⟨false, [], pendingFieldLine⟩).AtField [] := by
    simp [Parser.AtField, Parser.start]
  simpa [parseLine_eq] using hstart.feed_line h

/-- The parser recovers the encoded fields exactly when none begins with a quote. -/
theorem parse_recovers_iff {fields : List Text} {line : Text} (h : LineCode fields line)
    (pendingFieldLine : List Text) :
    ((parse line ',' '"' ⟨false, [], pendingFieldLine⟩).1 = fields ∧
        (parse line ',' '"' ⟨false, [], pendingFieldLine⟩).2.isMultiLine = false) ↔
      ∀ field ∈ fields, field.head? ≠ some '"' := by
  obtain ⟨hfields, hmulti⟩ := parse_lineCode h pendingFieldLine
  have hself : fields.map dropQuotes = fields ↔ ∀ field ∈ fields, dropQuotes field = field := by
    conv_lhs => rhs; rw [← List.map_id fields]
    exact List.map_inj_left
  change (parseLine line _).1 = fields ∧ (parseLine line _).2.isMultiLine = false ↔ _
  simp only [hfields, hmulti, and_true, hself, dropQuotes_eq_self_iff]

theorem parse_recovers_embedded_quote :
    (parse (['a'] ++ ',' :: wrap ['b', ',', '"']) ',' '"' ⟨false, [], []⟩).1 =
        [['a'], ['b', ',', '"']] ∧
      (parse (['a'] ++ ',' :: wrap ['b', ',', '"']) ',' '"' ⟨false, [], []⟩).2.isMultiLine =
        false :=
  (@parse_recovers_iff [['a'], ['b', ',', '"']] _
    (.cons (.bare (by decide) (by decide)) (.last (.wrapped ['b', ',', '"']))) []).mpr (by decide)

/-- The one-character field `"` is written as four quotes and read as the empty field. -/
theorem parse_loses_leading_quote :
    LineCode [['"']] (wrap ['"']) ∧
      (parse (wrap ['"']) ',' '"' ⟨false, [], []⟩).1 ≠ [['"']] :=
  ⟨.last (.wrapped ['"']), by decide⟩

end Netsvc.JavaClientServer
