import Netsvc.QuotesFile

/-! The line parser of `WOTD.java`. One character of the loop is three updates
in source order: the embedded-quote flag, the restored multi-line field, and
the character itself. -/
namespace Netsvc.JavaClientServer

def defaultSeparator : Char := ','
def doubleQuotes : Char := '"'
def defaultQuoteChar : Char := doubleQuotes
def newLine : Text := ['\n']

/-- The static fields of `WOTD` that survive from one line to the next. -/
structure Static where
  isMultiLine : Bool
  pendingField : Text
  pendingFieldLine : List Text
  deriving DecidableEq, Repr

def Static.initial : Static := ⟨false, [], []⟩

structure Parser where
  static : Static
  result : List Text
  inQuotes : Bool
  isFieldWithEmbeddedDoubleQuotes : Bool
  field : Text
  deriving DecidableEq, Repr

def Parser.start (static : Static) : Parser := ⟨static, [], false, false, []⟩

/-- `handle embedded double quotes ""`. The comparison is with the constant
`DOUBLE_QUOTES`, whatever quote character the caller passes. -/
def Parser.embeddedQuotes (c : Char) (p : Parser) : Parser :=
  if c = doubleQuotes then
    if p.isFieldWithEmbeddedDoubleQuotes then
      if p.field.length > 0 then
        { p with
          field := p.field ++ [doubleQuotes]
          isFieldWithEmbeddedDoubleQuotes := false }
      else p
    else { p with isFieldWithEmbeddedDoubleQuotes := true }
  else { p with isFieldWithEmbeddedDoubleQuotes := false }

/-- `multiline, add pending from the previous field`. -/
def Parser.restorePending (p : Parser) : Parser :=
  if p.static.isMultiLine then
    { p with
      field := p.field ++ p.static.pendingField ++ newLine
      static := { p.static with isMultiLine := false, pendingField := [] }
      inQuotes := true }
  else p

def Parser.consume (separator quoteChar c : Char) (p : Parser) : Parser :=
  if c = quoteChar then { p with inQuotes := !p.inQuotes }
  else if c = separator ∧ p.inQuotes = false then
    { p with result := p.result ++ [p.field], field := [] }
  else { p with field := p.field ++ [c] }

def Parser.step (separator quoteChar : Char) (p : Parser) (c : Char) : Parser :=
  ((p.embeddedQuotes c).restorePending).consume separator quoteChar c

/-- `line done, what to do next?` -/
def Parser.finish (p : Parser) : List Text × Static :=
  if p.inQuotes then
    (p.result, { p.static with isMultiLine := true, pendingField := p.field })
  else (p.result ++ [p.field], p.static)

def parse (line : Text) (separator quoteChar : Char) (static : Static) : List Text × Static :=
  (line.foldl (Parser.step separator quoteChar) (Parser.start static)).finish

def parseLine (line : Text) (static : Static) : List Text × Static :=
  parse line defaultSeparator defaultQuoteChar static

abbrev Parser.next : Parser → Char → Parser :=
  Parser.step defaultSeparator defaultQuoteChar

def Parser.feed (p : Parser) (text : Text) : Parser := text.foldl Parser.next p

@[simp] theorem Parser.feed_nil (p : Parser) : p.feed [] = p := rfl

@[simp] theorem Parser.feed_cons (p : Parser) (c : Char) (text : Text) :
    p.feed (c :: text) = (p.next c).feed text := rfl

@[simp] theorem Parser.feed_append (p : Parser) (left right : Text) :
    p.feed (left ++ right) = (p.feed left).feed right := by
  simp [Parser.feed]

theorem parseLine_eq (line : Text) (static : Static) :
    parseLine line static = ((Parser.start static).feed line).finish := rfl

section InLine
variable {p : Parser} (h : p.static.isMultiLine = false)
include h

theorem Parser.next_of_ne_quote {c : Char} (hc : c ≠ '"') (hs : c ≠ ',' ∨ p.inQuotes = true) :
    p.next c = { p with field := p.field ++ [c], isFieldWithEmbeddedDoubleQuotes := false } := by
  have hb : ¬(c = ',' ∧ p.inQuotes = false) := by grind
  simp [Parser.next, Parser.step, Parser.embeddedQuotes, Parser.restorePending,
    Parser.consume, doubleQuotes, defaultQuoteChar, defaultSeparator, h, hc, hb]

theorem Parser.next_separator (hq : p.inQuotes = false) :
    p.next ',' = { p with
      result := p.result ++ [p.field], field := [], isFieldWithEmbeddedDoubleQuotes := false } := by
  simp [Parser.next, Parser.step, Parser.embeddedQuotes, Parser.restorePending,
    Parser.consume, doubleQuotes, defaultQuoteChar, defaultSeparator, h, hq]

theorem Parser.next_quote_first (he : p.isFieldWithEmbeddedDoubleQuotes = false) :
    p.next '"' = { p with
      inQuotes := !p.inQuotes, isFieldWithEmbeddedDoubleQuotes := true } := by
  simp [Parser.next, Parser.step, Parser.embeddedQuotes, Parser.restorePending,
    Parser.consume, doubleQuotes, defaultQuoteChar, h, he]

theorem Parser.next_quote_again (he : p.isFieldWithEmbeddedDoubleQuotes = true)
    (hf : p.field ≠ []) :
    p.next '"' = { p with
      field := p.field ++ ['"'], inQuotes := !p.inQuotes,
      isFieldWithEmbeddedDoubleQuotes := false } := by
  have hl : 0 < p.field.length := List.length_pos_iff.mpr hf
  simp [Parser.next, Parser.step, Parser.embeddedQuotes, Parser.restorePending,
    Parser.consume, doubleQuotes, defaultQuoteChar, h, he, hl]

theorem Parser.next_quote_empty (he : p.isFieldWithEmbeddedDoubleQuotes = true)
    (hf : p.field = []) :
    p.next '"' = { p with inQuotes := !p.inQuotes } := by
  simp [Parser.next, Parser.step, Parser.embeddedQuotes, Parser.restorePending,
    Parser.consume, doubleQuotes, defaultQuoteChar, h, he, hf]

end InLine

end Netsvc.JavaClientServer
