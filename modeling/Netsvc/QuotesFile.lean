import Mathlib.Algebra.Ring.Int.Defs
import Mathlib.Algebra.Ring.Nat
import Mathlib.Data.List.Basic

/-! The quotes file the three quote-of-the-day servers share. A `char` of Java,
C++ or C is a `Char`, and a string of any of them is a list of characters. -/
namespace Netsvc

abbrev Text := List Char

instance decidableMemTexts (text : Text) (texts : List Text) : Decidable (text ∈ texts) :=
  inferInstance

structure Record where
  author : Text
  quote : Text
  date : Text
  deriving DecidableEq, Repr

/-- The dialect of `quotes.csv`: double quotes exactly around a field with a comma. -/
def encodeField (field : Text) : Text :=
  if ',' ∈ field then '"' :: field ++ ['"'] else field

def Record.encode (record : Record) : Text :=
  encodeField record.author ++ ',' :: encodeField record.quote ++
    ',' :: encodeField record.date

def Record.Plain (record : Record) : Prop :=
  ∀ field ∈ [record.author, record.quote, record.date],
    '"' ∉ field ∧ '\n' ∉ field ∧ '\r' ∉ field

instance (record : Record) : Decidable record.Plain :=
  inferInstanceAs (Decidable (∀ field ∈ [record.author, record.quote, record.date],
    '"' ∉ field ∧ '\n' ∉ field ∧ '\r' ∉ field))

section Plain
variable {record : Record} (h : record.Plain)
include h

theorem Record.Plain.author_notMem : '"' ∉ record.author := (h _ (by simp)).1

theorem Record.Plain.quote_notMem : '"' ∉ record.quote := (h _ (by simp)).1

theorem Record.Plain.date_notMem : '"' ∉ record.date := (h _ (by simp)).1

end Plain

end Netsvc
