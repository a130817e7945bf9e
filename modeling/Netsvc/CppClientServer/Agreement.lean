import Netsvc.CppClientServer.Quote
import Netsvc.JavaClientServer.LineCodec
import Netsvc.Library.Utf8

/-! The C++ and the Java reader on one line of `quotes.csv`. The Java reader
recovers every record; the C++ reader keeps the double quotes of the dialect, and
counts bytes where Java counts characters. -/
namespace Netsvc.CppClientServer
open Netsvc.JavaClientServer Netsvc.Library.Utf8

theorem doubled_of_notMem {field : Text} (h : '"' ∉ field) : doubled field = field := by
  induction field with
  | nil => rfl
  | cons c field ih =>
    have hc : c ≠ '"' := fun hc => h (by simp [hc])
    have htail := ih fun hmem => h (List.mem_cons_of_mem c hmem)
    unfold doubled at htail ⊢
    simp [hc, htail]

theorem fieldCode_encodeField {field : Text} (h : '"' ∉ field) :
    FieldCode field (encodeField field) := by
  unfold encodeField
  split_ifs with hcomma
  · have hwrap := FieldCode.wrapped field
    rwa [wrap, doubled_of_notMem h] at hwrap
  · exact .bare hcomma h

theorem dropQuotes_of_notMem {field : Text} (h : '"' ∉ field) : dropQuotes field = field :=
  dropQuotes_eq_self_iff.mpr fun hhead => h (List.mem_of_head? hhead)

theorem parseLine_encode {record : Record} (h : record.Plain) :
    (parseLine record.encode Static.initial).1 =
      [record.author, record.quote, record.date] := by
  have hcode : LineCode [record.author, record.quote, record.date] record.encode := by
    have := LineCode.cons (fieldCode_encodeField h.author_notMem)
      (.cons (fieldCode_encodeField h.quote_notMem)
        (.last (fieldCode_encodeField h.date_notMem)))
    simpa [Record.encode] using this
  rw [Static.initial, (parse_lineCode hcode []).1]
  simp [dropQuotes_of_notMem, h.author_notMem, h.quote_notMem, h.date_notMem]

theorem take_wrapped_ne {field : Text} (hcomma : ',' ∈ field) (hquote : '"' ∉ field)
    (rest : Text) (n : Nat) : (encodeField field ++ rest).take n ≠ field := by
  intro h
  rw [encodeField, if_pos hcomma] at h
  cases n with
  | zero =>
    rw [List.take_zero] at h
    simp [← h] at hcomma
  | succ n =>
    apply hquote
    rw [← h]
    simp

/-- The dates of the file: what makes the scan for the end of the quote stop. -/
structure PlainDate (date : Text) : Prop where
  length : date.length = 10
  comma : ',' ∉ date
  head : date.head? ≠ some ' '

theorem toSize_toInt_eq {n : Nat} (hn : n < 2 ^ 63) (h : toSize (toInt n) = n)
    (hmax : toInt n ≠ intMax) : n + 1 < 2 ^ 31 := by
  have heq := eq_of_toSize_eq (isInt_toInt n) hn h
  have hle := (isInt_toInt n).2
  unfold intMax at hmax hle
  omega

section PlainLine
variable {left right : Text} (hlt : left.length + 1 < 2 ^ 31)
include hlt

theorem substr_right {n : Nat} :
    substr (left ++ ',' :: right) (toSize ((left.length + 1 : Nat) : Int)) n =
      .ok (right.take n) := by
  rw [toSize_natCast (by omega), substr_eq_ok_iff]
  simp

variable (hcomma : ',' ∉ left)
include hcomma

theorem substr_left : substr (left ++ ',' :: right) 0
    (toSize (toInt (find (left ++ ',' :: right) ','))) = .ok left := by
  rw [find_append hcomma, toInt_of_lt (by omega), toSize_natCast (by omega), substr_eq_ok_iff]
  simp

theorem increment_find : increment (toInt (find (left ++ ',' :: right) ',')) =
    .ok ((left.length + 1 : Nat) : Int) := by
  rw [find_append hcomma, toInt_of_lt (by omega), increment_eq_ok_iff]
  unfold intMax
  exact ⟨by omega, by simp⟩

end PlainLine

theorem stringToQuote_plain {author quote date : Text} (hauthor : ',' ∉ author)
    (hquote : ',' ∉ quote) (hhead : date.head? ≠ some ' ') (ha : author.length + 1 < 2 ^ 31)
    (hq : quote.length + 1 < 2 ^ 31)
    (hsize : (author ++ ',' :: quote ++ ',' :: date).length < 2 ^ 63) (fuel : Nat) :
    stringToQuote (fuel + 1) (author ++ ',' :: (quote ++ ',' :: date)) =
      .ok ⟨author, quote, date.take 10⟩ := by
  have hrest : (quote ++ ',' :: date).take npos = quote ++ ',' :: date := by
    apply List.take_of_length_le
    simp only [List.length_append, List.length_cons] at hsize ⊢
    unfold npos sizeModulus
    omega
  have hahead : date.take 1 ≠ [' '] := by
    intro h
    apply hhead
    cases date <;> simp_all
  have hloop : splitLoop (fuel + 1) (quote ++ ',' :: date) (toInt (find (quote ++ ',' :: date) ',')) =
      .ok (toInt (find (quote ++ ',' :: date) ',')) := by
    rw [splitLoop, increment_find hq hquote]
    simp only [bind, Except.bind, substr_right hq, hahead, ↓reduceIte]
    rfl
  simp only [stringToQuote, bind, Except.bind, substr_left ha hauthor, increment_find ha hauthor,
    substr_right ha, hrest, hloop, substr_left hq hquote, increment_find hq hquote,
    substr_right hq]
  rfl

theorem author_of_stringToQuote {record : Record} (h : record.Plain) (hdate : ',' ∉ record.date)
    (hsize : record.encode.length < 2 ^ 63) {fuel : Nat}
    (hrun : stringToQuote fuel record.encode = .ok ⟨record.author, record.quote, record.date⟩) :
    (',' ∉ record.author ∧ record.author.length + 1 < 2 ^ 31) ∧
      ∃ position, splitLoop fuel (encodeField record.quote ++ ',' :: record.date)
          (toInt (find (encodeField record.quote ++ ',' :: record.date) ',')) = .ok position ∧
        position ≠ intMax ∧
        (encodeField record.quote ++ ',' :: record.date).take (toSize position) =
          record.quote := by
  obtain ⟨author, quote, date⟩ := record
  obtain ⟨after, position, hmax, hname, hafter, hloop, hmax', hquote, -⟩ :=
    stringToQuote_eq_ok hrun
  have hauthor : ',' ∉ author := by
    intro hcomma
    rw [Record.encode, List.append_assoc] at hname
    exact take_wrapped_ne hcomma h.author_notMem _ _ hname
  have hline : Record.encode ⟨author, quote, date⟩ =
      author ++ ',' :: (encodeField quote ++ ',' :: date) := by
    simp [Record.encode, encodeField, hauthor, hdate]
  rw [hline] at hmax hname hafter hsize
  simp only [List.length_append, List.length_cons] at hsize
  rw [find_append hauthor] at hmax hname hafter
  have hoffset : toSize (toInt author.length) = author.length := by
    have := congrArg List.length hname
    simp only [List.length_take, List.length_append, List.length_cons] at this
    omega
  have ha := toSize_toInt_eq (by omega) hoffset hmax
  have hrest : after = encodeField quote ++ ',' :: date := by
    have hright : substr (author ++ ',' :: (encodeField quote ++ ',' :: date))
        (toSize ((author.length + 1 : Nat) : Int)) npos =
        .ok ((encodeField quote ++ ',' :: date).take npos) := substr_right ha
    rw [toInt_of_lt (by omega)] at hafter
    push_cast at hright
    rw [hright] at hafter
    cases hafter
    apply List.take_of_length_le
    simp only [List.length_append, List.length_cons]
    unfold npos sizeModulus
    omega
  subst hrest
  exact ⟨⟨hauthor, ha⟩, position, hloop, hmax', hquote⟩

theorem quote_of_stringToQuote {record : Record} (h : record.Plain) (hdate : ',' ∉ record.date)
    (hsize : record.encode.length < 2 ^ 63) {fuel : Nat}
    (hrun : stringToQuote fuel record.encode = .ok ⟨record.author, record.quote, record.date⟩) :
    ',' ∉ record.quote ∧ record.quote.length + 1 < 2 ^ 31 := by
  obtain ⟨-, position, hloop, hmax, hquote⟩ := author_of_stringToQuote h hdate hsize hrun
  have hcomma : ',' ∉ record.quote := fun hcomma =>
    take_wrapped_ne hcomma h.quote_notMem (',' :: record.date) _ hquote
  have hcode : encodeField record.quote = record.quote := if_neg hcomma
  have hoffset : toSize position = record.quote.length := by
    have := congrArg List.length hquote
    rw [hcode] at this
    simp only [List.length_take, List.length_append, List.length_cons] at this
    omega
  have hint := splitLoop_isInt (isInt_toInt _) hloop
  have hlength : record.quote.length < 2 ^ 63 := by
    simp only [Record.encode, hcode, List.length_append, List.length_cons] at hsize
    omega
  have hposition := eq_of_toSize_eq hint hlength hoffset
  have hle := hint.2
  unfold intMax at hle hmax
  exact ⟨hcomma, by omega⟩

/-- The record as the C++ reader has it, in bytes. -/
def utf8Record (record : Record) : Record :=
  ⟨utf8 record.author, utf8 record.quote, utf8 record.date⟩

theorem utf8_encodeField (field : Text) : utf8 (encodeField field) = encodeField (utf8 field) := by
  have hmem : ',' ∈ utf8 field ↔ ',' ∈ field := mem_utf8_iff (by decide)
  by_cases hcomma : ',' ∈ field
  · rw [encodeField, encodeField, if_pos hcomma, if_pos (hmem.mpr hcomma), List.cons_append,
      utf8_cons_of_ascii (by decide), utf8_append]
    rfl
  · rw [encodeField, encodeField, if_neg hcomma, if_neg (hmem.not.mpr hcomma)]

theorem encode_of_notMem {record : Record} (hauthor : ',' ∉ record.author)
    (hquote : ',' ∉ record.quote) (hdate : ',' ∉ record.date) :
    record.encode = record.author ++ ',' :: (record.quote ++ ',' :: record.date) := by
  rw [Record.encode, encodeField, if_neg hauthor, encodeField, if_neg hquote, encodeField,
    if_neg hdate, List.append_assoc]
  rfl

theorem utf8_encode (record : Record) : utf8 record.encode = (utf8Record record).encode := by
  have hcomma : ∀ text : Text, utf8 (',' :: text) = ',' :: utf8 text :=
    utf8_cons_of_ascii (by decide)
  simp only [Record.encode, utf8Record, utf8_append, hcomma, utf8_encodeField]

theorem plain_utf8Record {record : Record} (h : record.Plain) : (utf8Record record).Plain := by
  have hfield : ∀ field ∈ [record.author, record.quote, record.date],
      '"' ∉ utf8 field ∧ '\n' ∉ utf8 field ∧ '\r' ∉ utf8 field := by
    intro field hmem
    rw [mem_utf8_iff (by decide), mem_utf8_iff (by decide), mem_utf8_iff (by decide)]
    exact h field hmem
  intro field hmem
  simp only [utf8Record, List.mem_cons, List.not_mem_nil, or_false] at hmem
  rcases hmem with rfl | rfl | rfl
  · exact hfield _ (by simp)
  · exact hfield _ (by simp)
  · exact hfield _ (by simp)

theorem stringToQuote_utf8_encode {record : Record} (hdate : PlainDate record.date)
    (hsize : (utf8 record.encode).length < 2 ^ 63) (hauthor : ',' ∉ utf8 record.author)
    (hquote : ',' ∉ utf8 record.quote) (ha : (utf8 record.author).length + 1 < 2 ^ 31)
    (hq : (utf8 record.quote).length + 1 < 2 ^ 31) (fuel : Nat) :
    stringToQuote (fuel + 1) (utf8 record.encode) =
      .ok ⟨utf8 record.author, utf8 record.quote, (utf8 record.date).take 10⟩ := by
  have hcomma : ',' ∉ utf8 record.date := (mem_utf8_iff (by decide)).not.mpr hdate.comma
  have hhead : (utf8 record.date).head? ≠ some ' ' :=
    (head?_utf8_iff (by decide)).not.mpr hdate.head
  have hline : utf8 record.encode = utf8 record.author ++
      ',' :: (utf8 record.quote ++ ',' :: utf8 record.date) := by
    rw [utf8_encode]
    exact encode_of_notMem hauthor hquote hcomma
  rw [hline] at hsize ⊢
  refine stringToQuote_plain hauthor hquote hhead ha hq ?_ fuel
  simpa using hsize

/-- The two readers agree on a line exactly when neither the author nor the quote contains
a comma and the bytes of both fit the `int` positions, and the date is in ASCII. -/
theorem stringToQuote_agrees_iff {record : Record} (h : record.Plain)
    (hdate : PlainDate record.date) (hsize : (utf8 record.encode).length < 2 ^ 63) :
    ((parseLine record.encode Static.initial).1 = [record.author, record.quote, record.date] ∧
        ∃ least, ∀ fuel, least ≤ fuel → stringToQuote fuel (utf8 record.encode) =
          .ok ⟨utf8 record.author, utf8 record.quote, utf8 record.date⟩) ↔
      ((',' ∉ record.author ∧ (utf8 record.author).length + 1 < 2 ^ 31) ∧
        ',' ∉ record.quote ∧ (utf8 record.quote).length + 1 < 2 ^ 31) ∧
        ∀ c ∈ record.date, c.toNat < 128 := by
  have hlength : (utf8 record.date).length = 10 ↔ ∀ c ∈ record.date, c.toNat < 128 := by
    rw [← length_utf8_eq_iff, hdate.length]
  rw [← hlength]
  constructor
  · rintro ⟨-, least, hrun⟩
    have hlast := hrun (least + 1) (Nat.le_succ _)
    have hbytes := hlast
    rw [utf8_encode] at hbytes
    have hplain := plain_utf8Record h
    have hcomma : ',' ∉ utf8 record.date := (mem_utf8_iff (by decide)).not.mpr hdate.comma
    have hsizeBytes := hsize
    rw [utf8_encode] at hsizeBytes
    obtain ⟨⟨hauthor, ha⟩, -⟩ := author_of_stringToQuote hplain hcomma hsizeBytes hbytes
    obtain ⟨hquote, hq⟩ := quote_of_stringToQuote hplain hcomma hsizeBytes hbytes
    have hten : (utf8 record.date).take 10 = utf8 record.date := by
      rw [stringToQuote_utf8_encode hdate hsize hauthor hquote ha hq] at hlast
      exact (Quote.mk.inj (Except.ok.inj hlast)).2.2
    have hle := length_le_utf8 record.date
    have htake := congrArg List.length hten
    rw [List.length_take] at htake
    rw [hdate.length] at hle
    refine ⟨⟨⟨?_, ha⟩, ?_, hq⟩, by omega⟩
    · exact (mem_utf8_iff (by decide)).not.mp hauthor
    · exact (mem_utf8_iff (by decide)).not.mp hquote
  · rintro ⟨⟨⟨hauthor, ha⟩, hquote, hq⟩, hten⟩
    refine ⟨parseLine_encode h, 1, fun fuel hle => ?_⟩
    obtain ⟨fuel, rfl⟩ := Nat.exists_eq_add_of_le' hle
    rw [stringToQuote_utf8_encode hdate hsize ((mem_utf8_iff (by decide)).not.mpr hauthor)
      ((mem_utf8_iff (by decide)).not.mpr hquote) ha hq, List.take_of_length_le (Nat.le_of_eq hten)]

def plainRecord : Record :=
  ⟨['B', 'u', 'd', 'd', 'h', 'a'], ['P', 'e', 'a', 'c', 'e', '.'],
    ['1', '2', '/', '0', '9', '/', '1', '9', '9', '1']⟩

theorem stringToQuote_agrees_plainRecord :
    (parseLine plainRecord.encode Static.initial).1 =
        [plainRecord.author, plainRecord.quote, plainRecord.date] ∧
      ∃ least, ∀ fuel, least ≤ fuel → stringToQuote fuel (utf8 plainRecord.encode) =
        .ok ⟨utf8 plainRecord.author, utf8 plainRecord.quote, utf8 plainRecord.date⟩ :=
  (@stringToQuote_agrees_iff plainRecord (by decide)
    ⟨by decide, by decide, by decide⟩ (by decide)).mpr
    ⟨⟨⟨by decide, by decide⟩, by decide, by decide⟩, by simp [plainRecord]⟩

def commaRecord : Record :=
  ⟨['Y', 'o', 'g', 'i'], ['i', 'f', ',', ' ', 'y', 'o', 'u'],
    ['0', '9', '/', '2', '9', '/', '2', '0', '1', '4']⟩

theorem stringToQuote_keeps_quotes :
    (parseLine commaRecord.encode Static.initial).1 =
        [commaRecord.author, commaRecord.quote, commaRecord.date] ∧
      ¬∃ fuel, stringToQuote fuel (utf8 commaRecord.encode) =
        .ok ⟨utf8 commaRecord.author, utf8 commaRecord.quote, utf8 commaRecord.date⟩ := by
  refine ⟨by decide, ?_⟩
  rintro ⟨fuel, hrun⟩
  have hplain : (utf8Record commaRecord).Plain := plain_utf8Record (by decide)
  rw [utf8_encode] at hrun
  have hcomma := quote_of_stringToQuote hplain (by decide) (by decide) hrun
  exact absurd hcomma.1 (by decide)

end Netsvc.CppClientServer
