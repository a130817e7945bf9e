import Netsvc.CClientServer.Rows

/-! From `quotes.csv` through `add_quote_marks.py` and `csv.h` to the three
strings the C server sends. The script and the reader both ignore what the
double quotes enclose, so their result depends on where the commas are. -/
namespace Netsvc.CClientServer
open Netsvc.Library

def crlf : Text := ['\r', '\n']

/-- `add_quote_marks.py` on one line. With `quotechar=None` the Python reader
splits at every comma and the writer joins the row as it is. -/
def addQuoteMarks (line : Text) : Text :=
  let row := line.splitOn ','
  let marked := if row.length = 3 then row.modify 1 (fun field => '"' :: field ++ ['"']) else row
  [','].intercalate marked ++ crlf

def newQuotes (records : List Record) : Text := records.flatMap fun r => addQuoteMarks r.encode

/-- What the three columns of a row give for a record, each formatted with the
state `strtok` is left in when the row has been read. -/
def Recovers (record : Record) (row : Option (List (Option Text)) × Text) : Prop :=
  ∃ strArr, row.1 = some strArr ∧
    (formatAuthor (strArr.getD CsvStructure.author none) row.2).1 = some record.author ∧
    strArr.getD CsvStructure.quote none = some record.quote ∧
    ∃ lineBreak ∈ [[], ['\n'], crlf],
      (formatDate (strArr.getD CsvStructure.date none) row.2).1 = some (record.date ++ lineBreak)

theorem one_lt_length_splitOn {field : Text} (h : ',' ∈ field) :
    1 < (field.splitOn ',').length := by
  obtain ⟨left, right, rfl⟩ := List.append_of_mem h
  rw [List.splitOn_append_cons_self, List.length_append]
  have hl := List.length_pos_iff.mpr (List.splitOn_ne_nil ',' left)
  have hr := List.length_pos_iff.mpr (List.splitOn_ne_nil ',' right)
  omega

theorem splitOn_encode (record : Record) : record.encode.splitOn ',' =
    (encodeField record.author).splitOn ',' ++ ((encodeField record.quote).splitOn ',' ++
      (encodeField record.date).splitOn ',') := by
  rw [Record.encode, List.splitOn_append_cons_self, List.splitOn_append_cons_self,
    List.append_assoc]

/-- The rewritten line of a record whose author and date have no comma. The
script adds the quotes the dialect leaves out, and a quote with a comma has them. -/
theorem addQuoteMarks_encode {record : Record} (hauthor : ',' ∉ record.author)
    (hdate : ',' ∉ record.date) : addQuoteMarks record.encode =
      record.author ++ ',' :: '"' :: (record.quote ++ '"' :: ',' :: (record.date ++ crlf)) := by
  have ha : encodeField record.author = record.author := if_neg hauthor
  have hd : encodeField record.date = record.date := if_neg hdate
  by_cases hquote : ',' ∈ record.quote
  · have hlong : ¬(record.encode.splitOn ',').length = 3 := by
      have hq : 1 < ((encodeField record.quote).splitOn ',').length :=
        one_lt_length_splitOn (by simp [encodeField, hquote])
      rw [splitOn_encode, ha, hd, List.splitOn_eq_singleton hauthor,
        List.splitOn_eq_singleton hdate]
      simp only [List.length_append, List.length_singleton]
      omega
    rw [addQuoteMarks, if_neg hlong, List.intercalate_splitOn]
    simp [Record.encode, encodeField, hauthor, hquote, hdate]
  · have hq : encodeField record.quote = record.quote := if_neg hquote
    have hrow : record.encode.splitOn ',' = [record.author, record.quote, record.date] := by
      rw [splitOn_encode, ha, hq, hd, List.splitOn_eq_singleton hauthor,
        List.splitOn_eq_singleton hquote, List.splitOn_eq_singleton hdate]
      rfl
    simp [addQuoteMarks, hrow, List.intercalate]

theorem lineFeed_notMem_encode {record : Record} (h : record.Plain) : '\n' ∉ record.encode := by
  have hfield : ∀ field ∈ [record.author, record.quote, record.date],
      '\n' ∉ encodeField field := by
    intro field hfield
    unfold encodeField
    split_ifs <;> simp [(h field hfield).2.1]
  simp only [Record.encode, List.mem_append, List.mem_cons, not_or]
  simp [hfield]

theorem addQuoteMarks_line {record : Record} (h : record.Plain) :
    ∃ line : Text, '\n' ∉ line ∧ addQuoteMarks record.encode = line ++ ['\n'] := by
  have hpieces : ∀ piece ∈ record.encode.splitOn ',', '\n' ∉ piece := by
    rw [← Delimiter.notMem_intercalate (show '\n' ≠ ',' by decide), List.intercalate_splitOn]
    exact lineFeed_notMem_encode h
  refine ⟨[','].intercalate (if (record.encode.splitOn ',').length = 3 then
    (record.encode.splitOn ',').modify 1 (fun field => '"' :: field ++ ['"'])
    else record.encode.splitOn ',') ++ ['\r'], ?_, by simp [addQuoteMarks, crlf]⟩
  rw [List.mem_append, not_or, Delimiter.notMem_intercalate (show '\n' ≠ ',' by decide)]
  refine ⟨?_, by decide⟩
  split_ifs
  · intro piece hpiece
    obtain ⟨i, hi, rfl⟩ := List.getElem_of_mem hpiece
    rw [List.getElem_modify]
    split_ifs <;> simp [hpieces]
  · exact hpieces

theorem linesOf_newQuotes {records : List Record} (h : ∀ r ∈ records, r.Plain)
    (rest : Text) : linesOf (newQuotes records ++ rest) =
      records.map (fun r => addQuoteMarks r.encode) ++ linesOf rest := by
  induction records with
  | nil => rfl
  | cons record records ih =>
    obtain ⟨hrecord, hrecords⟩ := List.forall_mem_cons.mp h
    obtain ⟨line, hline, hcode⟩ := addQuoteMarks_line hrecord
    have hget : getline (newQuotes (record :: records) ++ rest) =
        some (addQuoteMarks record.encode, newQuotes records ++ rest) := by
      rw [newQuotes, List.flatMap_cons, hcode, List.append_assoc, List.append_assoc]
      exact getline_append hline _
    rw [linesOf_of_some hget, ih hrecords, List.map_cons, List.cons_append]

structure Whole (record : Record) : Prop where
  author : ',' ∉ record.author
  date : ',' ∉ record.date
  noNul : ∀ field ∈ [record.author, record.quote, record.date], '\x00' ∉ field

instance (record : Record) : Decidable (Whole record) :=
  decidable_of_iff (',' ∉ record.author ∧ ',' ∉ record.date ∧
      ∀ field ∈ [record.author, record.quote, record.date], '\x00' ∉ field)
    ⟨fun ⟨ha, hd, hn⟩ => ⟨ha, hd, hn⟩, fun h => ⟨h.author, h.date, h.noNul⟩⟩

theorem tokens_addQuoteMarks {record : Record} (h : record.Plain) (hquote : record.quote ≠ [])
    (hwhole : Whole record) : tokens '"' (addQuoteMarks record.encode) =
      [record.author ++ [','], record.quote, ',' :: (record.date ++ crlf)] := by
  have hline : addQuoteMarks record.encode =
      (record.author ++ [',']) ++ '"' :: (record.quote ++ '"' :: ',' :: (record.date ++ crlf)) := by
    rw [addQuoteMarks_encode hwhole.author hwhole.date, List.append_assoc]
    rfl
  have hnul := hwhole.noNul
  simp only [List.mem_cons, List.not_mem_nil, or_false, forall_eq_or_imp, forall_eq] at hnul
  obtain ⟨hna, hnq, hnd⟩ := hnul
  have hfirst : '"' ∉ record.author ++ [','] := by simp [h.author_notMem]
  have hlast : '"' ∉ ',' :: (record.date ++ crlf) := by simp [h.date_notMem, crlf]
  rw [hline, tokens_of_some (strtok_append [] (by decide) (by simp) hfirst (by simp [hna]) _),
    tokens_of_some (strtok_append [] (by decide) hquote h.quote_notMem hnq _),
    tokens_of_some (strtok_last [] (List.cons_ne_nil _ _) hlast (by simp [hnd, crlf])),
    tokens_nil]

theorem formatAuthor_eq {record : Record} (hauthor : record.author ≠ [])
    (hwhole : Whole record) (saved : Text) :
    (formatAuthor (some (record.author ++ [','])) saved).1 = some record.author :=
  congrArg Prod.fst (strtok_append saved (by decide) hauthor hwhole.author
    (hwhole.noNul _ (by simp)) [])

theorem formatDate_eq {record : Record} (hdate : record.date ≠ [])
    (hwhole : Whole record) (saved : Text) :
    (formatDate (some (',' :: (record.date ++ crlf))) saved).1 = some (record.date ++ crlf) := by
  have hnul : '\x00' ∉ record.date := hwhole.noNul _ (by simp)
  rw [formatDate, strtok_cons_delim (by decide), strtok_last saved (by simp [hdate])
    (by simp [hwhole.date, crlf]) (by simp [hnul, crlf])]

theorem nul_notMem_splitColumns {separator : Char} {cols : Nat} {line : Option Text}
    {saved token : Text} (h : some token ∈ (splitColumns separator cols line saved).1) :
    '\x00' ∉ token := by
  induction cols generalizing line saved with
  | zero => cases h
  | succ cols ih =>
    rw [splitColumns] at h
    rcases List.mem_cons.mp h with htoken | hrest
    · exact strtok_nul_notMem htoken.symm
    · exact ih hrest

theorem whole_of_recovers {record : Record} {csv : Csv} {i : Nat} {saved : Text}
    (h : Recovers record (readRowFromCsv csv i saved)) : Whole record := by
  obtain ⟨strArr, hrow, hauthor, hquote, lineBreak, -, hdate⟩ := h
  have hnulDate := strtok_nul_notMem hdate
  have hcommaDate := strtok_token_notMem hdate
  rw [List.mem_append, not_or] at hnulDate hcommaDate
  have hnulQuote : '\x00' ∉ record.quote := by
    have hmem : some record.quote ∈ strArr := by
      rw [List.getD_eq_getElem?_getD] at hquote
      rcases hcolumn : strArr[CsvStructure.quote]? with _ | column
      · rw [hcolumn] at hquote
        cases hquote
      · rw [hcolumn] at hquote
        rw [← hquote]
        exact List.mem_of_getElem? hcolumn
    unfold readRowFromCsv at hrow
    split_ifs at hrow
    obtain rfl := Option.some.inj hrow
    exact nul_notMem_splitColumns hmem
  refine ⟨strtok_token_notMem hauthor, hcommaDate.1, ?_⟩
  simpa using ⟨strtok_nul_notMem hauthor, hnulQuote, hnulDate.1⟩

/-- The pipeline recovers a record exactly when `strtok` has nothing to cut in it. -/
theorem readRowFromCsv_recovers_iff {before after : List Record} {record : Record} {csv : Csv}
    (hplain : ∀ r ∈ before ++ [record], r.Plain) (hauthor : record.author ≠ [])
    (hquote : record.quote ≠ []) (hdate : record.date ≠ [])
    (hfile : csv.file = newQuotes (before ++ record :: after)) (hsep : csv.separator = '"')
    (hcols : csv.cols = 3) (hpresent : before.length + 2 ≤ csv.rows) (saved : Text) :
    Recovers record (readRowFromCsv csv (before.length + 1) saved) ↔
      (',' ∉ record.author ∧ ',' ∉ record.date) ∧
        ∀ field ∈ [record.author, record.quote, record.date], '\x00' ∉ field := by
  constructor
  · intro h
    have hwhole := whole_of_recovers h
    exact ⟨⟨hwhole.author, hwhole.date⟩, hwhole.noNul⟩
  · rintro ⟨⟨ha, hd⟩, hnul⟩
    have hwhole : Whole record := ⟨ha, hd, hnul⟩
    have hline : (linesOf csv.file)[before.length]? = some (addQuoteMarks record.encode) := by
      have hsplit : newQuotes (before ++ record :: after) =
          newQuotes (before ++ [record]) ++ newQuotes after := by simp [newQuotes]
      rw [hfile, hsplit, linesOf_newQuotes hplain, List.getElem?_append_left (by simp)]
      simp
    have hrow : (readRowFromCsv csv (before.length + 1) saved).1 = _ :=
      readRowFromCsv_succ hline hpresent
    rw [hsep, hcols, columns, tokens_addQuoteMarks (hplain record (by simp)) hquote hwhole] at hrow
    exact ⟨_, hrow, formatAuthor_eq hauthor hwhole _, rfl, crlf, by simp,
      formatDate_eq hdate hwhole _⟩

def quotesCsv (records : List Record) : Csv := (csvInit (newQuotes records) '"').1

def buddhaRecord : Record :=
  ⟨['B', 'u', 'd', 'd', 'h', 'a'], ['P', 'e', 'a', 'c', 'e', ',', 'n', 'o', 'w'],
    ['1', '2', '/', '0', '9', '/', '1', '9', '9', '1']⟩

theorem readRowFromCsv_recovers_buddhaRecord : Recovers buddhaRecord
    (readRowFromCsv (quotesCsv [buddhaRecord, buddhaRecord]) 1 []) :=
  (@readRowFromCsv_recovers_iff [] [buddhaRecord] buddhaRecord
    (quotesCsv [buddhaRecord, buddhaRecord]) (by decide) (by decide) (by decide)
    (by decide) rfl rfl (by decide) (by decide) []).mpr (by decide)

def kingRecord : Record :=
  ⟨['K', 'i', 'n', 'g', ',', ' ', 'J', 'r', '.'], ['L', 'o', 'v', 'e', '.'],
    ['0', '8', '/', '3', '0', '/', '1', '9', '5', '4']⟩

/-- The second of three lines, read at index 2. -/
theorem readRowFromCsv_loses_author_comma :
    ((quotesCsv [buddhaRecord, kingRecord, buddhaRecord]).cols = 3 ∧
      2 < (quotesCsv [buddhaRecord, kingRecord, buddhaRecord]).rows ∧
      kingRecord.Plain ∧ kingRecord.author ≠ [] ∧ kingRecord.quote ≠ [] ∧
      kingRecord.date ≠ []) ∧
    ¬Recovers kingRecord
      (readRowFromCsv (quotesCsv [buddhaRecord, kingRecord, buddhaRecord]) 2 []) := by
  refine ⟨by decide, fun h => ?_⟩
  exact absurd (whole_of_recovers h).author (by decide)

end Netsvc.CClientServer
