import Mathlib.Data.Int.GCD
import Netsvc.CClientServer.Delivery
import Netsvc.CClientServer.Pipeline
import Netsvc.CClientServer.QuoteOfTheDay
import Netsvc.Library.Interleaving

/-! The C server as a whole: from `quotes.csv` over `new_quotes.csv`, the table, and the
row of the start time to what the clients print. -/
namespace Netsvc.CClientServer
open Netsvc.Library Netsvc.Library.Interleaving Netsvc.Library.Transition

/-- The records of a file the server can use. `cols` is counted on the first line, and
`rows` is an `int`. -/
structure QuoteTable (records : List Record) : Prop where
  plain : ∀ r ∈ records, r.Plain
  filled : ∀ r ∈ records, r.author ≠ [] ∧ r.quote ≠ [] ∧ r.date ≠ []
  first : ∀ r, records[0]? = some r → Whole r
  pos : 0 < records.length
  lt : records.length < 2 ^ 31

/-- The pointers a child hands to `write_to_socket` in a pass of its loop. `encode` gives the bytes
of a text, and the result is `none` where `strarr` itself is null. -/
def selectRow (encode : Text → CString) (csv : Csv) (rowIndex : Nat) (saved : Text) : Option Row :=
  match readRowFromCsv csv rowIndex saved with
  | (none, _) => none
  | (some strArr, saved) => some
      { quote := (strArr.getD CsvStructure.quote none).map encode
        author := (formatAuthor (strArr.getD CsvStructure.author none) saved).1.map encode
        date := (formatDate (strArr.getD CsvStructure.date none) saved).1.map encode }

/-- The strings of a record as they are sent; the date still has its line break. -/
def Record.selection (encode : Text → CString) (record : Record) : Selection :=
  ⟨encode record.quote, encode record.author, encode (record.date ++ crlf)⟩

section Table
variable {records : List Record} (h : QuoteTable records)
include h

theorem QuoteTable.lines : linesOf (newQuotes records) =
    records.map fun r => addQuoteMarks r.encode := by
  have hlines := linesOf_newQuotes h.plain []
  rwa [List.append_nil, show linesOf [] = [] from rfl, List.append_nil] at hlines

theorem QuoteTable.quotesCsv_eq : quotesCsv records =
    { file := newQuotes records, separator := '"', rows := records.length, cols := 3 } := by
  obtain ⟨first, later, rfl⟩ := List.exists_cons_of_length_pos h.pos
  have htokens := tokens_addQuoteMarks (h.plain first List.mem_cons_self)
    (h.filled first List.mem_cons_self).2.1 (h.first first rfl)
  have hinit := csvInit_eq '"' h.lines
  rw [htokens, List.length_map, Nat.add_comm] at hinit
  exact congrArg Prod.fst hinit

theorem QuoteTable.rows : (quotesCsv records).rows = records.length := by
  rw [h.quotesCsv_eq]

/-- Row 0 is what `strtok` finds at its pointer. -/
theorem QuoteTable.row_zero (saved : Text) :
    (readRowFromCsv (quotesCsv records) 0 saved).1 = some (columns '"' 3 saved) := by
  rw [h.quotesCsv_eq]
  exact readRowFromCsv_zero h.pos

theorem QuoteTable.selectRow_succ (encode : Text → CString) {i : ℕ} {record : Record}
    (hi : i + 1 < records.length) (hrecord : records[i]? = some record)
    (hwhole : Whole record) (saved : Text) :
    selectRow encode (quotesCsv records) (i + 1) saved =
      some (Record.selection encode record).row := by
  have hmem := List.mem_of_getElem? hrecord
  obtain ⟨hauthor, hquote, hdate⟩ := h.filled record hmem
  have hline : (linesOf (newQuotes records))[i]? = some (addQuoteMarks record.encode) := by
    rw [h.lines, List.getElem?_map, hrecord, Option.map_some]
  have hrow : (readRowFromCsv (quotesCsv records) (i + 1) saved).1 =
      some [some (record.author ++ [',']), some record.quote,
        some (',' :: (record.date ++ crlf))] := by
    rw [h.quotesCsv_eq, readRowFromCsv_succ hline hi, columns,
      tokens_addQuoteMarks (h.plain record hmem) hquote hwhole]
    rfl
  unfold selectRow
  rcases hread : readRowFromCsv (quotesCsv records) (i + 1) saved with ⟨_ | strArr, rest⟩
  · rw [hread] at hrow
    cases hrow
  · rw [hread] at hrow
    obtain rfl := Option.some.inj hrow
    change some (Row.mk (some (encode record.quote))
      ((formatAuthor (some (record.author ++ [','])) rest).1.map encode)
      ((formatDate (some (',' :: (record.date ++ crlf))) rest).1.map encode)) = _
    rw [formatAuthor_eq hauthor hwhole, formatDate_eq hdate hwhole]
    rfl

end Table

theorem exists_mul_mod_eq_iff {a b i : ℕ} (hi : i < b) :
    (∃ m < b, m * a % b = i) ↔ a.gcd b ∣ i := by
  constructor
  · rintro ⟨m, -, rfl⟩
    rw [Nat.dvd_mod_iff (Nat.gcd_dvd_right a b)]
    exact (Nat.gcd_dvd_left a b).mul_left m
  · rintro ⟨c, rfl⟩
    have hpos := Nat.zero_lt_of_lt hi
    rcases (Nat.gcd_le_right a hpos).lt_or_eq with hlt | heq
    · obtain ⟨m, -, hm⟩ := Nat.exists_mul_mod_eq_gcd hlt
      refine ⟨c * m % b, Nat.mod_lt _ hpos, ?_⟩
      calc c * m % b * a % b = a * m * c % b := by
            rw [Nat.mod_mul_mod, Nat.mul_assoc, Nat.mul_comm c, Nat.mul_comm m a]
        _ = a.gcd b * c % b := by rw [← Nat.mod_mul_mod, hm]
        _ = a.gcd b * c := Nat.mod_eq_of_lt hi
    · have hc : c = 0 := by
        rw [heq] at hi
        refine Nat.eq_zero_of_not_pos fun hc => absurd hi ?_
        exact Nat.not_lt.mpr (Nat.le_mul_of_pos_right b hc)
      exact ⟨0, hpos, by rw [hc, Nat.zero_mul, Nat.mul_zero, Nat.zero_mod]⟩

/-- The rows the server can choose in its time. -/
theorem exists_qotd_eq_iff {rows i : ℕ} (hrows : rows < 2 ^ 31) (hi : i < rows) :
    (∃ n < 2 ^ 58, qotd (Int64.ofNat n) rows = i) ↔ Nat.gcd 1440 rows ∣ i := by
  rw [← exists_mul_mod_eq_iff hi]
  constructor
  · rintro ⟨n, hn, hqotd⟩
    rw [qotd_ofNat hn, Int.natCast_inj] at hqotd
    refine ⟨n / 60 % rows, Nat.mod_lt _ (Nat.zero_lt_of_lt hi), ?_⟩
    rw [Nat.mod_mul_mod, hqotd]
  · rintro ⟨m, hm, rfl⟩
    refine ⟨60 * m, by omega, ?_⟩
    rw [qotd_ofNat (by omega), Nat.mul_div_cancel_left m (by decide)]

/-- The row that a server started at second `n` reads when `strtok` has kept `saved`. -/
def rowAt (encode : Text → CString) (records : List Record) (n : ℕ) (saved : Text) : Option Row :=
  selectRow encode (quotesCsv records)
    (qotd (Int64.ofNat n) (quotesCsv records).rows).toNat saved

/-- The index of every start is a multiple of the greatest common divisor of 1440 and the
number of rows, and each of these is the index of some start. At index 0 the columns are
tokens of what `strtok` finds at its pointer, and at every later one the row is the record
before the index. -/
theorem rows_served (encode : Text → CString) (records : List Record)
    (h : QuoteTable records) :
    (∀ n < 2 ^ 58, ∃ i < records.length, Nat.gcd 1440 records.length ∣ i ∧
      qotd (Int64.ofNat n) (quotesCsv records).rows = i ∧
      (i = 0 → ∀ saved,
        (readRowFromCsv (quotesCsv records) i saved).1 = some (columns '"' 3 saved)) ∧
      ∀ k record, i = k + 1 → records[k]? = some record → Whole record →
        ∀ saved, rowAt encode records n saved = some (Record.selection encode record).row) ∧
    ∀ i < records.length, Nat.gcd 1440 records.length ∣ i →
      ∃ n < 2 ^ 58, qotd (Int64.ofNat n) (quotesCsv records).rows = i := by
  unfold rowAt
  refine ⟨fun n hn => ?_, fun i hi hdvd => ?_⟩
  · have hlt : n / 60 * 1440 % records.length < records.length := Nat.mod_lt _ h.pos
    have hqotd : qotd (Int64.ofNat n) (quotesCsv records).rows =
        (n / 60 * 1440 % records.length : ℕ) := by rw [h.rows, qotd_ofNat hn]
    refine ⟨_, hlt, (exists_qotd_eq_iff h.lt hlt).mp ⟨n, hn, h.rows ▸ hqotd⟩, hqotd, ?_, ?_⟩
    · intro hzero saved
      rw [hzero]
      exact h.row_zero saved
    · intro k record hk hrecord hwhole saved
      rw [hqotd, hk]
      exact h.selectRow_succ encode (hk ▸ hlt) hrecord hwhole saved
  · rw [h.rows]
    exact (exists_qotd_eq_iff h.lt hi).mpr hdvd

def wholeFrames (_ : ℕ) : ReadSize := ⟨maxStrSize, by decide, Nat.le_refl _⟩

theorem offset_wholeFrames (k : ℕ) : offset wholeFrames k = maxStrSize * k := by
  induction k with
  | zero => rfl
  | succ k ih => rw [offset, ih]; rfl

section Record
variable {encode : Text → CString} {record : Record}
  (hshort : ∀ text ∈ [record.quote, record.author, record.date ++ crlf],
    (encode text).bytes.length < maxStrSize)
include hshort

theorem Record.field_length_lt (request : UInt8) :
    ((Record.selection encode record).field request).bytes.length < maxStrSize := by
  unfold Selection.field
  split_ifs
  · exact hshort _ (by simp)
  · exact hshort _ (by simp)
  · exact hshort _ (by simp)

theorem Record.right {options : Bytes} {s : Transfer}
    (h : Reachable (Transfer.Step (Record.selection encode record) options wholeFrames)
      (Transfer.start options) s) : s.Right (Record.selection encode record) := by
  have hdelivered : ∀ j text, ((Record.selection encode record).texts options)[j]? = some text →
      Delivered ((Record.selection encode record).texts options) wholeFrames j text := by
    intro j text htext
    obtain ⟨request, -, rfl⟩ := List.mem_map.mp (List.mem_of_getElem? htext)
    exact .inl ⟨offset_wholeFrames j, (Record.field_length_lt hshort request).le⟩
  have hinv := h.invariant
    (Transfer.Invariant (Record.selection encode record) options wholeFrames)
    (fun _ _ _ => Transfer.Invariant.step hdelivered) Transfer.start_invariant
  exact hinv.right

end Record

/-- When the strings are shorter than a frame and every `read` takes one, then however
the clients and children take turns each client prints the fields of the record before
the index of the start time, whatever its options, and it can get all of them. -/
theorem clients_print_record {ι : Type*} [DecidableEq ι] (encode : Text → CString)
    (records : List Record) (h : QuoteTable records) (n k : ℕ) (hn : n < 2 ^ 58)
    (hk : n / 60 * 1440 % records.length = k + 1) (options : ι → Bytes) :
    ∃ record, records[k]? = some record ∧
      (Whole record → (∀ text ∈ [record.quote, record.author, record.date ++ crlf],
          (encode text).bytes.length < maxStrSize) →
        ∃ selected, (∀ saved, rowAt encode records n saved = some selected.row) ∧
          (∀ x, Reachable (Interleaved fun i => Transfer.Step selected (options i) wholeFrames)
              (fun i => Transfer.start (options i)) x →
            ∀ i, ∀ p ∈ (x i).printed, p.2 =
              (encode (if p.1 = 'q'.toUInt8 then record.quote
                else if p.1 = 'a'.toUInt8 then record.author
                else record.date ++ crlf)).bytes) ∧
          ∀ i, ∃ x,
            Reachable (Interleaved fun i => Transfer.Step selected (options i) wholeFrames)
              (fun i => Transfer.start (options i)) x ∧
            (x i).printed.length = (requested (options i)).length) := by
  have hlt : k + 1 < records.length := hk ▸ Nat.mod_lt _ h.pos
  obtain ⟨record, hrecord⟩ : ∃ record, records[k]? = some record :=
    ⟨_, List.getElem?_eq_getElem (Nat.lt_of_succ_lt hlt)⟩
  refine ⟨record, hrecord, fun hwhole hshort =>
    ⟨Record.selection encode record, fun saved => ?_, fun x hreach i p hp => ?_, fun i => ?_⟩⟩
  · rw [rowAt, h.rows, qotd_ofNat hn, hk]
    exact h.selectRow_succ encode hlt hrecord hwhole saved
  · rw [Record.right hshort (Interleaved.component hreach i) p hp]
    unfold Selection.field
    split_ifs <;> rfl
  · obtain ⟨s, hreach, hready⟩ := Transfer.reach_ready (Record.selection encode record)
      (options i) wholeFrames (fun _ => 0) (Nat.le_refl _)
    refine ⟨_, Interleaved.lift hreach, ?_⟩
    rw [Function.update_self]
    exact hready.printed

def asciiBytes (text : Text) : CString :=
  ⟨(text.map fun c => c.toNat.toUInt8).takeWhile (· != 0), Delimiter.notMem_takeWhile 0 _⟩

theorem quoteTable_buddhaRecord : QuoteTable (List.replicate 7 buddhaRecord) where
  plain := List.forall_mem_replicate.mpr (.inr (by decide))
  filled := List.forall_mem_replicate.mpr (.inr (by decide))
  first := by
    rintro _ ⟨⟩
    decide
  pos := by decide
  lt := by decide

theorem rows_served_buddhaRecord : ∃ n < 2 ^ 58,
    qotd (Int64.ofNat n) (quotesCsv (List.replicate 7 buddhaRecord)).rows = (5 : ℕ) :=
  (rows_served asciiBytes _ quoteTable_buddhaRecord).2 5 (by decide) (by decide)

theorem clients_print_record_buddhaRecord :
    ∃ selected, (∀ saved,
        rowAt asciiBytes (List.replicate 7 buddhaRecord) 60 saved = some selected.row) ∧
      ∃ x : Fin 2 → Transfer,
        Reachable (Interleaved fun _ => Transfer.Step selected ['q'.toUInt8] wholeFrames)
          (fun _ => Transfer.start ['q'.toUInt8]) x ∧ (x 0).printed.length = 1 := by
  obtain ⟨record, hrecord, hprint⟩ := clients_print_record asciiBytes _
    quoteTable_buddhaRecord 60 4 (by decide) (by decide) fun _ : Fin 2 => ['q'.toUInt8]
  obtain rfl : buddhaRecord = record := Option.some.inj hrecord
  obtain ⟨selected, hrow, -, hall⟩ := hprint (by decide) (by decide)
  obtain ⟨x, hreach, hlength⟩ := hall 0
  exact ⟨selected, hrow, x, hreach, hlength⟩

end Netsvc.CClientServer
