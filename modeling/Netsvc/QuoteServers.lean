import Netsvc.CppClientServer.Agreement
import Netsvc.CppClientServer.Children
import Netsvc.CppClientServer.Selection
import Netsvc.JavaClientServer.Leftover
import Netsvc.JavaClientServer.MultiLine
import Netsvc.JavaClientServer.ServerMain

/-! The Java and the C++ server with all their clients on one `quotes.csv`. -/
namespace Netsvc
open Netsvc.Library.Transition

def quotesText (records : List Record) : Text := records.flatMap fun r => r.encode ++ ['\n']

theorem quotesText_cons (record : Record) (records : List Record) :
    quotesText (record :: records) = record.encode ++ '\n' :: quotesText records := by
  rw [quotesText, List.flatMap_cons, List.append_assoc]
  rfl

theorem notMem_encodeField {c : Char} (hquote : c ≠ '"') {field : Text} (h : c ∉ field) :
    c ∉ encodeField field := by
  unfold encodeField
  split_ifs <;> simp [h, hquote]

theorem Record.Plain.notMem_encode {record : Record} (h : record.Plain) :
    '\n' ∉ record.encode ∧ '\r' ∉ record.encode := by
  obtain ⟨⟨-, ha, ha'⟩, ⟨-, hq, hq'⟩, -, hd, hd'⟩ :
      ('"' ∉ record.author ∧ '\n' ∉ record.author ∧ '\r' ∉ record.author) ∧
      ('"' ∉ record.quote ∧ '\n' ∉ record.quote ∧ '\r' ∉ record.quote) ∧
      '"' ∉ record.date ∧ '\n' ∉ record.date ∧ '\r' ∉ record.date :=
    ⟨h _ (by simp), h _ (by simp), h _ (by simp)⟩
  have hfeed : ∀ field : Text, '\n' ∉ field → '\n' ∉ encodeField field :=
    fun _ => notMem_encodeField (by decide)
  have hreturn : ∀ field : Text, '\r' ∉ field → '\r' ∉ encodeField field :=
    fun _ => notMem_encodeField (by decide)
  unfold Record.encode
  constructor
  · simp [hfeed _ ha, hfeed _ hq, hfeed _ hd]
  · simp [hreturn _ ha', hreturn _ hq', hreturn _ hd']

section Java
open JavaClientServer

theorem readLinesFrom_append {line : Text} (hn : '\n' ∉ line) (hr : '\r' ∉ line)
    (current : Option Text) (rest : Text) :
    readLinesFrom current (line ++ '\n' :: rest) =
      (current.getD [] ++ line) :: readLinesFrom none rest := by
  induction line generalizing current with
  | nil => rw [List.nil_append, List.append_nil, readLinesFrom]
  | cons c line ih =>
    obtain ⟨hc, hline⟩ := not_or.mp (List.mem_cons.not.mp hn)
    obtain ⟨hc', hline'⟩ := not_or.mp (List.mem_cons.not.mp hr)
    rw [List.cons_append, readLinesFrom_of_ne (Ne.symm hc) (Ne.symm hc'), ih hline hline']
    simp

theorem readLines_quotesText {records : List Record} (h : ∀ r ∈ records, r.Plain) :
    readLines (quotesText records) = records.map Record.encode := by
  unfold readLines
  induction records with
  | nil => rfl
  | cons record records ih =>
    obtain ⟨hrecord, hrecords⟩ := List.forall_mem_cons.mp h
    obtain ⟨hn, hr⟩ := hrecord.notMem_encode
    rw [quotesText_cons, readLinesFrom_append hn hr, ih hrecords]
    rfl

theorem parseLine_pendingFieldLine {static : Static} (h : static.Tidy) (line : Text) :
    (parseLine line static).2.pendingFieldLine = static.pendingFieldLine := by
  have hfeed := (Parser.static_feed (p := Parser.start static) h line).2
  rw [parseLine_eq]
  unfold Parser.finish
  split_ifs <;> exact hfeed

theorem step_encode {record : Record} (h : record.Plain) (result : List (List Text)) :
    Reader.step (result, Static.initial) record.encode =
      (result ++ [[record.author, record.quote, record.date]], Static.initial) := by
  have hcode : LineCode [record.author, record.quote, record.date] record.encode := by
    have hcons := LineCode.cons (CppClientServer.fieldCode_encodeField h.author_notMem)
      (.cons (CppClientServer.fieldCode_encodeField h.quote_notMem)
        (.last (CppClientServer.fieldCode_encodeField h.date_notMem)))
    simpa [Record.encode] using hcons
  have hfields := CppClientServer.parseLine_encode h
  have hclosed : (parseLine record.encode Static.initial).2.isMultiLine = false :=
    (parse_lineCode hcode []).2
  have hclean : Static.initial.Clean := fun _ => rfl
  have hpending := parseLine_pendingFieldLine hclean.tidy record.encode
  have hfield := parseLine_static hclean.tidy record.encode hclosed
  have hstatic : (parseLine record.encode Static.initial).2 = Static.initial := by
    rcases hresult : (parseLine record.encode Static.initial).2 with ⟨isMultiLine, field, line⟩
    rw [hresult] at hclosed hpending hfield
    subst hclosed hpending hfield
    rfl
  unfold Reader.step
  dsimp only
  rw [hfields, hstatic]
  rfl

theorem readFile_quotesText {records : List Record} (h : ∀ r ∈ records, r.Plain) :
    (readFile (quotesText records) Static.initial).1 =
      records.map fun r => [r.author, r.quote, r.date] := by
  have hfold : ∀ result, (records.map Record.encode).foldl Reader.step (result, Static.initial) =
      (result ++ records.map fun r => [r.author, r.quote, r.date], Static.initial) := by
    induction records with
    | nil => simp
    | cons record records ih =>
      obtain ⟨hrecord, hrecords⟩ := List.forall_mem_cons.mp h
      intro result
      rw [List.map_cons, List.foldl_cons, step_encode hrecord, ih hrecords, List.map_cons,
        List.append_assoc]
      rfl
  rw [readFile, readLines_quotesText h, readFileLines_eq, hfold]
  rfl

/-- In whatever order the workers and their clients take turns, each client of the Java
server has read the fields of the record drawn, each for its own request. -/
theorem java_clients_get_record {ι : Type*} [DecidableEq ι] (records : List Record)
    (hplain : ∀ r ∈ records, r.Plain) (key : ℕ) (record : Record)
    (hrecord : records[key]? = some record) (typed : ι → List Text) (x : ServerMain ι)
    (h : Reachable (ServerMain.Step (quotes (quotesText records) key)) (.start typed) x) :
    ∀ i, ∀ p ∈ (x.sessions i).answers, i ∈ x.accepted ∧
      p ∈ [(some ['Q'], record.quote), (some ['D'], record.date), (some ['A'], record.author),
        (some ['R'], "Quote: ".toList ++ record.quote ++ " Author: ".toList ++ record.author ++
          " Date: ".toList ++ record.date)] := by
  have hqotd : quotes (quotesText records) key =
      some [record.author, record.quote, record.date] := by
    rw [quotes, readFile_quotesText hplain, List.getElem?_map, hrecord]
    rfl
  rw [hqotd] at h
  rintro i ⟨request, text⟩ hp
  have haccepted : i ∈ x.accepted := by
    by_contra hnot
    rw [((ServerMain.accepting h).unserved i hnot).answers] at hp
    exact absurd hp List.not_mem_nil
  obtain ⟨request, rfl, hanswer⟩ :=
    (Session.truthful (ServerMain.session_reachable h i)).answers _ hp
  refine ⟨haccepted, ?_⟩
  have hmem := mem_requests_of_answer hanswer
  simp only [requests, List.mem_cons, List.not_mem_nil, or_false] at hmem ⊢
  rcases hmem with rfl | rfl | rfl | rfl
  · obtain rfl : record.quote = text := Option.some.inj hanswer
    exact .inl rfl
  · obtain rfl : record.date = text := Option.some.inj hanswer
    exact .inr (.inl rfl)
  · obtain rfl : record.author = text := Option.some.inj hanswer
    exact .inr (.inr (.inl rfl))
  · obtain rfl := Option.some.inj hanswer
    exact .inr (.inr (.inr rfl))

theorem java_clients_get_record_plainRecord : ∃ x : ServerMain Unit,
    (x.sessions ()).answers = [(some ['Q'], CppClientServer.plainRecord.quote)] ∧
      () ∈ x.accepted := by
  have hplain : ∀ r ∈ [CppClientServer.plainRecord], r.Plain := by decide
  have hqotd : quotes (quotesText [CppClientServer.plainRecord]) 0 =
      some [CppClientServer.plainRecord.author, CppClientServer.plainRecord.quote,
        CppClientServer.plainRecord.date] := by
    rw [quotes, readFile_quotesText hplain]
    rfl
  have hanswer : answer (quotes (quotesText [CppClientServer.plainRecord]) 0) ['Q'] =
      some CppClientServer.plainRecord.quote := by
    rw [hqotd]
    rfl
  have hreach := ServerMain.reach_answer (by decide) hanswer (by decide)
  have hget := java_clients_get_record _ hplain 0 _ rfl _ _ hreach () _
    (List.mem_singleton_self _)
  exact ⟨_, rfl, hget.1⟩

end Java

section Cpp
open CppClientServer

/-- A record the C++ reader can split: no comma but the two of the line. -/
structure Splittable (record : Record) : Prop where
  author : ',' ∉ record.author
  quote : ',' ∉ record.quote
  date : PlainDate record.date
  author_lt : record.author.length + 1 < 2 ^ 31
  quote_lt : record.quote.length + 1 < 2 ^ 31

theorem Splittable.encode {record : Record} (h : Splittable record) :
    record.encode = record.author ++ ',' :: (record.quote ++ ',' :: record.date) :=
  encode_of_notMem h.author h.quote h.date.comma

end Cpp

end Netsvc
