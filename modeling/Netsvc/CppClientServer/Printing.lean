import Netsvc.CppClientServer.Children

/-! What the client of `client_server.cpp` prints for a reply. It fills a `Quote` of its
own, and for `r` splits the line it has read once more. -/
namespace Netsvc.CppClientServer
open Netsvc.Library.Transition

variable {arr : Fin maxQuotes → Text} {first : Fin maxQuotes}

def Quote.empty : Quote := ⟨[], [], []⟩

def Quote.printName (q : Quote) : Text := "Author: ".toList ++ q.name ++ ['\n']
def Quote.printQuote (q : Quote) : Text := "Quote: ".toList ++ q.quote ++ ['\n']
def Quote.printDate (q : Quote) : Text := "Date: ".toList ++ q.date ++ ['\n']

def Quote.toString (q : Quote) : Text :=
  "Author: ".toList ++ q.name ++ "\nQuote: ".toList ++ q.quote ++ "\nDate: ".toList ++ q.date ++
    ['\n']

/-- The chain of comparisons behind `read_data` in the client. -/
def printed (fuel : Nat) (dataAsk readQuote : Text) : Except Fault Text :=
  if dataAsk = ['q'] then .ok { Quote.empty with quote := readQuote }.printQuote
  else if dataAsk = ['d'] then .ok { Quote.empty with date := readQuote }.printDate
  else if dataAsk = ['a'] then .ok { Quote.empty with name := readQuote }.printName
  else if dataAsk = ['r'] then do
    let quote ← stringToQuote fuel readQuote
    pure quote.toString
  else if dataAsk = ['n'] then .ok (readQuote ++ ['\n'])
  else .ok []

/-- What a request is meant to show of a quote: `r` shows what `a`, `q` and `d` show. -/
def Quote.shown (q : Quote) (dataAsk : Text) : Text :=
  if dataAsk = ['q'] then q.printQuote
  else if dataAsk = ['d'] then q.printDate
  else if dataAsk = ['a'] then q.printName
  else if dataAsk = ['r'] then q.printName ++ q.printQuote ++ q.printDate
  else if dataAsk = ['n'] then newQuoteSelected ++ ['\n']
  else []

theorem Quote.toString_eq (q : Quote) :
    q.toString = q.printName ++ q.printQuote ++ q.printDate := by
  have hquote : "\nQuote: ".toList = '\n' :: "Quote: ".toList := by decide
  have hdate : "\nDate: ".toList = '\n' :: "Date: ".toList := by decide
  unfold Quote.toString Quote.printName Quote.printQuote Quote.printDate
  rw [hquote, hdate]
  simp only [List.append_assoc, List.cons_append, List.nil_append]

theorem printed_reply {fuel : ℕ} {line dataAsk text : Text} {quote : Quote}
    (hquote : stringToQuote fuel line = .ok quote) (hreply : reply line quote dataAsk = some text) :
    printed fuel dataAsk text = .ok (quote.shown dataAsk) := by
  unfold reply at hreply
  unfold printed Quote.shown
  split_ifs at hreply ⊢ with hq hd ha hr hn he
  · obtain rfl := Option.some.inj hreply
    rfl
  · obtain rfl := Option.some.inj hreply
    rfl
  · obtain rfl := Option.some.inj hreply
    rfl
  · obtain rfl := Option.some.inj hreply
    rw [hquote, ← Quote.toString_eq]
    rfl
  · obtain rfl := Option.some.inj hreply
    rfl
  · rfl

theorem Serves.splits_last {asked replies : List Text} {pick : Fin maxQuotes} {text : Text}
    (h : Serves arr first asked replies pick) (hasked : asked.getLast? = some ['r'])
    (hreplies : replies.getLast? = some text) : Splits text := by
  cases h with
  | start => cases hasked
  | @answer asked replies pick next fuel quote dataAsk reply before hquote _ hreply =>
    rw [List.getLast?_concat] at hasked hreplies
    obtain rfl := Option.some.inj hasked
    obtain rfl := Option.some.inj hreplies
    obtain rfl : arr pick = reply := Option.some.inj hreply
    exact ⟨fuel, quote, hquote⟩

theorem Session.Invariant.splits_printing {s : Session} (h : s.Invariant arr first)
    (hcurrent : s.Current) {readQuote : Text} (hc : s.client = .printing ['r'] readQuote) :
    Splits readQuote := by
  obtain ⟨hasked, hread⟩ := hcurrent.printing _ _ hc
  simp only [Session.Invariant, hc] at h
  exact h.1.serves.splits_last hasked (h.1.obtained ▸ hread)

theorem Session.Invariant.not_abort {s t : Session} (h : s.Invariant arr first)
    (hcurrent : s.Current) : ¬Session.Step arr s .abort t := by
  intro habort
  cases habort with
  | abort hc hfault hne =>
    obtain ⟨fuel, quote, hquote⟩ := h.splits_printing hcurrent hc
    have hsame :=
      stringToQuote_unique (by rw [hquote]; nofun) (by rw [hfault]; simpa using hne)
    rw [hquote, hfault] at hsame
    cases hsame

/-- While all replies arrive whole, no client fails to split what it has read, and each
prints its part of the quote drawn last before its request. -/
theorem clients_print_quotes {ι : Type*} [DecidableEq ι] (arr : Fin maxQuotes → Text)
    (first : Fin maxQuotes) (draws : ℕ → Fin maxQuotes) (typed : ι → List Text) (x : Server ι)
    (h : Reachable (Server.GoodStep arr draws) (.start first typed) x) (i : ι)
    (dataAsk readQuote : Text)
    (hc : (x.conversations i).session.client = .printing dataAsk readQuote) :
    let s := (x.conversations i).session
    (∃ fuel quote,
      stringToQuote fuel (arr ((Child.start first draws s.issued).pick (s.issued.length - 1))) =
        .ok quote ∧
      printed fuel dataAsk readQuote = .ok (quote.shown dataAsk)) ∧
    ∀ t, ¬Session.Step arr s .abort t := by
  intro s
  obtain ⟨hinv, -, hcurrent⟩ := Server.recorded h i
  have hnone : ∀ t, ¬Session.Step arr s .abort t := fun _ => hinv.not_abort hcurrent
  obtain ⟨hasked, hread⟩ := hcurrent.printing dataAsk readQuote hc
  simp only [Session.Invariant, hc] at hinv
  have hlength : s.obtained.length = s.issued.length :=
    hinv.1.obtained ▸ hinv.1.serves.length_eq
  rw [List.getLast?_eq_getElem?] at hasked hread
  rw [hlength] at hread
  obtain ⟨dataAsk', fuel, quote, hget, hquote, hreply⟩ := Server.told h i hread
  obtain rfl : dataAsk = dataAsk' := Option.some.inj (hasked.symm.trans hget)
  exact ⟨⟨fuel, quote, hquote, printed_reply hquote hreply⟩, hnone⟩

theorem clients_print_quotes_all :
    ∃ fuel quote, stringToQuote fuel "a,b,c".toList = .ok quote ∧
      printed fuel ['r'] "a,b,c".toList = .ok (quote.shown ['r']) := by
  let arr : Fin maxQuotes → Text := fun _ => "a,b,c".toList
  have hquote : stringToQuote 1 (arr ⟨0, by decide⟩) = .ok ⟨['a'], ['b'], ['c']⟩ := by decide
  have hreach := Server.reach_printing (fun _ => ⟨7, by decide⟩) hquote (by decide) (by decide)
  exact (clients_print_quotes _ _ _ _ _ hreach () ['r'] _ rfl).1

end Netsvc.CppClientServer
