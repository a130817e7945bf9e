import Netsvc.CClientServer.Csv
import Netsvc.Library.Unfold

/-! `csv_init` of `csv.h`, and the line each row of `read_row_from_csv` is read from. -/
namespace Netsvc.CClientServer
open Netsvc.Library Netsvc.Library.Unfold

def nextToken (separator : Char) (saved : Text) : Option (Text × Text) :=
  match strtok separator none saved with
  | (some token, saved) => some (token, saved)
  | (none, _) => none

def tokens (separator : Char) (str : Text) : List Text :=
  collect (nextToken separator) str.length str

def linesOf (file : Text) : List Text := collect getline file.length file

/-- The loop that counts the columns: how many calls of `strtok` return a token, and the
pointer the last call keeps. -/
def countColumns (separator : Char) : Nat → Text → Nat × Text
  | 0, saved => (0, saved)
  | fuel + 1, saved =>
      match strtok separator none saved with
      | (some _, saved) =>
          let (count, saved) := countColumns separator fuel saved
          (count + 1, saved)
      | (none, saved) => (0, saved)

def storeLines (lines : List Text) (block : Option Text) : Option Text :=
  lines.foldl (fun block line => some (store block line)) block

def orComma (separator : Char) : Char := if separator = '\x00' then ',' else separator

/-- The table, and what the pointer `strtok` has kept points to when the block of `line`
is freed: it is the end of the first line, over which later lines have been written. -/
def csvInit (file : Text) (separator : Char) : Csv × Text :=
  let (stream, line) := skipLines 1 file none
  let (_, saved) := strtok separator line []
  let (count, saved) := countColumns separator (saved.length + 1) saved
  let block := storeLines (linesOf stream) line
  ({ file := file
     separator := orComma separator
     rows := 1 + (linesOf stream).length
     cols := 1 + count }, (block.getD []).drop ((line.getD []).length - saved.length))

theorem dropWhile_dropWhile {p q : Char → Bool} (h : ∀ c, p c = true → q c = true)
    (text : Text) : (text.dropWhile p).dropWhile q = text.dropWhile q := by
  induction text with
  | nil => rfl
  | cons c text ih =>
    by_cases hc : p c = true
    · rw [List.dropWhile_cons_of_pos hc, ih, List.dropWhile_cons_of_pos (h c hc)]
    · rw [List.dropWhile_cons_of_neg hc]

theorem length_drop_dropWhile_lt {text : Text} (h : text ≠ []) (p : Char → Bool) :
    ((text.dropWhile p).drop 1).length < text.length := by
  have hle : (text.dropWhile p).length ≤ text.length := (List.dropWhile_sublist p).length_le
  have hpos := List.length_pos_iff.mpr h
  rw [List.length_drop]
  omega

theorem shrinks_getline : Shrinks getline List.length := by
  intro stream line rest h
  unfold getline at h
  split_ifs at h with hempty
  cases h
  exact length_drop_dropWhile_lt hempty _

theorem nextToken_eq_some {separator : Char} {saved token rest : Text} :
    nextToken separator saved = some (token, rest) ↔
      strtok separator none saved = (some token, rest) := by
  unfold nextToken
  rcases strtok separator none saved with ⟨_ | token, rest⟩ <;> simp

theorem length_passDelim_le (delim : Char) (text : Text) :
    (passDelim delim text).length ≤ text.length := by
  cases text with
  | nil => exact Nat.le_refl _
  | cons c text =>
    rw [passDelim]
    split
    · exact Nat.le_succ _
    · exact Nat.le_refl _

theorem shrinks_nextToken (separator : Char) : Shrinks (nextToken separator) List.length := by
  intro saved token rest h
  have htoken := nextToken_eq_some.mp h
  unfold strtok at htoken
  dsimp only [Option.getD_none] at htoken
  split_ifs at htoken with hempty
  · cases htoken
  · cases htoken
    have hstart := (List.dropWhile_sublist (isDelim separator) (l := saved)).length_le
    have hpos := List.length_pos_iff.mpr hempty
    have hsplit := congrArg List.length (List.takeWhile_append_dropWhile
      (p := inToken separator) (l := saved.dropWhile (isDelim separator)))
    have hpass := length_passDelim_le separator
      ((saved.dropWhile (isDelim separator)).dropWhile (inToken separator))
    rw [List.length_append] at hsplit
    omega

section Tokens
variable {separator : Char} {str token rest saved : Text}

theorem tokens_of_some (h : strtok separator (some str) saved = (some token, rest)) :
    tokens separator str = token :: tokens separator rest :=
  collect_of_some (shrinks_nextToken separator) (nextToken_eq_some.mpr h)

theorem tokens_of_none (h : (strtok separator (some str) saved).1 = none) :
    tokens separator str = [] := by
  apply collect_of_none
  unfold nextToken
  change (strtok separator none str).1 = none at h
  rcases hstr : strtok separator none str with ⟨_ | token, rest⟩
  · rfl
  · rw [hstr] at h
    cases h

theorem tokens_nil (separator : Char) : tokens separator [] = [] := rfl

theorem dropWhile_nul_passDelim (separator : Char) (text : Text) :
    (passDelim separator text).dropWhile (· != '\x00') = text.dropWhile (· != '\x00') := by
  cases text with
  | nil => rfl
  | cons c text =>
    rw [passDelim]
    split_ifs with hc
    · rw [List.dropWhile_cons_of_pos (by simp [(isDelim_iff.mp hc).2])]
    · rfl

/-- The pointer stays in the string, up to its terminator. -/
theorem dropWhile_nul_strtok (separator : Char) (str saved : Text) :
    (strtok separator (some str) saved).2.dropWhile (· != '\x00') =
      str.dropWhile (· != '\x00') := by
  have hdelim : ∀ c, isDelim separator c = true → (c != '\x00') = true :=
    fun c hc => by simp [(isDelim_iff.mp hc).2]
  have htoken : ∀ c, inToken separator c = true → (c != '\x00') = true :=
    fun c hc => by simp [(inToken_iff.mp hc).2]
  unfold strtok
  dsimp only
  split_ifs
  · exact dropWhile_dropWhile hdelim _
  · rw [dropWhile_nul_passDelim, dropWhile_dropWhile htoken, Option.getD_some,
      dropWhile_dropWhile hdelim]

theorem strtok_rest_of_none (h : (strtok separator (some str) saved).1 = none) :
    (strtok separator (some str) saved).2 = str.dropWhile (· != '\x00') := by
  rw [← dropWhile_nul_strtok separator str saved]
  unfold strtok at h ⊢
  dsimp only at h ⊢
  split_ifs at h ⊢ with hempty
  rcases hstart : (Option.getD (some str) saved).dropWhile (isDelim separator) with _ | ⟨c, start⟩
  · rfl
  · have hdelim : ¬isDelim separator c = true := by
      have hhead := List.head?_dropWhile_not (isDelim separator) (Option.getD (some str) saved)
      rw [hstart] at hhead
      simpa using hhead
    have htoken : ¬inToken separator c = true := by
      intro hc
      rw [hstart, List.takeWhile_cons_of_pos hc] at hempty
      cases hempty
    have hc : c = '\x00' := by
      by_contra hne
      by_cases heq : c = separator
      · exact hdelim (isDelim_iff.mpr ⟨heq, hne⟩)
      · exact htoken (inToken_iff.mpr ⟨heq, hne⟩)
    rw [List.dropWhile_cons_of_neg (by simp [hc])]

theorem tokens_nul_cons (separator : Char) (behind : Text) :
    tokens separator ('\x00' :: behind) = [] := by
  have hstr : (strtok separator (some ('\x00' :: behind)) []).1 = none := by
    simp [strtok, isDelim, inToken]
  exact tokens_of_none hstr

theorem tokens_dropWhile_nul (separator : Char) (str : Text) :
    tokens separator (str.dropWhile (· != '\x00')) = [] := by
  rcases hend : str.dropWhile (· != '\x00') with _ | ⟨c, behind⟩
  · rfl
  · have hc := List.head?_dropWhile_not (· != '\x00') str
    rw [hend] at hc
    obtain rfl : c = '\x00' := by simpa using hc
    exact tokens_nul_cons separator behind

theorem tokens_terminated (separator : Char) (text behind : Text) :
    tokens separator (text ++ '\x00' :: behind) = tokens separator text := by
  induction hn : text.length using Nat.strong_induction_on generalizing text with
  | _ n ih =>
    have hstr := strtok_terminated separator text behind []
    rcases htext : strtok separator (some text) [] with ⟨_ | token, rest⟩
    · rw [tokens_of_none (congrArg Prod.fst htext)]
      rw [htext] at hstr
      exact tokens_of_none (congrArg Prod.fst hstr)
    · rw [htext] at hstr
      have hlt := shrinks_nextToken separator text token rest (nextToken_eq_some.mpr htext)
      rw [tokens_of_some hstr, tokens_of_some htext, ih rest.length (hn ▸ hlt) rest rfl]

theorem countColumns_eq {fuel : Nat} (h : saved.length < fuel) :
    countColumns separator fuel saved =
      ((tokens separator saved).length, saved.dropWhile (· != '\x00')) := by
  induction fuel generalizing saved with
  | zero => exact absurd h (Nat.not_lt_zero _)
  | succ fuel ih =>
    rw [countColumns]
    rcases hstr : strtok separator none saved with ⟨_ | token, rest⟩
    · have hnone : (strtok separator (some saved) saved).1 = none := congrArg Prod.fst hstr
      have hrest := strtok_rest_of_none hnone
      rw [← strtok_none, hstr] at hrest
      dsimp only at hrest ⊢
      rw [tokens_of_none hnone, hrest, List.length_nil]
    · have hlt := shrinks_nextToken separator saved token rest (nextToken_eq_some.mpr hstr)
      have hend := dropWhile_nul_strtok separator saved saved
      rw [← strtok_none, hstr] at hend
      dsimp only at hend ⊢
      have hsome : strtok separator (some saved) saved = (some token, rest) := hstr
      have htokens := tokens_of_some hsome
      rw [ih (by omega), htokens, hend, List.length_cons]

end Tokens

def columns (separator : Char) (cols : Nat) (line : Text) : List (Option Text) :=
  (List.range cols).map fun c => (tokens separator line)[c]?

theorem columns_succ (separator : Char) (cols : Nat) (line : Text) :
    columns separator (cols + 1) line = (tokens separator line)[0]? ::
      (List.range cols).map fun c => (tokens separator line)[c + 1]? := by
  unfold columns
  rw [List.range_succ_eq_map, List.map_cons, List.map_map]
  rfl

theorem splitColumns_none (separator : Char) (cols : Nat) (saved : Text) :
    splitColumns separator cols none saved = splitColumns separator cols (some saved) saved := by
  cases cols <;> rfl

theorem splitColumns_eq (separator : Char) (cols : Nat) (line saved : Text) :
    (splitColumns separator cols (some line) saved).1 = columns separator cols line := by
  induction cols generalizing line saved with
  | zero => rfl
  | succ cols ih =>
    rw [columns_succ, splitColumns]
    rcases hstr : strtok separator (some line) saved with ⟨_ | token, rest⟩
    · have htokens := tokens_of_none (congrArg Prod.fst hstr)
      have hrest := strtok_rest_of_none (congrArg Prod.fst hstr)
      rw [hstr] at hrest
      dsimp only at hrest ⊢
      rw [splitColumns_none, ih, hrest, columns, tokens_dropWhile_nul, htokens]
      rfl
    · have htokens := tokens_of_some hstr
      dsimp only
      rw [splitColumns_none, ih, htokens]
      rfl

section Lines
variable {file stream line rest : Text} {block : Option Text}

theorem linesOf_of_some (h : getline stream = some (line, rest)) :
    linesOf stream = line :: linesOf rest :=
  collect_of_some shrinks_getline h

theorem linesOf_of_none (h : getline stream = none) : linesOf stream = [] :=
  collect_of_none h _

theorem exists_getline {i : Nat} (h : (linesOf stream)[i]? = some line) :
    ∃ first rest, getline stream = some (first, rest) ∧
      linesOf stream = first :: linesOf rest := by
  rcases hget : getline stream with _ | ⟨first, rest⟩
  · rw [linesOf_of_none hget] at h
    cases h
  · exact ⟨first, rest, rfl, linesOf_of_some hget⟩

theorem skipLines_getElem? {i : Nat} (h : (linesOf stream)[i]? = some line) :
    ∃ behind, (skipLines (i + 1) stream block).2 = some (line ++ '\x00' :: behind) := by
  induction i generalizing stream block with
  | zero =>
    obtain ⟨first, rest, hget, hlines⟩ := exists_getline h
    rw [hlines] at h
    obtain rfl := Option.some.inj h
    exact ⟨(block.getD []).drop (first.length + 1), by simp only [skipLines, hget, store]⟩
  | succ i ih =>
    obtain ⟨first, rest, hget, hlines⟩ := exists_getline h
    rw [hlines] at h
    rw [skipLines]
    simp only [hget]
    exact ih h

theorem getline_isSome (h : file ≠ []) : ∃ first rest, getline file = some (first, rest) := by
  unfold getline
  rw [if_neg h]
  exact ⟨_, _, rfl⟩

/-- Only the empty file has no line. -/
theorem exists_linesOf (h : file ≠ []) : ∃ first later, linesOf file = first :: later := by
  obtain ⟨first, rest, hget⟩ := getline_isSome h
  exact ⟨first, linesOf rest, linesOf_of_some hget⟩

theorem csvInit_rows (file : Text) (separator : Char) :
    (csvInit file separator).1.rows = max 1 (linesOf file).length := by
  rcases hget : getline file with _ | ⟨first, rest⟩
  · have hfile : file = [] := by
      by_contra hne
      obtain ⟨first, rest, hsome⟩ := getline_isSome hne
      rw [hget] at hsome
      cases hsome
    subst hfile
    rfl
  · rw [linesOf_of_some hget, List.length_cons]
    simp only [csvInit, skipLines, hget]
    omega

/-- What is left behind where the first line has ended, when all lines have been written. -/
def leftBehind : List Text → Text
  | [] => []
  | first :: later => ((storeLines (first :: later) none).getD []).drop
      (first.takeWhile (· != '\x00')).length

theorem length_takeWhile_add_dropWhile (p : Char → Bool) (text : Text) :
    (text.takeWhile p).length + (text.dropWhile p).length = text.length := by
  rw [← List.length_append, List.takeWhile_append_dropWhile]

/-- `cols` counts the tokens of the first line, but a line without tokens has a column too. -/
theorem csvInit_eq {first : Text} {later : List Text} (separator : Char)
    (h : linesOf file = first :: later) :
    csvInit file separator =
      ({ file := file
         separator := orComma separator
         rows := 1 + later.length
         cols := max 1 (tokens separator first).length }, leftBehind (first :: later)) := by
  obtain ⟨line, rest, hget, hlines⟩ : ∃ line rest, getline file = some (line, rest) ∧
      linesOf file = line :: linesOf rest := @exists_getline file first 0 (by rw [h]; rfl)
  obtain ⟨rfl, rfl⟩ := List.cons.inj (h.symm.trans hlines)
  have hblock : store none first = first ++ '\x00' :: [] := by simp [store]
  have hend := dropWhile_nul_strtok separator (store none first) []
  have hlength := length_takeWhile_add_dropWhile (· != '\x00') (store none first)
  rw [hblock, takeWhile_terminated _ _ (by simp)] at hlength
  have hposition : (first ++ ['\x00']).length -
      ((first ++ ['\x00']).dropWhile (· != '\x00')).length =
        (first.takeWhile (· != '\x00')).length := by omega
  have hcols : 1 + (tokens separator (strtok separator (some (store none first)) []).2).length =
      max 1 (tokens separator first).length := by
    rw [← tokens_terminated separator first [], ← hblock]
    rcases hstr : strtok separator (some (store none first)) [] with ⟨_ | token, saved⟩
    · have hsaved := strtok_rest_of_none (congrArg Prod.fst hstr)
      rw [hstr] at hsaved
      dsimp only at hsaved ⊢
      rw [hsaved, tokens_dropWhile_nul, tokens_of_none (congrArg Prod.fst hstr)]
      rfl
    · rw [tokens_of_some hstr, List.length_cons]
      dsimp only
      omega
  simp only [csvInit, skipLines, hget, countColumns_eq (Nat.lt_succ_self _), hend, hcols,
    Option.getD_some]
  rw [hblock, hposition]
  rfl

end Lines

section Read
variable {csv : Csv} {line saved : Text}

theorem readRowFromCsv_succ {i : Nat} (hline : (linesOf csv.file)[i]? = some line)
    (hrows : i + 1 < csv.rows) :
    (readRowFromCsv csv (i + 1) saved).1 = some (columns csv.separator csv.cols line) := by
  obtain ⟨behind, hskip⟩ := @skipLines_getElem? csv.file line none i hline
  unfold readRowFromCsv
  rw [if_neg (by omega)]
  simp only [hskip, splitColumns_eq, columns, tokens_terminated]

theorem readRowFromCsv_zero (hrows : 1 ≤ csv.rows) :
    (readRowFromCsv csv 0 saved).1 = some (columns csv.separator csv.cols saved) := by
  unfold readRowFromCsv
  rw [if_neg (by omega)]
  simp only [skipLines, splitColumns_none, splitColumns_eq]

end Read

end Netsvc.CClientServer
