import Netsvc.Library.Delimiter
import Netsvc.QuotesFile

/-! The reader of `csv.h`: `getline` into a block of memory, `strtok` with its hidden
pointer passed along, and one row of columns. A null pointer is `none`, any other is the
memory from it on, and the delimiter set of `strtok` is the one separator character. -/
namespace Netsvc.CClientServer
open Netsvc.Library

/-- The next line of a stream with its line feed, unless the stream has ended. -/
def getline (stream : Text) : Option (Text × Text) :=
  if stream = [] then none
  else
    let ended := (stream.dropWhile (· != '\n'))
    some (stream.takeWhile (· != '\n') ++ ended.take 1, ended.drop 1)

/-- The block after `getline` has written a line and its terminator into it. -/
def store (block : Option Text) (line : Text) : Text :=
  line ++ '\x00' :: (block.getD []).drop (line.length + 1)

/-- No delimiter set contains the terminator. -/
def isDelim (delim c : Char) : Bool := c == delim && c != '\x00'

def inToken (delim c : Char) : Bool := c != delim && c != '\x00'

/-- A delimiter behind a token is overwritten and passed, a terminator is not. -/
def passDelim (delim : Char) : Text → Text
  | [] => []
  | c :: rest => if isDelim delim c then rest else c :: rest

/-- `strtok`: the token, and the pointer it keeps for a null argument. The string ends
at the first NUL of the memory, or with it. -/
def strtok (delim : Char) (str : Option Text) (saved : Text) : Option Text × Text :=
  let start := (str.getD saved).dropWhile (isDelim delim)
  let token := start.takeWhile (inToken delim)
  if token = [] then (none, start)
  else (some token, passDelim delim (start.dropWhile (inToken delim)))

/-- `csv_t`, with the content of the file at its path. -/
structure Csv where
  file : Text
  separator : Char
  rows : Nat
  cols : Nat

/-- The stream and the block of `line` after `count` calls of `getline`, which leaves
both alone at the end of the file. -/
def skipLines : Nat → Text → Option Text → Text × Option Text
  | 0, stream, block => (stream, block)
  | count + 1, stream, block =>
      match getline stream with
      | some (line, stream) => skipLines count stream (some (store block line))
      | none => skipLines count stream block

/-- `cols` calls of `strtok`, the first on `line` and the others on null. -/
def splitColumns (separator : Char) : Nat → Option Text → Text → List (Option Text) × Text
  | 0, _, saved => ([], saved)
  | cols + 1, line, saved =>
      let (token, saved) := strtok separator line saved
      let (columns, saved) := splitColumns separator cols none saved
      (token :: columns, saved)

def readRowFromCsv (csv : Csv) (rowIndex : Nat) (saved : Text) :
    Option (List (Option Text)) × Text :=
  if rowIndex + 1 > csv.rows then (none, saved)
  else
    let (_, line) := skipLines rowIndex csv.file none
    let (strArr, saved) := splitColumns csv.separator csv.cols line saved
    (some strArr, saved)

def CsvStructure.author : Nat := 0
def CsvStructure.quote : Nat := 1
def CsvStructure.date : Nat := 2

/-- `format_author` and `format_date` are the same call of `strtok`. -/
def formatAuthor (author : Option Text) (saved : Text) : Option Text × Text :=
  strtok ',' author saved

def formatDate (date : Option Text) (saved : Text) : Option Text × Text :=
  strtok ',' date saved

theorem inToken_iff {delim c : Char} : inToken delim c = true ↔ c ≠ delim ∧ c ≠ '\x00' := by
  simp [inToken]

theorem isDelim_iff {delim c : Char} : isDelim delim c = true ↔ c = delim ∧ c ≠ '\x00' := by
  simp [isDelim]

section Token
variable {delim : Char} {str : Option Text} {saved token : Text}

theorem all_inToken (h : delim ∉ token) (hnul : '\x00' ∉ token) :
    ∀ c ∈ token, inToken delim c = true := by
  intro c hc
  refine inToken_iff.mpr ⟨?_, ?_⟩
  · rintro rfl
    exact h hc
  · rintro rfl
    exact hnul hc

theorem strtok_inToken (h : (strtok delim str saved).1 = some token) :
    ∀ c ∈ token, c ≠ delim ∧ c ≠ '\x00' := by
  unfold strtok at h
  dsimp only at h
  split_ifs at h
  cases h
  intro c hc
  exact inToken_iff.mp (List.mem_takeWhile_imp hc)

theorem strtok_token_notMem (h : (strtok delim str saved).1 = some token) : delim ∉ token :=
  fun hmem => (strtok_inToken h delim hmem).1 rfl

theorem strtok_nul_notMem (h : (strtok delim str saved).1 = some token) : '\x00' ∉ token :=
  fun hmem => (strtok_inToken h '\x00' hmem).2 rfl

theorem strtok_of_token (rest saved : Text) (hne : token ≠ []) (h : delim ∉ token)
    (hnul : '\x00' ∉ token) (hrest : ∀ c ∈ rest.head?, inToken delim c = false) :
    strtok delim (some (token ++ rest)) saved = (some token, passDelim delim rest) := by
  have hall := all_inToken h hnul
  obtain ⟨c, left, rfl⟩ := List.exists_cons_of_ne_nil hne
  have hc : isDelim delim c = false := by
    have hfirst := inToken_iff.mp (hall c List.mem_cons_self)
    simp [isDelim, hfirst.1]
  have hstart : ((c :: left) ++ rest).dropWhile (isDelim delim) = (c :: left) ++ rest := by
    rw [List.cons_append, List.dropWhile_cons_of_neg (by simp [hc])]
  have htake : rest.takeWhile (inToken delim) = [] := by
    cases rest with
    | nil => rfl
    | cons d rest => exact List.takeWhile_cons_of_neg (by simp [hrest d rfl])
  have hdrop : rest.dropWhile (inToken delim) = rest := by
    cases rest with
    | nil => rfl
    | cons d rest => exact List.dropWhile_cons_of_neg (by simp [hrest d rfl])
  simp only [strtok, Option.getD_some, hstart]
  rw [List.takeWhile_append_of_pos hall, List.dropWhile_append_of_pos hall, htake, hdrop,
    List.append_nil, if_neg hne]

theorem strtok_append (saved : Text) (hdelim : delim ≠ '\x00') (hne : token ≠ [])
    (h : delim ∉ token) (hnul : '\x00' ∉ token) (rest : Text) :
    strtok delim (some (token ++ delim :: rest)) saved = (some token, rest) := by
  rw [strtok_of_token (delim :: rest) saved hne h hnul (by simp [inToken]), passDelim,
    if_pos (isDelim_iff.mpr ⟨rfl, hdelim⟩)]

theorem strtok_last (saved : Text) (hne : token ≠ []) (h : delim ∉ token)
    (hnul : '\x00' ∉ token) : strtok delim (some token) saved = (some token, []) := by
  have hlast := strtok_of_token [] saved hne h hnul (by simp)
  rwa [List.append_nil] at hlast

theorem strtok_cons_delim (hdelim : delim ≠ '\x00') (text saved : Text) :
    strtok delim (some (delim :: text)) saved = strtok delim (some text) saved := by
  simp [strtok, isDelim, hdelim]

theorem strtok_none (delim : Char) (saved : Text) :
    strtok delim none saved = strtok delim (some saved) saved := rfl

end Token

section Terminated
variable (delim : Char) (text behind : Text)

theorem dropWhile_terminated {p : Char → Bool} (hp : p '\x00' = false) :
    (text ++ '\x00' :: behind).dropWhile p = text.dropWhile p ++ '\x00' :: behind := by
  induction text with
  | nil => exact List.dropWhile_cons_of_neg (by simp [hp])
  | cons c text ih =>
    rw [List.cons_append, List.dropWhile_cons, List.dropWhile_cons]
    split
    · exact ih
    · rfl

theorem takeWhile_terminated {p : Char → Bool} (hp : p '\x00' = false) :
    (text ++ '\x00' :: behind).takeWhile p = text.takeWhile p := by
  induction text with
  | nil => exact List.takeWhile_cons_of_neg (by simp [hp])
  | cons c text ih =>
    rw [List.cons_append, List.takeWhile_cons, List.takeWhile_cons, ih]

theorem passDelim_terminated :
    passDelim delim (text ++ '\x00' :: behind) = passDelim delim text ++ '\x00' :: behind := by
  cases text with
  | nil => simp [passDelim, isDelim]
  | cons c text =>
    rw [List.cons_append, passDelim, passDelim]
    split <;> rfl

theorem strtok_terminated (saved : Text) :
    strtok delim (some (text ++ '\x00' :: behind)) saved =
      ((strtok delim (some text) saved).1,
        (strtok delim (some text) saved).2 ++ '\x00' :: behind) := by
  have hdelim : isDelim delim '\x00' = false := by simp [isDelim]
  have htoken : inToken delim '\x00' = false := by simp [inToken]
  simp only [strtok, Option.getD_some, dropWhile_terminated _ _ hdelim,
    takeWhile_terminated _ _ htoken, dropWhile_terminated _ _ htoken, passDelim_terminated]
  split <;> rfl

end Terminated

theorem getline_append {line : Text} (h : '\n' ∉ line) (rest : Text) :
    getline (line ++ '\n' :: rest) = some (line ++ ['\n'], rest) := by
  simp only [getline]
  rw [if_neg (by simp), Delimiter.takeWhile_append h, Delimiter.dropWhile_append h]
  rfl

end Netsvc.CClientServer
