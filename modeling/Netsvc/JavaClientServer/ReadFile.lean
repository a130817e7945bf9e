import Netsvc.JavaClientServer.Parse

/-! `readFile` of `WOTD.java`: lines as `BufferedReader.readLine` delivers them,
each handed to the line parser, and the fields of a record that spans several
lines joined from `pendingFieldLine`. -/
namespace Netsvc.JavaClientServer

/-- The lines `BufferedReader.readLine` returns until it returns `null`, with
`current` the characters read since the last terminator. -/
def readLinesFrom (current : Option Text) : Text → List Text
  | [] => current.toList
  | '\n' :: rest => current.getD [] :: readLinesFrom none rest
  | '\r' :: '\n' :: rest => current.getD [] :: readLinesFrom none rest
  | '\r' :: rest => current.getD [] :: readLinesFrom none rest
  | c :: rest => readLinesFrom (some (current.getD [] ++ [c])) rest

def readLines (csvFile : Text) : List Text := readLinesFrom none csvFile

def joinArrays (array1 array2 : List Text) : List Text := array1 ++ array2

structure Reader where
  static : Static
  result : List (List Text)
  indexLine : Nat
  deriving DecidableEq, Repr

def Reader.start (static : Static) : Reader := ⟨static, [], 1⟩

/-- What `readFile` does with the fields `parseLine` returned for one line. -/
def Reader.addFields (r : Reader) (csvLineInArray : List Text) (static : Static) : Reader :=
  if static.isMultiLine then
    { r with static := { static with
        pendingFieldLine := joinArrays static.pendingFieldLine csvLineInArray } }
  else if static.pendingFieldLine.length > 0 then
    { r with
      result := r.result ++ [joinArrays static.pendingFieldLine csvLineInArray]
      static := { static with pendingFieldLine := [] } }
  else { r with result := r.result ++ [csvLineInArray], static := static }

def Reader.readLine (skipLine : Nat) (r : Reader) (line : Text) : Reader :=
  let next := { r with indexLine := r.indexLine + 1 }
  if r.indexLine ≤ skipLine then next
  else next.addFields (parseLine line r.static).1 (parseLine line r.static).2

def readFileLines (lines : List Text) (skipLine : Nat) (static : Static) :
    List (List Text) × Static :=
  let r := lines.foldl (Reader.readLine skipLine) (Reader.start static)
  (r.result, r.static)

def readFile (csvFile : Text) (static : Static) : List (List Text) × Static :=
  readFileLines (readLines csvFile) 0 static

/-- The reader without its line counter, which nothing reads when no line is skipped. -/
def Reader.step (state : List (List Text) × Static) (line : Text) : List (List Text) × Static :=
  let r := (Reader.mk state.2 state.1 1).addFields (parseLine line state.2).1
    (parseLine line state.2).2
  (r.result, r.static)

theorem Reader.addFields_indexLine (r : Reader) (n : Nat) (fields : List Text) (static : Static) :
    ({ r with indexLine := n }).addFields fields static =
      { r.addFields fields static with indexLine := n } := by
  simp only [Reader.addFields]
  split_ifs <;> rfl

theorem readFileLines_eq (lines : List Text) (static : Static) :
    readFileLines lines 0 static = lines.foldl Reader.step ([], static) := by
  suffices h : ∀ r : Reader, 0 < r.indexLine →
      let r' := lines.foldl (Reader.readLine 0) r
      (r'.result, r'.static) = lines.foldl Reader.step (r.result, r.static) from
    h (Reader.start static) Nat.one_pos
  intro r
  induction lines generalizing r with
  | nil => intro _; rfl
  | cons line lines ih =>
    intro hr
    have hskip : ¬r.indexLine ≤ 0 := by omega
    have hstep : (r.readLine 0 line).indexLine = r.indexLine + 1 ∧
        ((r.readLine 0 line).result, (r.readLine 0 line).static) =
          Reader.step (r.result, r.static) line := by
      simp only [Reader.readLine, hskip, ↓reduceIte, Reader.step]
      constructor
      · rw [Reader.addFields_indexLine]
      · simp only [Reader.addFields]
        split_ifs <;> rfl
    simp only [List.foldl_cons, ← hstep.2]
    exact ih _ (by omega)

end Netsvc.JavaClientServer
