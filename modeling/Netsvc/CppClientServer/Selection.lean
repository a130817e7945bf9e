import Netsvc.CppClientServer.Session
import Netsvc.JavaClientServer.Selection
import Netsvc.Library.Delimiter
import Netsvc.Library.Unfold

/-! The table `arr` of `client_server.cpp` and the pick of the server, next to
the map and the key of the Java server. -/
namespace Netsvc.CppClientServer
open Netsvc.Library.Delimiter Netsvc.Library.Transition Netsvc.Library.Unfold

/-- `getline` on an `ifstream`, while its end-of-file bit is not set: the line, or
`none` when there was nothing to read, and the stream with its bit. -/
def getline (stream : Text) : Option Text × Text × Bool :=
  match stream.dropWhile (· != '\n') with
  | [] => (if stream = [] then none else some stream, [], true)
  | _ :: rest => (some (stream.takeWhile (· != '\n')), rest, false)

def loadLine : Text × Bool → Option (Option Text × Text × Bool)
  | (_, true) => none
  | (stream, false) => some (getline stream)

/-- What the loop stores at the indexes from 0 on. After a `getline` that read
nothing, `line` is empty. -/
def stored (file : Text) : List (Option Text) := collect loadLine (file.length + 1) (file, false)

def arr (file : Text) (index : Fin maxQuotes) : Text := ((stored file)[index]?.join).getD []

def streamSize : Text × Bool → Nat
  | (_, true) => 0
  | (stream, false) => stream.length + 1

theorem getline_append {line : Text} (h : '\n' ∉ line) (rest : Text) :
    getline (line ++ '\n' :: rest) = (some line, rest, false) := by
  unfold getline
  rw [dropWhile_append h, takeWhile_append h]

theorem getline_last {stream : Text} (h : '\n' ∉ stream) :
    getline stream = (if stream = [] then none else some stream, [], true) := by
  unfold getline
  rw [dropWhile_of_notMem h]

theorem shrinks_loadLine : Shrinks loadLine streamSize := by
  rintro ⟨stream, eof⟩ line ⟨rest, eof'⟩ h
  cases eof with
  | true => cases h
  | false =>
    have hget : getline stream = (line, rest, eof') := Option.some.inj h
    by_cases hmem : '\n' ∈ stream
    · obtain ⟨first, rest', rfl, hfirst⟩ := List.eq_append_cons_of_mem hmem
      rw [getline_append hfirst] at hget
      cases hget
      simp only [streamSize, List.length_append, List.length_cons]
      omega
    · rw [getline_last hmem] at hget
      cases hget
      exact Nat.succ_pos _

theorem loadLine_of_getline {stream rest : Text} {line : Option Text} {eof : Bool}
    (h : getline stream = (line, rest, eof)) : loadLine (stream, false) = some (line, rest, eof) :=
  congrArg some h

theorem stored_append {line : Text} (h : '\n' ∉ line) (rest : Text) :
    stored (line ++ '\n' :: rest) = some line :: stored rest :=
  collect_of_some shrinks_loadLine (loadLine_of_getline (getline_append h rest))

theorem stored_last {file : Text} (h : '\n' ∉ file) :
    stored file = [if file = [] then none else some file] :=
  collect_of_some shrinks_loadLine (loadLine_of_getline (getline_last h))

theorem length_stored (file : Text) : (stored file).length = file.count '\n' + 1 := by
  induction file using pieces_induction '\n' with
  | last file h => rw [stored_last h, List.count_eq_zero_of_not_mem h]; rfl
  | piece line rest h ih =>
    rw [stored_append h, List.length_cons, ih, List.count_append, List.count_cons_self,
      List.count_eq_zero_of_not_mem h, Nat.zero_add]

theorem none_mem_stored_iff (file : Text) :
    none ∈ stored file ↔ file = [] ∨ file.getLast? = some '\n' := by
  induction file using pieces_induction '\n' with
  | last file h =>
    have hlast : file.getLast? ≠ some '\n' := fun hlast => h (List.mem_of_getLast? hlast)
    rw [stored_last h]
    split_ifs with hempty <;> simp [hempty, hlast]
  | piece line rest h ih =>
    rw [stored_append h, List.mem_cons, or_iff_right (by simp), ih]
    cases rest with
    | nil => simp
    | cons c rest => simp [List.getLast?_cons_cons]

/-- Loading stays inside the table, and in every state of a session the pick is
an entry that a line was read into. -/
structure PicksLine (file : Text) : Prop where
  inside : ∀ index < (stored file).length, index < maxQuotes
  pick : ∀ first typed s, Reachable (Session.Step (arr file)) (Session.start first typed) s →
    ∃ line, (stored file)[s.random.val]? = some (some line)

theorem picksLine_iff (file : Text) :
    PicksLine file ↔ file.count '\n' + 1 = maxQuotes ∧ file.getLast? ≠ some '\n' := by
  rw [← length_stored]
  constructor
  · intro h
    have hpick : ∀ random < maxQuotes, ∃ line, (stored file)[random]? = some (some line) :=
      fun random hrandom => h.pick ⟨random, hrandom⟩ [] _ (.refl _)
    have hinside := h.inside ((stored file).length - 1)
    obtain ⟨line, hline⟩ := hpick (maxQuotes - 1) (by decide)
    have hlast := (List.getElem?_eq_some_iff.mp hline).1
    have hlength : (stored file).length = maxQuotes := by omega
    refine ⟨hlength, fun hfeed => ?_⟩
    obtain ⟨index, hindex⟩ :=
      List.mem_iff_getElem?.mp ((none_mem_stored_iff file).mpr (.inr hfeed))
    have hrandom := (List.getElem?_eq_some_iff.mp hindex).1
    obtain ⟨line, hline⟩ := hpick index (by omega)
    rw [hindex] at hline
    cases hline
  · rintro ⟨hlength, hfeed⟩
    have hlines : none ∉ stored file := by
      rw [none_mem_stored_iff]
      rintro (rfl | hlast)
      · exact absurd hlength (by decide)
      · exact hfeed hlast
    refine ⟨fun index hindex => hindex.trans_eq hlength, fun first typed s _ => ?_⟩
    have hlt : s.random.val < (stored file).length := s.random.isLt.trans_eq hlength.symm
    have hmem := List.getElem_mem hlt
    rcases hentry : (stored file)[s.random.val] with _ | line
    · rw [hentry] at hmem
      exact absurd hmem hlines
    · exact ⟨line, by rw [List.getElem?_eq_getElem hlt, hentry]⟩

/-- Each server picks a quote of the file for every draw exactly when the file has
the number of quotes its constants say. -/
theorem selection_iff (file : Text) :
    (PicksLine file ↔ file.count '\n' + 1 = maxQuotes ∧ file.getLast? ≠ some '\n') ∧
      ((∀ key < JavaClientServer.quoteBound, (JavaClientServer.quotes file key).isSome) ↔
        JavaClientServer.quoteBound ≤
          (JavaClientServer.evenEnds (JavaClientServer.readLines file)).length) :=
  ⟨picksLine_iff file, JavaClientServer.quotes_isSome_iff file⟩

theorem selection_fails :
    ¬PicksLine ['a', '\n'] ∧
      ¬∀ key < JavaClientServer.quoteBound, (JavaClientServer.quotes ['a', '\n'] key).isSome := by
  constructor
  · intro h
    exact absurd ((picksLine_iff _).mp h).1 (by decide)
  · intro h
    exact absurd (h 1 (by decide)) (by decide)

end Netsvc.CppClientServer
