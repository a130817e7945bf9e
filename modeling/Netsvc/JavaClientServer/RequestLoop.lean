import Netsvc.JavaClientServer.Session
import Netsvc.Library.Loop

/-! The request loop of `ServerWorker` when the client goes away: from then on
`readUTF` throws an `EOFException`, which the loop catches. -/
namespace Netsvc.JavaClientServer
open Netsvc.Library.Loop

/-- The worker at the test of its condition, with the strings `readUTF` has left
to return before it throws. -/
structure Worker where
  response : Text
  input : List Text

def Worker.start (input : List Text) : Worker := ⟨[], input⟩

/-- An exception that the loop does not catch: a text of the quote is missing. -/
def Uncaught (qotd : Option (List Text)) (request : Text) : Prop :=
  request ∈ requests ∧ answer qotd request = none

theorem handle_dead_iff (qotd : Option (List Text)) (s : Session) (response : Text) :
    (s.handle qotd response).worker = .dead ↔ Uncaught qotd response := by
  unfold Session.handle Uncaught
  split_ifs with hrequest hexit
  · cases hanswer : answer qotd response with
    | none => simp [hrequest]
    | some text =>
      dsimp only
      split_ifs <;> simp
  · simp [hrequest]
  · simp [hrequest]

theorem handle_closed_iff (qotd : Option (List Text)) (s : Session) (response : Text) :
    (s.handle qotd response).worker = .closed ↔ response = ['E'] := by
  unfold Session.handle
  split_ifs with hrequest hexit
  · have hne : response ≠ ['E'] := by
      rintro rfl
      exact absurd hrequest (by decide)
    cases answer qotd response with
    | none => simp [hne]
    | some text =>
      dsimp only
      split_ifs <;> simp [hne]
  · simp [hexit]
  · simp [hexit]

inductive Worker.Exit (qotd : Option (List Text)) : Worker → Prop
  | closed {w : Worker} (h : w.response = ['E']) : Exit qotd w
  | dead {w : Worker} {request : Text} {rest : List Text} (h : w.response ≠ ['E'])
      (hi : w.input = request :: rest) (hu : Uncaught qotd request) : Exit qotd w

inductive Worker.Round (qotd : Option (List Text)) : Worker → Worker → Prop
  | request {w : Worker} {request : Text} {rest : List Text} (h : w.response ≠ ['E'])
      (hi : w.input = request :: rest) (hu : ¬Uncaught qotd request) :
      Round qotd w ⟨request, rest⟩
  -- `response` keeps the last request
  | endOfFile {w : Worker} (h : w.response ≠ ['E']) (hi : w.input = []) : Round qotd w w

theorem Worker.not_ends {qotd : Option (List Text)} {response : Text} (h : response ≠ ['E']) :
    ¬Ends (Worker.Exit qotd) (Worker.Round qotd) ⟨response, []⟩ := by
  apply not_ends_of_invariant fun w => w = ⟨response, []⟩
  · rintro w rfl hexit
    cases hexit with
    | closed hresponse => exact h hresponse
    | dead _ hi => cases hi
  · rintro w t rfl hround
    cases hround with
    | request _ hi => cases hi
    | endOfFile => rfl
  · rfl

theorem Worker.ends_cons {qotd : Option (List Text)} {response request : Text}
    {rest : List Text} (h : response ≠ ['E']) :
    Ends (Worker.Exit qotd) (Worker.Round qotd) ⟨response, request :: rest⟩ ↔
      Uncaught qotd request ∨ ¬Uncaught qotd request ∧
        Ends (Worker.Exit qotd) (Worker.Round qotd) ⟨request, rest⟩ := by
  rw [Netsvc.Library.Loop.ends_iff]
  constructor
  · rintro (hexit | ⟨t, hround, hends⟩)
    · cases hexit with
      | closed hresponse => exact absurd hresponse h
      | dead _ hi hu =>
        cases hi
        exact .inl hu
    · cases hround with
      | request _ hi hu =>
        cases hi
        exact .inr ⟨hu, hends⟩
      | endOfFile _ hi => cases hi
  · rintro (hu | ⟨hu, hends⟩)
    · exact .inl (.dead h rfl hu)
    · exact .inr ⟨_, .request h rfl hu, hends⟩

/-- The loop ends on an end command or an uncaught exception, not on the end of
the stream. -/
theorem Worker.ends_iff {qotd : Option (List Text)} {response : Text} {input : List Text}
    (h : response ≠ ['E']) :
    Ends (Worker.Exit qotd) (Worker.Round qotd) ⟨response, input⟩ ↔
      ∃ request ∈ input, request = ['E'] ∨ Uncaught qotd request := by
  induction input generalizing response with
  | nil =>
    apply iff_of_false (Worker.not_ends h)
    simp
  | cons request rest ih =>
    rw [Worker.ends_cons h, List.exists_mem_cons_iff]
    by_cases hend : request = ['E']
    · have hclosed : Ends (Worker.Exit qotd) (Worker.Round qotd) ⟨request, rest⟩ :=
        Netsvc.Library.Loop.ends_iff.mpr (.inl (.closed hend))
      apply iff_of_true
      · exact (Classical.em (Uncaught qotd request)).imp_right fun hu => ⟨hu, hclosed⟩
      · exact .inl (.inl hend)
    · rw [ih hend]
      by_cases hu : Uncaught qotd request <;> simp [hu, hend]

theorem Worker.Round.unique {qotd : Option (List Text)} (w t u : Worker)
    (ht : Worker.Round qotd w t) (hu : Worker.Round qotd w u) : t = u := by
  cases ht with
  | request _ hi =>
    cases hu with
    | request _ hi' =>
      cases hi.symm.trans hi'
      rfl
    | endOfFile _ hnil => cases hi.symm.trans hnil
  | endOfFile _ hnil =>
    cases hu with
    | request _ hi => cases hi.symm.trans hnil
    | endOfFile => rfl

theorem Worker.Exit.not_round {qotd : Option (List Text)} (w t : Worker)
    (h : Worker.Exit qotd w) : ¬Worker.Round qotd w t := by
  intro hround
  cases h with
  | closed hresponse => cases hround <;> contradiction
  | dead _ hi hu =>
    cases hround with
    | request _ hi' hu' =>
      cases hi.symm.trans hi'
      exact hu' hu
    | endOfFile _ hnil => cases hi.symm.trans hnil

theorem Worker.not_forever {qotd : Option (List Text)} {w : Worker}
    (h : Ends (Worker.Exit qotd) (Worker.Round qotd) w) :
    ¬∃ run : ℕ → Worker, run 0 = w ∧ ∀ n, Worker.Round qotd (run n) (run (n + 1)) :=
  h.not_forever Worker.Round.unique Worker.Exit.not_round

end Netsvc.JavaClientServer
