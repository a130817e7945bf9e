import Mathlib.Algebra.BigOperators.Group.List.Basic

/-! A stream of frames of one size: where a position of the stream lies. And a
stream cut anywhere: how long its pieces are. -/
namespace Netsvc.Library.Framing

variable {α : Type*}

theorem length_lt_of_mem_pieces {pieces : List (List α)} (hnonempty : ∀ p ∈ pieces, p ≠ [])
    (h : pieces.length ≠ 1) {piece : List α} (hmem : piece ∈ pieces) :
    piece.length < pieces.flatten.length := by
  cases pieces with
  | nil => cases hmem
  | cons first rest =>
    have hfirst : 0 < first.length :=
      List.length_pos_iff.mpr (hnonempty first List.mem_cons_self)
    rw [List.flatten_cons, List.length_append]
    rcases List.mem_cons.mp hmem with rfl | hmem
    · cases rest with
      | nil => exact absurd rfl h
      | cons second rest =>
        have hsecond : 0 < second.length :=
          List.length_pos_iff.mpr (hnonempty second (by simp))
        rw [List.flatten_cons, List.length_append]
        omega
    · have hle := (List.sublist_flatten_of_mem hmem).length_le
      omega

variable {size : Nat} {frames : List (List α)} (h : ∀ f ∈ frames, f.length = size)
include h

theorem length_flatten : frames.flatten.length = size * frames.length := by
  rw [List.length_flatten, List.sum_eq_card_nsmul _ size (by simpa using h)]
  simp [Nat.mul_comm]

theorem drop_flatten {i p : Nat} {frame : List α} (hi : frames[i]? = some frame) (hp : p ≤ size) :
    frames.flatten.drop (size * i + p) = frame.drop p ++ (frames.drop (i + 1)).flatten := by
  induction frames generalizing i with
  | nil => simp at hi
  | cons first frames ih =>
    have hfirst := h first List.mem_cons_self
    cases i with
    | zero =>
      obtain rfl : first = frame := by simpa using hi
      rw [List.flatten_cons, List.drop_append_of_le_length (by omega)]
      simp
    | succ i =>
      have hrest := ih (fun f hf => h f (List.mem_cons_of_mem first hf)) (by simpa using hi)
      have hpos : size * (i + 1) + p = first.length + (size * i + p) := by
        rw [hfirst, Nat.mul_succ]
        omega
      rw [List.flatten_cons, hpos, List.drop_length_add_append, hrest]
      rfl

end Netsvc.Library.Framing
