import Netsvc.CClientServer.Server
import Netsvc.Library.Delimiter
import Netsvc.Library.Framing

/-! `client.c` with the server's child. The child writes frames of 256 bytes
into a byte stream, and the client takes one `read` of it for each field. -/
namespace Netsvc.CClientServer
open Netsvc.Library Netsvc.Library.Transition

structure Selection where
  quote : CString
  author : CString
  date : CString

def Selection.row (selected : Selection) : Row :=
  ⟨some selected.quote, some selected.author, some selected.date⟩

def Selection.field (selected : Selection) (request : UInt8) : CString :=
  if request = 'q'.toUInt8 then selected.quote
  else if request = 'a'.toUInt8 then selected.author
  else selected.date

/-- The characters the client looks for in its options, in its order. -/
def requested (options : Bytes) : Bytes :=
  ['q'.toUInt8, 'a'.toUInt8, 'd'.toUInt8].filter (· ∈ options)

/-- What `printf` shows of `msg`: its bytes up to the first zero. `msg` was
cleared before the `read`. -/
def shown (read : Bytes) : Bytes :=
  (read ++ List.replicate (maxStrSize - read.length) 0).takeWhile (· != 0)

structure ReadSize where
  bytes : Nat
  pos : 0 < bytes
  le : bytes ≤ maxStrSize

def offset (reads : Nat → ReadSize) : Nat → Nat
  | 0 => 0
  | k + 1 => offset reads k + (reads k).bytes

/-- `reading` is the request whose answer the client waits for in `read`, and
`consumed` the number of bytes it has taken from the stream. -/
structure Transfer where
  todo : Bytes
  reading : Option UInt8
  closed : Bool
  child : Child
  consumed : Nat
  printed : List (UInt8 × Bytes)

def Transfer.start (options : Bytes) : Transfer :=
  ⟨requested options, none, false, Child.start [], 0, []⟩

def Transfer.stream (s : Transfer) : Bytes := s.child.written.flatten.drop s.consumed

inductive Transfer.Event
  | send
  | read
  | exit
  | serve (event : Child.Event)

/-- The connection is reliable: no call fails, and `recv` returns 0 only after
the client has closed. The client's `read` never does, because the parent of the child
keeps the socket open. -/
inductive Transfer.Step (selected : Selection) (options : Bytes) (reads : Nat → ReadSize) :
    Transfer → Transfer.Event → Transfer → Prop
  | send {s : Transfer} {request : UInt8} {todo : Bytes} (hr : s.reading = none)
      (ht : s.todo = request :: todo) : Step selected options reads s .send { s with
        todo := todo, reading := some request
        child := { s.child with unread := s.child.unread ++ [request] } }
  | read {s : Transfer} {request : UInt8} {size : ReadSize} (hr : s.reading = some request)
      (hs : size = reads s.printed.length) (hle : size.bytes ≤ s.stream.length) :
      Step selected options reads s .read { s with
        reading := none, consumed := s.consumed + size.bytes
        printed := s.printed ++ [(request, shown (s.stream.take size.bytes))] }
  | exit {s : Transfer} (hr : s.reading = none) (ht : s.todo = []) (hc : s.closed = false) :
      Step selected options reads s .exit { s with
        closed := true
        child := { s.child with
          unread := s.child.unread ++ ['e'.toUInt8].filter (· ∈ options) } }
  | serve {s : Transfer} {e : Child.Event} {child : Child}
      (hstep : Child.Step (fun _ => selected.row) s.child e child) (he : e ≠ .error)
      (hc : e = .hangup → s.closed = true) :
      Step selected options reads s (.serve e) { s with child := child }

def Transfer.Right (selected : Selection) (s : Transfer) : Prop :=
  ∀ p ∈ s.printed, p.2 = (selected.field p.1).bytes

/-- The `k`-th read starts with its own frame and covers the string, or the
string is empty and the read starts at the terminator of an earlier one. -/
def Delivered (texts : List CString) (reads : Nat → ReadSize) (k : Nat) (text : CString) : Prop :=
  (offset reads k = maxStrSize * k ∧ text.bytes.length ≤ (reads k).bytes) ∨
    (text.bytes = [] ∧ ∃ i earlier, i < k ∧ texts[i]? = some earlier ∧
      earlier.bytes.length < maxStrSize ∧
      offset reads k = maxStrSize * i + earlier.bytes.length)

theorem offset_le (reads : Nat → ReadSize) (k : Nat) : offset reads k ≤ maxStrSize * k := by
  induction k with
  | zero => simp [offset]
  | succ k ih =>
    have := (reads k).le
    rw [offset, Nat.mul_succ]
    omega

theorem offset_mono (reads : Nat → ReadSize) {i k : Nat} (h : i ≤ k) :
    offset reads i ≤ offset reads k := by
  induction h with
  | refl => exact Nat.le_refl _
  | step _ ih => exact Nat.le_trans ih (Nat.le_add_right _ _)

theorem shown_eq (read : Bytes) : shown read = read.takeWhile (· != 0) := by
  rw [shown]
  by_cases h : 0 ∈ read
  · obtain ⟨left, right, rfl, hleft⟩ := List.eq_append_cons_of_mem h
    rw [List.append_assoc, List.cons_append, Delimiter.takeWhile_append hleft,
      Delimiter.takeWhile_append hleft]
  · rw [List.takeWhile_append_of_pos (Delimiter.ne_of_mem h), Delimiter.takeWhile_of_notMem h]
    simp

theorem CString.frame_length (str : CString) (memory : Nat → UInt8) :
    (str.frame memory).length = maxStrSize := by
  simp [CString.frame]
  omega

theorem CString.frame_eq {str : CString} (h : str.bytes.length < maxStrSize)
    (memory : Nat → UInt8) : str.frame memory =
      str.bytes ++ 0 :: ((List.range maxStrSize).map memory).take
        (maxStrSize - str.bytes.length - 1) := by
  obtain ⟨n, hn⟩ : ∃ n, maxStrSize - str.bytes.length = n + 1 :=
    ⟨maxStrSize - str.bytes.length - 1, by omega⟩
  rw [CString.frame, List.take_append, List.take_of_length_le (Nat.le_of_lt h), hn,
    List.take_succ_cons, Nat.add_sub_cancel]

theorem CString.shown_frame {str : CString} {n : Nat} (h : str.bytes.length ≤ n)
    (hn : n ≤ maxStrSize) (memory : Nat → UInt8) (rest : Bytes) :
    shown ((str.frame memory ++ rest).take n) = str.bytes := by
  rw [shown_eq, List.take_append_of_le_length (by rw [frame_length]; omega), frame,
    List.take_take, Nat.min_eq_left hn]
  by_cases heq : n = str.bytes.length
  · rw [heq, List.take_left, Delimiter.takeWhile_of_notMem str.noNul]
  · obtain ⟨m, hm⟩ : ∃ m, n - str.bytes.length = m + 1 := ⟨n - str.bytes.length - 1, by omega⟩
    rw [List.take_append, List.take_of_length_le h, hm, List.take_succ_cons,
      Delimiter.takeWhile_append str.noNul]

theorem CString.frame_drop {str : CString} (h : str.bytes.length < maxStrSize)
    (memory : Nat → UInt8) : ∃ rest, (str.frame memory).drop str.bytes.length = 0 :: rest := by
  rw [frame_eq h, List.drop_left]
  exact ⟨_, rfl⟩

theorem CString.frame_drop_memory {str : CString} {p : Nat} (h : str.bytes.length < p)
    (hp : p < maxStrSize) (byte : UInt8) :
    ∃ rest, (str.frame fun _ => byte).drop p = byte :: rest := by
  obtain ⟨q, rfl⟩ : ∃ q, p = str.bytes.length + (q + 1) := ⟨p - str.bytes.length - 1, by omega⟩
  obtain ⟨n, hn⟩ : ∃ n, maxStrSize - str.bytes.length - 1 - q = n + 1 :=
    ⟨maxStrSize - str.bytes.length - 1 - q - 1, by omega⟩
  rw [frame_eq (by omega), List.drop_length_add_append, List.drop_succ_cons, List.map_const',
    List.length_range, List.take_replicate, List.drop_replicate, Nat.min_eq_left (by omega), hn,
    List.replicate_succ]
  exact ⟨_, rfl⟩

theorem shown_take_zero {n : Nat} (hn : 0 < n) (rest : Bytes) :
    shown ((0 :: rest).take n) = [] := by
  obtain ⟨n, rfl⟩ := Nat.exists_eq_succ_of_ne_zero hn.ne'
  rw [shown_eq, List.take_succ_cons, List.takeWhile_cons_of_neg (by simp)]

theorem shown_take_cons {n : Nat} (hn : 0 < n) {byte : UInt8} (hb : byte ≠ 0) (rest : Bytes) :
    ∃ text, shown ((byte :: rest).take n) = byte :: text := by
  obtain ⟨n, rfl⟩ := Nat.exists_eq_succ_of_ne_zero hn.ne'
  rw [shown_eq, List.take_succ_cons, List.takeWhile_cons_of_pos (by simpa using hb)]
  exact ⟨_, rfl⟩

theorem length_shown_le (read : Bytes) : (shown read).length ≤ read.length := by
  rw [shown_eq]
  exact (List.takeWhile_prefix _).length_le

def Frames (texts : List CString) (written : List Bytes) : Prop :=
  ∀ (j : Nat) (frame : Bytes), written[j]? = some frame →
    ∃ (text : CString) (memory : Nat → UInt8), texts[j]? = some text ∧ frame = text.frame memory

theorem Frames.length_eq {texts : List CString} {written : List Bytes} (h : Frames texts written) :
    ∀ frame ∈ written, frame.length = maxStrSize := by
  intro frame hmem
  obtain ⟨j, hj⟩ := List.getElem?_of_mem hmem
  obtain ⟨text, memory, _, rfl⟩ := h j frame hj
  exact text.frame_length memory

theorem Frames.exists_frame {texts : List CString} {written : List Bytes}
    (h : Frames texts written) {i p n : Nat}
    (hn : 0 < n) (havail : n ≤ (written.flatten.drop (maxStrSize * i + p)).length) :
    ∃ frame, written[i]? = some frame := by
  rw [List.length_drop, Framing.length_flatten h.length_eq] at havail
  have hlt : i < written.length := Nat.lt_of_mul_lt_mul_left (a := maxStrSize) (by omega)
  exact ⟨_, List.getElem?_eq_getElem hlt⟩

theorem Delivered.shown_eq {texts : List CString} {written : List Bytes} {reads : Nat → ReadSize}
    {k : Nat} {text : CString} (hd : Delivered texts reads k text) (h : Frames texts written)
    (hk : texts[k]? = some text)
    (havail : (reads k).bytes ≤ (written.flatten.drop (offset reads k)).length) :
    shown ((written.flatten.drop (offset reads k)).take (reads k).bytes) = text.bytes := by
  rcases hd with ⟨hoff, hlen⟩ | ⟨hempty, i, earlier, _, hi, hlt, hoff⟩
  · rw [show maxStrSize * k = maxStrSize * k + 0 from rfl] at hoff
    rw [hoff] at havail ⊢
    obtain ⟨frame, hframe⟩ := h.exists_frame (reads k).pos havail
    obtain ⟨text', memory, htext, rfl⟩ := h k frame hframe
    obtain rfl : text = text' := by simpa [hk] using htext
    rw [Framing.drop_flatten h.length_eq hframe (Nat.zero_le _), List.drop_zero]
    exact text.shown_frame hlen (reads k).le memory _
  · rw [hoff] at havail ⊢
    obtain ⟨frame, hframe⟩ := h.exists_frame (reads k).pos havail
    obtain ⟨text', memory, htext, rfl⟩ := h i frame hframe
    obtain rfl : earlier = text' := by simpa [hi] using htext
    obtain ⟨rest, hrest⟩ := earlier.frame_drop hlt memory
    rw [Framing.drop_flatten h.length_eq hframe (Nat.le_of_lt hlt), hrest, List.cons_append,
      shown_take_zero (reads k).pos, hempty]

end Netsvc.CClientServer
