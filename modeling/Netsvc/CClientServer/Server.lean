import Mathlib.Data.List.Forall2
import Netsvc.Library.Transition

/-! The child process of `server.c` that serves one client. Every `recv` asks
for one byte, and at the end of the stream it returns 0 and writes nothing. -/
namespace Netsvc.CClientServer
open Netsvc.Library.Transition

abbrev Bytes := List UInt8

def maxStrSize : Nat := 256

structure CString where
  bytes : Bytes
  noNul : 0 ∉ bytes

/-- The bytes `write_to_socket` sends from the address of a string, which go on
into the memory behind its terminator. -/
def CString.frame (str : CString) (memory : Nat → UInt8) : Bytes :=
  (str.bytes ++ 0 :: (List.range maxStrSize).map memory).take maxStrSize

/-- The pointers the child hands to `write_to_socket`: `strarr[QUOTE]` and the
results of `format_author` and `format_date`. -/
structure Row where
  quote : Option CString
  author : Option CString
  date : Option CString

inductive Action
  | write (data : Option CString)
  | close
  | ignore
  | invalid

def Row.action (row : Row) (incomingChar : UInt8) : Action :=
  if incomingChar = 'q'.toUInt8 then .write row.quote
  else if incomingChar = 'a'.toUInt8 then .write row.author
  else if incomingChar = 'd'.toUInt8 then .write row.date
  else if incomingChar = 'e'.toUInt8 then .close
  else if incomingChar = 0 ∨ incomingChar = '\n'.toUInt8 then .ignore
  else .invalid

/-- Where the child is: before its next `recv`, before the `switch`, or done. -/
inductive Point
  | loop
  | switch
  | exited
  deriving DecidableEq

/-- `pass` counts the passes of the loop, and `received` and `written` record the bytes
and the replies so far. -/
structure Child where
  point : Point
  pass : Nat
  incomingChar : UInt8
  unread : Bytes
  received : Bytes
  written : List Bytes

def Child.start (requests : Bytes) : Child := ⟨.loop, 0, 0, requests, [], []⟩

inductive Child.Event
  | receive
  | hangup
  | reply
  | skip
  | exit
  | error
  deriving DecidableEq

/-- The row is read again at every pass of the loop, before the `recv`. -/
inductive Child.Step (rows : Nat → Row) : Child → Child.Event → Child → Prop
  | receive {s : Child} {byte : UInt8} {rest : Bytes} (hp : s.point = .loop)
      (he : s.incomingChar ≠ 'e'.toUInt8) (hu : s.unread = byte :: rest) :
      Step rows s .receive { s with
        point := .switch, incomingChar := byte, unread := rest, received := s.received ++ [byte] }
  | hangup {s : Child} (hp : s.point = .loop) (he : s.incomingChar ≠ 'e'.toUInt8)
      (hu : s.unread = []) : Step rows s .hangup { s with point := .switch }
  | reply {s : Child} {data : CString} (memory : Nat → UInt8) (hp : s.point = .switch)
      (ha : (rows s.pass).action s.incomingChar = .write (some data)) :
      Step rows s .reply { s with
        point := .loop, pass := s.pass + 1, written := s.written ++ [data.frame memory] }
  | skip {s : Child} (hp : s.point = .switch)
      (ha : (rows s.pass).action s.incomingChar = .close ∨
        (rows s.pass).action s.incomingChar = .ignore) :
      Step rows s .skip { s with point := .loop, pass := s.pass + 1 }
  | exit {s : Child} (hp : s.point = .switch)
      (ha : (rows s.pass).action s.incomingChar = .write none ∨
        (rows s.pass).action s.incomingChar = .invalid) :
      Step rows s .exit { s with point := .exited }
  -- a negative result of `recv` or `write`, and of `accept` behind the loop
  | error {s : Child} (hp : s.point = .loop ∨
        s.point = .switch ∧ ∃ data, (rows s.pass).action s.incomingChar = .write data) :
      Step rows s .error { s with point := .exited }

/-- The bytes that ask for a reply, each with the pass that receives it. -/
def asked (received : Bytes) : List (UInt8 × Nat) :=
  received.zipIdx.filter (·.1 ∈ ['q'.toUInt8, 'a'.toUInt8, 'd'.toUInt8])

def IsReply (rows : Nat → Row) (request : UInt8 × Nat) (reply : Bytes) : Prop :=
  ∃ data memory, (rows request.2).action request.1 = .write (some data) ∧
    reply = data.frame memory

/-- The replies answer the requests received, in order and one each; the last
request may still be without its reply once it has been received. -/
def Child.Answers (rows : Nat → Row) (s : Child) : Prop :=
  ∃ answered pending, asked s.received = answered ++ pending ∧
    List.Forall₂ (IsReply rows) answered s.written ∧ pending.length ≤ 1 ∧
    (s.point = .loop → pending = [])

def Row.Stops (row : Row) (byte : UInt8) : Prop :=
  row.action byte = .close ∨ row.action byte = .invalid ∨ row.action byte = .write none

def Runs (rows : Nat → Row) (received : Bytes) : Prop :=
  ∀ i b, received[i]? = some b → ¬(rows i).Stops b

def Settled (rows : Nat → Row) (requests : Bytes) : Prop :=
  (∃ i b, requests[i]? = some b ∧ (rows i).Stops b) ∨
    ∀ data, (rows requests.length).action (requests.getLastD 0) ≠ .write (some data)

theorem zero_ne_exit : (0 : UInt8) ≠ 'e'.toUInt8 := by decide

theorem Row.action_exit (row : Row) : row.action 'e'.toUInt8 = .close := by
  rfl

theorem Row.action_eq_close {row : Row} {byte : UInt8} (h : row.action byte = .close) :
    byte = 'e'.toUInt8 := by
  unfold Row.action at h
  split_ifs at h with _ _ _ he
  exact he

theorem Row.action_eq_write {row : Row} {byte : UInt8} {data : Option CString}
    (h : row.action byte = .write data) :
    byte ∈ ['q'.toUInt8, 'a'.toUInt8, 'd'.toUInt8] := by
  unfold Row.action at h
  split_ifs at h with hq ha hd
  · simp [hq]
  · simp [ha]
  · simp [hd]

theorem Row.exists_write (row : Row) {byte : UInt8}
    (h : byte ∈ ['q'.toUInt8, 'a'.toUInt8, 'd'.toUInt8]) :
    ∃ data, row.action byte = .write data := by
  unfold Row.action
  split_ifs with hq ha hd
  · exact ⟨_, rfl⟩
  · exact ⟨_, rfl⟩
  · exact ⟨_, rfl⟩
  all_goals simp [hq, ha, hd] at h

theorem Row.action_ignore {row : Row} {byte : UInt8} (h : row.action byte = .ignore)
    (other : Row) : other.action byte = .ignore := by
  unfold Row.action at h ⊢
  split_ifs at h ⊢
  rfl

theorem asked_concat_of_write {row : Row} {earlier : Bytes} {byte : UInt8}
    {data : Option CString} (h : row.action byte = .write data) :
    asked (earlier ++ [byte]) = asked earlier ++ [(byte, earlier.length)] := by
  rw [asked, List.zipIdx_append, List.filter_append, List.zipIdx_singleton, Nat.zero_add,
    List.filter_cons_of_pos (by simpa using Row.action_eq_write h), List.filter_nil]
  rfl

theorem asked_concat_of_not_write {row : Row} {earlier : Bytes} {byte : UInt8}
    (h : ∀ data, row.action byte ≠ .write data) :
    asked (earlier ++ [byte]) = asked earlier := by
  have hnot : byte ∉ ['q'.toUInt8, 'a'.toUInt8, 'd'.toUInt8] := by
    intro hmem
    obtain ⟨data, hdata⟩ := row.exists_write hmem
    exact h data hdata
  rw [asked, List.zipIdx_append, List.filter_append, List.zipIdx_singleton,
    List.filter_cons_of_neg (by simpa using hnot), List.filter_nil, List.append_nil]
  rfl

theorem asked_concat (earlier : Bytes) (byte : UInt8) : ∃ pending,
    asked (earlier ++ [byte]) = asked earlier ++ pending ∧ pending.length ≤ 1 := by
  refine ⟨(([byte].zipIdx earlier.length).filter
    (·.1 ∈ ['q'.toUInt8, 'a'.toUInt8, 'd'.toUInt8])), ?_, List.length_filter_le _ _⟩
  rw [asked, List.zipIdx_append, List.filter_append, Nat.zero_add]
  rfl

theorem Row.not_stops_of_write {row : Row} {byte : UInt8} {data : CString}
    (h : row.action byte = .write (some data)) : ¬row.Stops byte := by
  simp [Row.Stops, h]

theorem Row.not_stops_of_ignore {row : Row} {byte : UInt8} (h : row.action byte = .ignore) :
    ¬row.Stops byte := by
  simp [Row.Stops, h]

theorem Runs.concat {rows : Nat → Row} {earlier : Bytes} {byte : UInt8} (h : Runs rows earlier)
    (hbyte : ¬(rows earlier.length).Stops byte) : Runs rows (earlier ++ [byte]) := by
  intro i b hi
  rcases Nat.lt_or_ge i earlier.length with hlt | hge
  · rw [List.getElem?_append_left hlt] at hi
    exact h i b hi
  · rw [List.getElem?_append_right hge] at hi
    obtain ⟨hlt, rfl⟩ := List.getElem?_eq_some_iff.mp hi
    have hindex : i = earlier.length := by
      rw [List.length_singleton] at hlt
      omega
    simpa [hindex] using hbyte

structure Child.Synced (s : Child) : Prop where
  loop : s.point = .loop → s.pass = s.received.length
  switch : s.point = .switch → s.pass + 1 = s.received.length

/-- Before the `switch` the child has a new byte, or the old one again that it
will not answer again. -/
inductive Child.Holds (rows : Nat → Row) (s : Child) : Prop
  | fresh {earlier : Bytes} (hr : s.received = earlier ++ [s.incomingChar])
      (hpass : s.pass = earlier.length) (hs : Runs rows earlier)
      (hw : List.Forall₂ (IsReply rows) (asked earlier) s.written)
  | stale (ha : ∀ data, (rows s.pass).action s.incomingChar ≠ .write (some data))
      (he : s.incomingChar ≠ 'e'.toUInt8) (hu : s.unread = [])
      (hpass : s.received.length ≤ s.pass) (hs : Runs rows s.received)
      (hw : List.Forall₂ (IsReply rows) (asked s.received) s.written)

structure Child.Invariant (rows : Nat → Row) (requests : Bytes) (s : Child) : Prop where
  split : s.received ++ s.unread = requests
  current : s.incomingChar = s.received.getLastD 0
  running : s.point = .loop → s.incomingChar ≠ 'e'.toUInt8 → Runs rows s.received
  replied : s.point = .loop → List.Forall₂ (IsReply rows) (asked s.received) s.written
  synced : s.point = .loop → s.pass = s.received.length ∨ s.received.length ≤ s.pass ∧
    s.unread = [] ∧ ∀ row : Row, row.action s.incomingChar = .ignore
  holds : s.point = .switch → s.Holds rows
  exited : s.point = .exited → s.Answers rows

variable {rows : Nat → Row} {requests : Bytes} {s s' : Child} {e : Child.Event}

theorem Child.Invariant.answers (h : s.Invariant rows requests) : s.Answers rows := by
  cases hp : s.point with
  | loop => exact ⟨_, [], by simp, h.replied hp, by simp, by simp⟩
  | exited => exact h.exited hp
  | switch =>
    cases h.holds hp with
    | @fresh earlier hr _ _ hw =>
      obtain ⟨pending, hasked, hlength⟩ := asked_concat earlier s.incomingChar
      exact ⟨_, pending, by rw [hr, hasked], hw, hlength, by simp [hp]⟩
    | stale _ _ _ _ _ hw => exact ⟨_, [], by simp, hw, by simp, by simp⟩

theorem Child.Invariant.exit (h : s.Invariant rows requests) :
    Child.Invariant rows requests { s with point := .exited } := by
  obtain ⟨answered, pending, hasked, hw, hlen, _⟩ := h.answers
  exact ⟨h.split, h.current, by simp, by simp, by simp, by simp,
    fun _ => ⟨answered, pending, hasked, hw, hlen, by simp⟩⟩

theorem Child.Invariant.reply (h : s.Invariant rows requests) {data : CString}
    (memory : Nat → UInt8) (hp : s.point = .switch)
    (ha : (rows s.pass).action s.incomingChar = .write (some data)) :
    Child.Invariant rows requests { s with
      point := .loop, pass := s.pass + 1, written := s.written ++ [data.frame memory] } := by
  cases h.holds hp with
  | stale hnot => exact absurd ha (hnot data)
  | @fresh earlier hr hpass hs hw =>
    rw [hpass] at ha
    refine ⟨h.split, h.current, fun _ _ => ?_, fun _ => ?_, fun _ => .inl ?_, by simp, by simp⟩
    · rw [hr]
      exact hs.concat (Row.not_stops_of_write ha)
    · rw [hr, asked_concat_of_write ha]
      exact List.rel_append hw (.cons ⟨data, memory, ha, rfl⟩ .nil)
    · simp [hr, hpass]

theorem Child.Invariant.skip (h : s.Invariant rows requests) (hp : s.point = .switch)
    (ha : (rows s.pass).action s.incomingChar = .close ∨
      (rows s.pass).action s.incomingChar = .ignore) :
    Child.Invariant rows requests { s with point := .loop, pass := s.pass + 1 } := by
  have hnot : ∀ data, (rows s.pass).action s.incomingChar ≠ .write data := by
    intro data hdata
    rcases ha with ha | ha <;> simp [ha] at hdata
  cases h.holds hp with
  | stale _ he hu hpass hs hw =>
    have hignore : ∀ row : Row, row.action s.incomingChar = .ignore := by
      rcases ha with ha | ha
      · exact absurd (Row.action_eq_close ha) he
      · exact Row.action_ignore ha
    exact ⟨h.split, h.current, fun _ _ => hs, fun _ => hw,
      fun _ => .inr ⟨Nat.le_succ_of_le hpass, hu, hignore⟩, by simp, by simp⟩
  | @fresh earlier hr hpass hs hw =>
    refine ⟨h.split, h.current, fun _ he => ?_, fun _ => ?_, fun _ => .inl ?_, by simp, by simp⟩
    · rw [hr]
      rcases ha with ha | ha
      · exact absurd (Row.action_eq_close ha) he
      · exact hs.concat (hpass ▸ Row.not_stops_of_ignore ha)
    · rw [hr, asked_concat_of_not_write hnot]
      exact hw
    · simp [hr, hpass]

theorem Child.Invariant.hangup (hsettled : Settled rows requests)
    (h : s.Invariant rows requests) (hp : s.point = .loop)
    (he : s.incomingChar ≠ 'e'.toUInt8) (hu : s.unread = []) :
    Child.Invariant rows requests { s with point := .switch } := by
  refine ⟨h.split, h.current, by simp, by simp, by simp, fun _ => ?_, by simp⟩
  have hall : s.received = requests := by simpa [hu] using h.split
  have hruns := h.running hp he
  rcases h.synced hp with hpass | ⟨hpass, -, hignore⟩
  · rcases hsettled with ⟨i, b, hb, hstops⟩ | hlast
    · exact absurd hstops (hruns i b (hall ▸ hb))
    · refine .stale ?_ he hu (Nat.le_of_eq hpass.symm) hruns (h.replied hp)
      dsimp only
      rw [hpass, h.current, hall]
      exact hlast
  · exact .stale (by simp [hignore]) he hu hpass hruns (h.replied hp)

theorem Child.Invariant.step (hsettled : e = .hangup → Settled rows requests)
    (h : s.Invariant rows requests) (hstep : Child.Step rows s e s') :
    s'.Invariant rows requests := by
  cases hstep with
  | @receive byte rest hp he hu =>
    have hpass : s.pass = s.received.length := by
      rcases h.synced hp with hpass | ⟨-, hempty, -⟩
      · exact hpass
      · simp [hempty] at hu
    refine ⟨?_, by simp, by simp, by simp, by simp, fun _ => ?_, by simp⟩
    · rw [← h.split, hu]
      simp
    · exact .fresh rfl hpass (h.running hp he) (h.replied hp)
  | hangup hp he hu => exact h.hangup (hsettled rfl) hp he hu
  | reply memory hp ha => exact h.reply memory hp ha
  | skip hp ha => exact h.skip hp ha
  | exit => exact h.exit
  | error => exact h.exit

theorem Child.start_synced (requests : Bytes) : (Child.start requests).Synced :=
  ⟨fun _ => rfl, by simp [start]⟩

theorem Child.Step.synced (h : Child.Step rows s e s') (hopen : e ≠ .hangup) (hs : s.Synced) :
    s'.Synced := by
  cases h with
  | receive hp => exact ⟨by simp, fun _ => by simp [hs.loop hp]⟩
  | hangup => exact absurd rfl hopen
  | reply _ hp | skip hp => exact ⟨fun _ => hs.switch hp, by simp⟩
  | exit | error => exact ⟨by simp, by simp⟩

theorem Row.action_of_not_stops {row : Row} {byte : UInt8} (h : ¬row.Stops byte) :
    (∃ data, row.action byte = .write (some data)) ∨ row.action byte = .ignore := by
  cases ha : row.action byte with
  | write data =>
    cases data with
    | none => exact absurd (Or.inr (Or.inr ha)) h
    | some data => exact Or.inl ⟨data, rfl⟩
  | close => exact absurd (Or.inl ha) h
  | ignore => exact Or.inr rfl
  | invalid => exact absurd (Or.inr (Or.inl ha)) h

theorem Child.Invariant.arrive (h : s.Invariant rows requests) (hs : s.Synced) (more : Bytes) :
    Child.Invariant rows (requests ++ more) { s with unread := s.unread ++ more } := by
  refine ⟨by rw [← h.split, List.append_assoc], h.current, h.running, h.replied,
    fun hp => .inl (hs.loop hp), fun hp => ?_, h.exited⟩
  cases h.holds hp with
  | fresh hr hpass hs hw => exact .fresh hr hpass hs hw
  | stale _ _ _ hpass =>
    have hsync := hs.switch hp
    omega

structure Child.At (rows : Nat → Row) (before after : Bytes) (s : Child) : Prop where
  point : s.point = .loop
  pass : s.pass = before.length
  running : s.incomingChar ≠ 'e'.toUInt8
  current : s.incomingChar = before.getLastD 0
  unread : s.unread = after
  received : s.received = before
  written : List.Forall₂ (IsReply rows) (asked before) s.written

theorem Child.At.next {before rest : Bytes} {b : UInt8} (h : s.At rows before (b :: rest))
    (hb : ¬(rows before.length).Stops b) :
    ∃ t, Reachable (Child.Step rows) s t ∧ t.At rows (before ++ [b]) rest := by
  have hreceive : Child.Step rows s .receive _ := .receive h.point h.running h.unread
  have hexit : b ≠ 'e'.toUInt8 := by
    rintro rfl
    exact hb (Or.inl (Row.action_exit _))
  rcases Row.action_of_not_stops hb with ⟨data, ha⟩ | ha
  · have hreply : (rows s.pass).action b = .write (some data) := h.pass ▸ ha
    refine ⟨_, (reachable_of_step hreceive).trans
      (reachable_of_step (Child.Step.reply (fun _ => 0) rfl hreply)),
      rfl, ?_, hexit, ?_, rfl, ?_, ?_⟩
    · simp [h.pass]
    · simp
    · simp [h.received]
    · rw [asked_concat_of_write ha]
      exact List.rel_append h.written (.cons ⟨data, _, ha, rfl⟩ .nil)
  · have hskip : (rows s.pass).action b = .ignore := h.pass ▸ ha
    refine ⟨_, (reachable_of_step hreceive).trans
      (reachable_of_step (Child.Step.skip rfl (Or.inr hskip))), rfl, ?_, hexit, ?_, rfl, ?_, ?_⟩
    · simp [h.pass]
    · simp
    · simp [h.received]
    · have hnot : ∀ data, (rows before.length).action b ≠ .write data := by simp [ha]
      rw [asked_concat_of_not_write hnot]
      exact h.written

theorem Child.At.end {before after : Bytes} (h : s.At rows before after)
    (hruns : ∀ i b, after[i]? = some b → ¬(rows (before.length + i)).Stops b) :
    ∃ t, Reachable (Child.Step rows) s t ∧ t.At rows (before ++ after) [] := by
  induction after generalizing before s with
  | nil => exact ⟨s, Reachable.refl s, by rwa [List.append_nil]⟩
  | cons b after ih =>
    obtain ⟨r, hr, hat⟩ := h.next (hruns 0 b rfl)
    obtain ⟨t, ht, hend⟩ := ih hat fun i c hc => by
      have hnext := hruns (i + 1) c hc
      rwa [List.length_append, List.length_singleton, Nat.add_assoc, Nat.add_comm 1]
    rw [List.append_assoc] at hend
    exact ⟨t, hr.trans ht, hend⟩

theorem Child.Answers.length_le (h : s.Answers rows) :
    s.written.length ≤ (asked s.received).length := by
  obtain ⟨answered, pending, hasked, hw, _⟩ := h
  rw [hasked, List.length_append, hw.length_eq]
  omega

theorem Child.start_at (requests : Bytes) : (Child.start requests).At rows [] requests :=
  ⟨rfl, rfl, zero_ne_exit, rfl, rfl, rfl, .nil⟩

/-- At the end of the stream the last byte is still there, so a request that
came last is answered once more. -/
theorem Child.reach_repeat (h : ¬Settled rows requests) :
    ∃ t, Reachable (Child.Step rows) (Child.start requests) t ∧ ¬t.Answers rows := by
  rw [Settled, not_or] at h
  obtain ⟨hruns, hlast⟩ := h
  push Not at hruns hlast
  obtain ⟨data, ha⟩ := hlast
  obtain ⟨t, hreach, hat⟩ := (Child.start_at requests).end fun i b hb => by
    simpa using hruns i b hb
  rw [List.nil_append] at hat
  -- once around the loop without a byte, and the same branch is taken again
  have hhangup : Child.Step rows t .hangup _ := .hangup hat.point hat.running hat.unread
  have hagain : (rows t.pass).action t.incomingChar = .write (some data) := by
    rw [hat.pass, hat.current]
    exact ha
  refine ⟨_, hreach.trans ((reachable_of_step hhangup).trans
    (reachable_of_step (Child.Step.reply (fun _ => 0) rfl hagain))), fun hanswers => ?_⟩
  have hle := hanswers.length_le
  have hlength := hat.written.length_eq
  simp only [hat.received, List.length_append, List.length_singleton] at hle
  omega

theorem Child.start_invariant (rows : Nat → Row) (requests : Bytes) :
    (Child.start requests).Invariant rows requests :=
  ⟨rfl, rfl, by simp [start, Runs], fun _ => .nil, fun _ => .inl rfl, by simp [start],
    by simp [start]⟩

/-- The child answers only what it was asked, at every point of its loop,
exactly when some byte stops it or the last one gets no second reply. -/
theorem child_answers_iff (rows : Nat → Row) (requests : Bytes) :
    (∀ s, Reachable (Child.Step rows) (Child.start requests) s → s.Answers rows) ↔
      (∃ i b, requests[i]? = some b ∧ (rows i).Stops b) ∨
        ∀ data, (rows requests.length).action (requests.getLastD 0) ≠ .write (some data) := by
  constructor
  · intro h
    by_contra hsettled
    obtain ⟨t, hreach, hbad⟩ := Child.reach_repeat hsettled
    exact hbad (h t hreach)
  · intro hsettled s hreach
    have hinv := hreach.invariant (Child.Invariant rows requests)
      (fun _ _ _ => Child.Invariant.step fun _ => hsettled) (Child.start_invariant rows requests)
    exact hinv.answers

/-- A client that asks for the quote and hangs up gets it twice. -/
theorem child_repeats_quote :
    ¬∀ (row : Row) (requests : Bytes) (s : Child),
      Reachable (Child.Step fun _ => row) (Child.start requests) s → s.Answers fun _ => row := by
  intro h
  have hrow : ∃ row : Row, ¬Settled (fun _ => row) ['q'.toUInt8] := by
    refine ⟨⟨some ⟨['h'.toUInt8, 'i'.toUInt8], by decide⟩, none, none⟩, ?_⟩
    rintro (⟨i, b, hb, hstops⟩ | hlast)
    · obtain rfl : 'q'.toUInt8 = b := List.mem_singleton.mp (List.mem_of_getElem? hb) |>.symm
      exact Row.not_stops_of_write rfl hstops
    · exact hlast _ rfl
  obtain ⟨row, hrow⟩ := hrow
  obtain ⟨t, hreach, hbad⟩ := Child.reach_repeat hrow
  exact hbad (h row _ t hreach)

end Netsvc.CClientServer
