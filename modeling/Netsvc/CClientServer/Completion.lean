import Netsvc.CClientServer.Delivery

/-! How `client.c` comes to its end. It never waits for a byte that the child does not
send, however TCP cuts the stream. -/
namespace Netsvc.CClientServer
open Netsvc.Library Netsvc.Library.Transition

variable {selected : Selection} {options : Bytes} {reads : Nat → ReadSize} {s s' : Transfer}
  {e : Transfer.Event}

def Transfer.Connected (selected : Selection) (options : Bytes) (reads : Nat → ReadSize)
    (s : Transfer) (e : Transfer.Event) (s' : Transfer) : Prop :=
  s.closed = false ∧ Transfer.Step selected options reads s e s'

def Transfer.remaining (s : Transfer) : Nat :=
  if s.closed then 0
  else 4 * s.todo.length + (if s.reading = none then 0 else 1) + 2 * s.child.unread.length +
    (if s.child.point = .switch then 1 else 0) + 1

theorem Transfer.remaining_of_closed (h : s.closed = true) : s.remaining = 0 := if_pos h

theorem Transfer.remaining_of_open (h : s.closed = false) : s.remaining =
    4 * s.todo.length + (if s.reading = none then 0 else 1) + 2 * s.child.unread.length +
      (if s.child.point = .switch then 1 else 0) + 1 := by
  rw [Transfer.remaining, h]
  rfl

theorem Child.Step.shrinks {rows : Nat → Row} {s s' : Child} {e : Child.Event}
    (h : Child.Step rows s e s') (hopen : e ≠ .hangup) (herror : e ≠ .error) :
    2 * s'.unread.length + (if s'.point = .switch then 1 else 0) <
      2 * s.unread.length + (if s.point = .switch then 1 else 0) := by
  cases h with
  | receive hp _ hu => simp only [hp, hu, List.length_cons, reduceCtorEq, if_false, if_true]; omega
  | hangup => exact absurd rfl hopen
  | reply _ hp | skip hp | exit hp => simp [hp]
  | error => exact absurd rfl herror

theorem Transfer.Connected.remaining_lt (h : Transfer.Connected selected options reads s e s') :
    s'.remaining < s.remaining := by
  obtain ⟨hopen, hstep⟩ := h
  rw [remaining_of_open hopen]
  cases hstep with
  | send hr ht =>
    refine lt_of_eq_of_lt (remaining_of_open hopen) ?_
    simp only [hr, ht, List.length_append, List.length_cons, List.length_nil, reduceCtorEq,
      if_false, if_true]
    omega
  | read hr =>
    refine lt_of_eq_of_lt (remaining_of_open hopen) ?_
    simp only [hr, reduceCtorEq, if_false, if_true]
    omega
  | exit =>
    refine lt_of_eq_of_lt (remaining_of_closed rfl) ?_
    omega
  | serve hchild he hhangup =>
    have hshrinks := hchild.shrinks (fun heq => by simp [hhangup heq] at hopen) he
    refine lt_of_eq_of_lt (remaining_of_open hopen) ?_
    dsimp only
    omega

section Live
variable {sent : Bytes} (h : s.Live selected options reads sent)
include h

theorem Transfer.Live.send {request : UInt8} {todo : Bytes} (hr : s.reading = none)
    (ht : s.todo = request :: todo) :
    Transfer.Live selected options reads (sent ++ [request]) { s with
      todo := todo, reading := some request
      child := { s.child with unread := s.child.unread ++ [request] } } := by
  refine ⟨by simp [h.order, ht], h.child.arrive h.synced [request],
    ⟨h.synced.loop, h.synced.switch⟩, h.runs, h.consumed, nofun, ?_⟩
  rintro _ ⟨⟩
  exact ⟨sent, rfl, h.idle hr⟩

theorem Transfer.Live.read {request : UInt8} (text : Bytes) (hr : s.reading = some request) :
    Transfer.Live selected options reads sent { s with
      reading := none, consumed := s.consumed + (reads s.printed.length).bytes
      printed := s.printed ++ [(request, text)] } := by
  obtain ⟨earlier, hsent, hlength⟩ := h.busy request hr
  refine ⟨h.order, h.child, h.synced, h.runs, ?_, fun _ => ?_, nofun⟩
  · rw [h.consumed, List.length_append]
    rfl
  · rw [hsent, List.length_append, List.length_append, hlength]
    rfl

theorem Transfer.Live.length_written (hp : s.child.point = .loop) (hu : s.child.unread = []) :
    s.child.written.length = sent.length := by
  rw [← (h.child.replied hp).length_eq, h.asked_received, List.length_zipIdx, ← h.child.split, hu,
    List.append_nil]

theorem Transfer.Live.le_stream {request : UInt8} (hr : s.reading = some request)
    (hwritten : s.child.written.length = sent.length) :
    (reads s.printed.length).bytes ≤ s.stream.length := by
  obtain ⟨earlier, hsent, hlength⟩ := h.busy request hr
  have hoffset := offset_le reads s.printed.length
  have hle := (reads s.printed.length).le
  rw [Transfer.stream, List.length_drop, h.consumed, Framing.length_flatten h.frames.length_eq,
    hwritten, hsent, List.length_append, List.length_singleton, hlength, Nat.mul_succ]
  omega

theorem Transfer.Live.exists_step (hopen : s.closed = false) :
    ∃ e s', Transfer.Step selected options reads s e s' := by
  cases hr : s.reading with
  | none =>
    cases ht : s.todo with
    | nil => exact ⟨_, _, .exit hr ht hopen⟩
    | cons request todo => exact ⟨_, _, .send hr ht⟩
  | some request =>
    cases hp : s.child.point with
    | exited => exact absurd hp h.runs
    | switch =>
      exact ⟨_, _, .serve (.reply (fun _ => 0) hp (h.action hp)) nofun nofun⟩
    | loop =>
      cases hu : s.child.unread with
      | nil => exact ⟨_, _, .read hr rfl (h.le_stream hr (h.length_written hp hu))⟩
      | cons byte rest => exact ⟨_, _, .serve (.receive hp h.not_exit hu) nofun nofun⟩

end Live

structure Transfer.Paced (selected : Selection) (options : Bytes) (reads : Nat → ReadSize)
    (s : Transfer) : Prop where
  live : s.closed = false → ∃ sent, s.Live selected options reads sent ∧
    sent = s.printed.map Prod.fst ++ s.reading.toList
  done : s.closed = true → s.reading = none ∧ s.todo = [] ∧
    s.printed.map Prod.fst = requested options

theorem Transfer.start_paced : (Transfer.start options).Paced selected options reads := by
  refine ⟨fun _ => ⟨[], ?_, rfl⟩, nofun⟩
  exact ⟨rfl, Child.start_invariant _ _, Child.start_synced _, nofun, rfl, fun _ => rfl, nofun⟩

theorem Transfer.Paced.connected (h : s.Paced selected options reads)
    (hbusy : s.reading ≠ none ∨ s.todo ≠ []) : s.closed = false := by
  by_contra hclosed
  obtain ⟨hreading, htodo, -⟩ := h.done (by simpa using hclosed)
  rcases hbusy with hbusy | hbusy
  · exact hbusy hreading
  · exact hbusy htodo

theorem Transfer.Paced.step (h : s.Paced selected options reads)
    (hstep : Transfer.Step selected options reads s e s') :
    s'.Paced selected options reads := by
  cases hstep with
  | send hr ht =>
    have hopen := h.connected (.inr (by simp [ht]))
    obtain ⟨sent, hlive, hsent⟩ := h.live hopen
    refine ⟨fun _ => ⟨_, hlive.send hr ht, ?_⟩, by simp [hopen]⟩
    rw [hsent, hr, Option.toList_none, List.append_nil]
    rfl
  | read hr hs =>
    subst hs
    have hopen := h.connected (.inl (by simp [hr]))
    obtain ⟨sent, hlive, hsent⟩ := h.live hopen
    refine ⟨fun _ => ⟨_, hlive.read _ hr, ?_⟩, by simp [hopen]⟩
    rw [hsent, hr, List.map_append, Option.toList_none, List.append_nil]
    rfl
  | exit hr ht hopen =>
    obtain ⟨sent, hlive, hsent⟩ := h.live hopen
    refine ⟨nofun, fun _ => ⟨hr, ht, ?_⟩⟩
    rw [hlive.order, hsent, hr, ht, Option.toList_none, List.append_nil, List.append_nil]
  | serve hchild he hhangup =>
    refine ⟨fun hopen => ?_, h.done⟩
    obtain ⟨sent, hlive, hsent⟩ := h.live hopen
    exact ⟨sent, hlive.serve hchild he fun heq => by simp [hhangup heq] at hopen, hsent⟩

/-- However TCP cuts the stream, the client takes few steps until it closes its socket
and is never stuck before. Then it has printed one text for each of its options, in
order, and these are the strings it has asked for if the cut delivers them. -/
theorem transfer_completes (selected : Selection) (options : Bytes) (reads : Nat → ReadSize) :
    (∀ run, Run (Transfer.Connected selected options reads) (Transfer.start options) run →
      run.length ≤ 4 * (requested options).length + 1) ∧
    ∀ s, Reachable (Transfer.Step selected options reads) (Transfer.start options) s →
      (s.closed = false → ∃ e s', Transfer.Step selected options reads s e s') ∧
      (s.closed = true → s.printed.map Prod.fst = requested options ∧
        ((∀ k text, (selected.texts options)[k]? = some text →
          Delivered (selected.texts options) reads k text) →
        s.printed = (requested options).map fun c => (c, (selected.field c).bytes))) := by
  refine ⟨fun run hrun => ?_, fun s hreach => ?_⟩
  · exact hrun.length_le_rank fun _ _ _ hstep => hstep.remaining_lt
  · have hpaced := hreach.invariant (Transfer.Paced selected options reads)
      (fun _ _ _ => Transfer.Paced.step) Transfer.start_paced
    refine ⟨fun hopen => ?_, fun hclosed => ?_⟩
    · obtain ⟨sent, hlive, -⟩ := hpaced.live hopen
      exact hlive.exists_step hopen
    · obtain ⟨-, -, hprinted⟩ := hpaced.done hclosed
      refine ⟨hprinted, fun hdelivered => ?_⟩
      have hinv := hreach.invariant (Transfer.Invariant selected options reads)
        (fun _ _ _ => Transfer.Invariant.step hdelivered) Transfer.start_invariant
      rw [← hprinted, List.map_map]
      refine (List.map_id' s.printed).symm.trans (List.map_congr_left fun p hp => ?_)
      exact Prod.ext rfl (hinv.right p hp)

end Netsvc.CClientServer
