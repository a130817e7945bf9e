import Netsvc.CClientServer.Transfer

/-! Which ways of cutting the byte stream deliver the fields to the client. -/
namespace Netsvc.CClientServer
open Netsvc.Library Netsvc.Library.Transition

variable {selected : Selection} {options : Bytes} {reads : Nat → ReadSize}

def Selection.texts (selected : Selection) (options : Bytes) : List CString :=
  (requested options).map selected.field

theorem mem_of_mem_requested {c : UInt8} (h : c ∈ requested options) :
    c ∈ ['q'.toUInt8, 'a'.toUInt8, 'd'.toUInt8] :=
  List.mem_of_mem_filter h

theorem Selection.action_requested (selected : Selection) {c : UInt8}
    (h : c ∈ requested options) :
    selected.row.action c = .write (some (selected.field c)) := by
  have hc := mem_of_mem_requested h
  simp only [List.mem_cons, List.not_mem_nil, or_false] at hc
  rcases hc with rfl | rfl | rfl <;> rfl

theorem exit_notMem_requested : 'e'.toUInt8 ∉ requested options :=
  fun h => absurd (mem_of_mem_requested h) (by decide)

structure Transfer.Live (selected : Selection) (options : Bytes) (reads : Nat → ReadSize)
    (sent : Bytes) (s : Transfer) : Prop where
  order : requested options = sent ++ s.todo
  child : s.child.Invariant (fun _ => selected.row) sent
  synced : s.child.Synced
  runs : s.child.point ≠ .exited
  consumed : s.consumed = offset reads s.printed.length
  idle : s.reading = none → sent.length = s.printed.length
  busy : ∀ request, s.reading = some request →
    ∃ earlier, sent = earlier ++ [request] ∧ earlier.length = s.printed.length

structure Transfer.Invariant (selected : Selection) (options : Bytes) (reads : Nat → ReadSize)
    (s : Transfer) : Prop where
  right : s.Right selected
  live : s.closed = false → ∃ sent, s.Live selected options reads sent
  done : s.closed = true → s.reading = none ∧ s.todo = []

theorem Transfer.Live.mem_requested {sent : Bytes} {s : Transfer}
    (h : s.Live selected options reads sent) {c : UInt8} (hc : c ∈ s.child.received) :
    c ∈ requested options := by
  rw [h.order, ← h.child.split]
  simp [hc]

theorem Transfer.Live.asked_received {sent : Bytes} {s : Transfer}
    (h : s.Live selected options reads sent) :
    asked s.child.received = s.child.received.zipIdx := by
  refine List.filter_eq_self.mpr fun p hp => ?_
  have hmem := List.fst_mem_of_mem_zipIdx hp
  simpa using mem_of_mem_requested (h.mem_requested hmem)

theorem Transfer.Live.not_exit {sent : Bytes} {s : Transfer}
    (h : s.Live selected options reads sent) : s.child.incomingChar ≠ 'e'.toUInt8 := by
  rw [h.child.current]
  rcases List.eq_nil_or_concat' s.child.received with hnil | ⟨earlier, c, hc⟩
  · rw [hnil]
    exact zero_ne_exit
  · rintro heq
    have hlast : c = 'e'.toUInt8 := by simpa [hc] using heq
    exact exit_notMem_requested (hlast ▸ h.mem_requested (c := c) (by simp [hc]))

theorem Transfer.Live.action {sent : Bytes} {s : Transfer}
    (h : s.Live selected options reads sent) (hp : s.child.point = .switch) :
    selected.row.action s.child.incomingChar =
      .write (some (selected.field s.child.incomingChar)) := by
  cases h.child.holds hp with
  | fresh hr => exact selected.action_requested (h.mem_requested (by simp [hr]))
  | stale _ _ _ hpass =>
    have hsync := h.synced.switch hp
    omega

theorem Transfer.Live.frames {sent : Bytes} {s : Transfer}
    (h : s.Live selected options reads sent) :
    Frames (selected.texts options) s.child.written := by
  obtain ⟨answered, pending, hasked, hw, _⟩ := h.child.answers
  rw [h.asked_received] at hasked
  intro j frame hj
  obtain ⟨hlt, rfl⟩ := List.getElem?_eq_some_iff.mp hj
  have hlt' : j < answered.length := hw.length_eq ▸ hlt
  obtain ⟨data, memory, ha, hframe⟩ := hw.get hlt' hlt
  have hpair : s.child.received.zipIdx[j]? = some answered[j] := by
    rw [hasked, List.getElem?_append_left hlt', List.getElem?_eq_getElem hlt']
  rw [List.getElem?_zipIdx] at hpair
  obtain ⟨request, hrequest, hpair⟩ := Option.map_eq_some_iff.mp hpair
  have hget : (requested options)[j]? = some request := by
    have hreceived := (List.getElem?_eq_some_iff.mp hrequest).1
    rw [h.order, ← h.child.split, List.append_assoc, List.getElem?_append_left hreceived,
      hrequest]
  rw [List.get_eq_getElem, ← hpair] at ha
  have hdata : data = selected.field request := by
    have haction := selected.action_requested (List.mem_of_getElem? hget)
    rw [haction] at ha
    exact (Option.some.inj (Action.write.inj ha)).symm
  exact ⟨data, memory, by simp [Selection.texts, hget, hdata], hframe⟩

theorem Transfer.Live.serve {sent : Bytes} {s : Transfer} {e : Child.Event} {child : Child}
    (h : s.Live selected options reads sent)
    (hstep : Child.Step (fun _ => selected.row) s.child e child) (he : e ≠ .error)
    (hopen : e ≠ .hangup) :
    Transfer.Live selected options reads sent { s with child := child } := by
  have hchild := h.child.step (fun heq => absurd heq hopen) hstep
  refine ⟨h.order, hchild, hstep.synced hopen h.synced, ?_, h.consumed, h.idle, h.busy⟩
  cases hstep with
  | receive | hangup | reply | skip => simp
  | error => exact absurd rfl he
  | exit hp ha => simp [h.action hp] at ha

theorem Transfer.Invariant.connected {s : Transfer} (h : s.Invariant selected options reads)
    (hbusy : s.reading ≠ none ∨ s.todo ≠ []) : s.closed = false := by
  by_contra hclosed
  obtain ⟨hreading, htodo⟩ := h.done (by simpa using hclosed)
  rcases hbusy with hbusy | hbusy
  · exact hbusy hreading
  · exact hbusy htodo

theorem Transfer.Invariant.send {s : Transfer} (h : s.Invariant selected options reads)
    {request : UInt8} {todo : Bytes} (hr : s.reading = none) (ht : s.todo = request :: todo) :
    Transfer.Invariant selected options reads { s with
      todo := todo, reading := some request
      child := { s.child with unread := s.child.unread ++ [request] } } := by
  have hopen := h.connected (Or.inr (by simp [ht]))
  obtain ⟨sent, hlive⟩ := h.live hopen
  refine ⟨h.right, fun _ => ⟨sent ++ [request], ?_⟩, by simp [hopen]⟩
  refine ⟨by simp [hlive.order, ht], hlive.child.arrive hlive.synced [request],
    ⟨hlive.synced.loop, hlive.synced.switch⟩, hlive.runs, hlive.consumed,
    by simp, ?_⟩
  rintro _ ⟨⟩
  exact ⟨sent, rfl, hlive.idle hr⟩

theorem Transfer.Invariant.read
    (hd : ∀ k text, (selected.texts options)[k]? = some text →
      Delivered (selected.texts options) reads k text)
    {s : Transfer} (h : s.Invariant selected options reads) {request : UInt8}
    (hr : s.reading = some request) (hle : (reads s.printed.length).bytes ≤ s.stream.length) :
    Transfer.Invariant selected options reads { s with
      reading := none, consumed := s.consumed + (reads s.printed.length).bytes
      printed := s.printed ++
        [(request, shown (s.stream.take (reads s.printed.length).bytes))] } := by
  have hopen := h.connected (Or.inl (by simp [hr]))
  obtain ⟨sent, hlive⟩ := h.live hopen
  obtain ⟨earlier, hsent, hlen⟩ := hlive.busy request hr
  have htext : (selected.texts options)[s.printed.length]? = some (selected.field request) := by
    rw [Selection.texts, List.getElem?_map, hlive.order, hsent, ← hlen, List.append_assoc,
      List.getElem?_append_right (Nat.le_refl _)]
    simp
  refine ⟨?_, fun _ => ⟨sent, ?_⟩, by simp [hopen]⟩
  · refine List.forall_mem_append.mpr ⟨h.right, List.forall_mem_singleton.mpr ?_⟩
    rw [Transfer.stream, hlive.consumed] at hle ⊢
    exact (hd _ _ htext).shown_eq hlive.frames htext hle
  · refine ⟨hlive.order, hlive.child, hlive.synced, hlive.runs, ?_, fun _ => ?_, by simp⟩
    · rw [hlive.consumed, List.length_append]
      rfl
    · simp [hsent, hlen]

theorem Transfer.Invariant.step
    (hd : ∀ k text, (selected.texts options)[k]? = some text →
      Delivered (selected.texts options) reads k text)
    {s s' : Transfer} {e : Transfer.Event} (h : s.Invariant selected options reads)
    (hstep : Transfer.Step selected options reads s e s') :
    s'.Invariant selected options reads := by
  cases hstep with
  | send hr ht => exact h.send hr ht
  | read hr hs hle =>
    subst hs
    exact h.read hd hr hle
  | exit hr ht _ => exact ⟨h.right, by simp, fun _ => ⟨hr, ht⟩⟩
  | @serve e child hchild he hhangup =>
    refine ⟨h.right, fun hopen => ?_, h.done⟩
    obtain ⟨sent, hlive⟩ := h.live hopen
    exact ⟨sent, hlive.serve hchild he fun heq => by simp [hhangup heq] at hopen⟩

theorem Transfer.start_invariant : (Transfer.start options).Invariant selected options reads := by
  refine ⟨by simp [start, Right], fun _ => ⟨[], ?_⟩, by simp [start]⟩
  exact ⟨rfl, Child.start_invariant _ _, Child.start_synced _, by simp [start, Child.start], rfl,
    fun _ => rfl, by simp [start]⟩

def streamAt (texts : List CString) (reads : Nat → ReadSize) (memory : Nat → UInt8) (k : Nat) :
    Bytes :=
  (((texts.take (k + 1)).map (·.frame memory)).flatten.drop (offset reads k)).take (reads k).bytes

theorem frame_length_of_mem {texts : List CString} {memory : Nat → UInt8} :
    ∀ frame ∈ texts.map (·.frame memory), frame.length = maxStrSize := by
  intro frame hmem
  obtain ⟨text, _, rfl⟩ := List.mem_map.mp hmem
  exact text.frame_length memory

structure Transfer.Ready (selected : Selection) (options : Bytes) (reads : Nat → ReadSize)
    (memory : Nat → UInt8) (k : Nat) (s : Transfer) : Prop where
  todo : s.todo = (requested options).drop k
  reading : s.reading = none
  point : s.child.point = .loop
  running : s.child.incomingChar ≠ 'e'.toUInt8
  unread : s.child.unread = []
  written : s.child.written = ((selected.texts options).take k).map (·.frame memory)
  consumed : s.consumed = offset reads k
  printed : s.printed.length = k

theorem Transfer.Ready.next {memory : Nat → UInt8} {k : Nat} {s : Transfer} {c : UInt8}
    (h : s.Ready selected options reads memory k) (hk : (requested options)[k]? = some c) :
    ∃ s', Reachable (Transfer.Step selected options reads) s s' ∧
      s'.Ready selected options reads memory (k + 1) ∧
      (c, shown (streamAt (selected.texts options) reads memory k)) ∈ s'.printed := by
  have hmem := List.mem_of_getElem? hk
  have hlt := (List.getElem?_eq_some_iff.mp hk).1
  have htodo : s.todo = c :: (requested options).drop (k + 1) := by
    rw [h.todo, List.drop_eq_getElem_cons hlt, (List.getElem?_eq_some_iff.mp hk).2]
  have hwritten : s.child.written ++ [(selected.field c).frame memory] =
      ((selected.texts options).take (k + 1)).map (·.frame memory) := by
    rw [h.written, List.take_add_one, Selection.texts, List.getElem?_map, hk]
    simp
  have havail : (reads k).bytes ≤ ((s.child.written ++
      [(selected.field c).frame memory]).flatten.drop s.consumed).length := by
    have hle := (reads k).le
    have hoff := offset_le reads k
    rw [hwritten, h.consumed, List.length_drop, Framing.length_flatten frame_length_of_mem,
      List.length_map, List.length_take, Selection.texts, List.length_map, Nat.min_eq_left hlt,
      Nat.mul_succ]
    omega
  have hsend : Transfer.Step selected options reads s .send _ := .send h.reading htodo
  have hreceive : Child.Step (fun _ => selected.row) { s.child with unread := s.child.unread ++ [c] }
      .receive _ := .receive h.point h.running (by rw [h.unread, List.nil_append])
  refine ⟨_, (reachable_of_step hsend).trans
    ((reachable_of_step (.serve hreceive (by simp) (by simp))).trans
    ((reachable_of_step (.serve (.reply memory rfl (selected.action_requested hmem))
      (by simp) (by simp))).trans
    (reachable_of_step (.read rfl rfl (by rw [h.printed]; exact havail))))), ?_, ?_⟩
  · refine ⟨rfl, rfl, rfl, ?_, rfl, hwritten, ?_, by simp [h.printed]⟩
    · rintro rfl
      exact exit_notMem_requested hmem
    · simp [h.consumed, h.printed, offset]
  · refine List.mem_append_right _ (List.mem_singleton.mpr ?_)
    simp only [Transfer.stream, hwritten, h.consumed, h.printed, streamAt]

theorem Transfer.reach_ready (selected : Selection) (options : Bytes) (reads : Nat → ReadSize)
    (memory : Nat → UInt8) {k : Nat} (hk : k ≤ (requested options).length) :
    ∃ s, Reachable (Transfer.Step selected options reads) (Transfer.start options) s ∧
      s.Ready selected options reads memory k := by
  induction k with
  | zero =>
    exact ⟨_, Reachable.refl _, rfl, rfl, rfl, zero_ne_exit, rfl, by simp [start, Child.start],
      rfl, rfl⟩
  | succ k ih =>
    obtain ⟨s, hreach, hready⟩ := ih (Nat.le_of_succ_le hk)
    obtain ⟨s', hreach', hready', _⟩ := hready.next (List.getElem?_eq_getElem hk)
    exact ⟨s', hreach.trans hreach', hready'⟩

theorem exists_other_byte (text : Bytes) : ∃ byte : UInt8, byte ≠ 0 ∧ text.head? ≠ some byte := by
  by_cases h : text.head? = some 1
  · exact ⟨2, by decide, by simp [h]⟩
  · exact ⟨1, by decide, h⟩

theorem exists_streamAt_eq {texts : List CString} {j k p : Nat} {earlier : CString}
    (hjk : j < k) (hj : texts[j]? = some earlier) (hp : p < maxStrSize)
    (hoff : offset reads k = maxStrSize * j + p) (memory : Nat → UInt8) :
    ∃ rest, streamAt texts reads memory k =
      ((earlier.frame memory).drop p ++ rest).take (reads k).bytes := by
  have hframe : ((texts.take (k + 1)).map (·.frame memory))[j]? =
      some (earlier.frame memory) := by
    rw [List.getElem?_map, List.getElem?_take_of_lt (by omega), hj]
    rfl
  rw [streamAt, hoff, Framing.drop_flatten frame_length_of_mem hframe (Nat.le_of_lt hp)]
  exact ⟨_, rfl⟩

/-- There the text is right for every content of the memory only at the
terminator: behind it the client prints memory. -/
theorem eq_length_of_shown {texts : List CString} {j k p : Nat} {earlier text : CString}
    (hjk : j < k) (hj : texts[j]? = some earlier) (hp : p < maxStrSize)
    (hoff : offset reads k = maxStrSize * j + p) (hbehind : earlier.bytes.length ≤ p)
    (h : ∀ memory, shown (streamAt texts reads memory k) = text.bytes) :
    earlier.bytes.length = p ∧ text.bytes = [] := by
  rcases Nat.eq_or_lt_of_le hbehind with rfl | hlt
  · obtain ⟨rest, hrest⟩ := exists_streamAt_eq hjk hj hp hoff fun _ => 0
    obtain ⟨after, hafter⟩ := earlier.frame_drop hp fun _ => 0
    have htext := h fun _ => 0
    rw [hrest, hafter, List.cons_append, shown_take_zero (reads k).pos] at htext
    exact ⟨rfl, htext.symm⟩
  · obtain ⟨byte, hbyte, hhead⟩ := exists_other_byte text.bytes
    obtain ⟨rest, hrest⟩ := exists_streamAt_eq hjk hj hp hoff fun _ => byte
    obtain ⟨after, hafter⟩ := earlier.frame_drop_memory hlt hp byte
    have htext := h fun _ => byte
    rw [hrest, hafter, List.cons_append] at htext
    obtain ⟨shownRest, hshown⟩ := shown_take_cons (reads k).pos hbyte (after ++ rest)
    rw [hshown] at htext
    exact absurd (by simp [← htext]) hhead

/-- When every content of the memory gives the right texts, no read depends on
the memory: it starts with its frame or at a terminator. -/
theorem delivered_of_shown {texts : List CString}
    (h : ∀ k text, texts[k]? = some text →
      ∀ memory, shown (streamAt texts reads memory k) = text.bytes) :
    ∀ k text, texts[k]? = some text → Delivered texts reads k text := by
  intro k
  -- on the earlier reads: each of them reached the terminator of its own string
  induction k using Nat.strong_induction_on with
  | _ k ih =>
    intro text hk
    have hklt := (List.getElem?_eq_some_iff.mp hk).1
    obtain ⟨j, p, hp, hoff⟩ : ∃ j p, p < maxStrSize ∧ offset reads k = maxStrSize * j + p :=
      ⟨_, _, Nat.mod_lt _ (by decide), (Nat.div_add_mod _ maxStrSize).symm⟩
    have hle := offset_le reads k
    rcases Nat.lt_or_ge j k with hjk | hkj
    · obtain ⟨earlier, hj⟩ : ∃ earlier, texts[j]? = some earlier :=
        ⟨_, List.getElem?_eq_getElem (Nat.lt_trans hjk hklt)⟩
      have hbehind : earlier.bytes.length ≤ p := by
        rcases ih j hjk earlier hj with ⟨haligned, hlen⟩ | ⟨hempty, _⟩
        · have hmono := offset_mono reads hjk
          rw [Nat.succ_eq_add_one, offset] at hmono
          omega
        · simp [hempty]
      obtain ⟨rfl, htext⟩ := eq_length_of_shown hjk hj hp hoff hbehind (h k text hk)
      exact Or.inr ⟨htext, j, earlier, hjk, hj, hp, hoff⟩
    · have hj : maxStrSize * k ≤ maxStrSize * j := Nat.mul_le_mul_left _ hkj
      refine Or.inl ⟨by omega, ?_⟩
      rw [← h k text hk fun _ => 0]
      exact Nat.le_trans (length_shown_le _) (List.length_take_le _ _)

theorem delivered_of_right
    (h : ∀ s, Reachable (Transfer.Step selected options reads) (Transfer.start options) s →
      s.Right selected) :
    ∀ k text, (selected.texts options)[k]? = some text →
      Delivered (selected.texts options) reads k text := by
  refine delivered_of_shown fun k text hk memory => ?_
  obtain ⟨c, hc, rfl⟩ : ∃ c, (requested options)[k]? = some c ∧ selected.field c = text := by
    simpa [Selection.texts] using hk
  have hlt := (List.getElem?_eq_some_iff.mp hc).1
  obtain ⟨s, hreach, hready⟩ := Transfer.reach_ready selected options reads memory hlt.le
  obtain ⟨s', hreach', _, hprinted⟩ := hready.next hc
  exact h s' (hreach.trans hreach') _ hprinted

/-- The client prints the selected strings, whatever follows them in memory and
however the two processes interleave, exactly for these ways to cut the stream. -/
theorem transfer_right_iff (selected : Selection) (options : Bytes) (reads : Nat → ReadSize) :
    (∀ s, Reachable (Transfer.Step selected options reads) (Transfer.start options) s →
      s.Right selected) ↔
    ∀ k text, (selected.texts options)[k]? = some text →
      Delivered (selected.texts options) reads k text := by
  constructor
  · exact delivered_of_right
  · intro hd s hreach
    have hinv := hreach.invariant (Transfer.Invariant selected options reads)
      (fun _ _ _ => Transfer.Invariant.step hd) Transfer.start_invariant
    exact hinv.right

/-- A quote of 257 bytes loses its last one, however TCP cuts the stream. -/
theorem transfer_truncates_quote :
    ¬∀ (selected : Selection) (options : Bytes) (reads : Nat → ReadSize) (s : Transfer),
      Reachable (Transfer.Step selected options reads) (Transfer.start options) s →
      s.Right selected := by
  intro h
  obtain ⟨quote, hquote⟩ : ∃ quote : CString, quote.bytes.length = 257 :=
    ⟨⟨List.replicate 257 'x'.toUInt8, fun hmem => absurd (List.eq_of_mem_replicate hmem)
      (by decide)⟩, List.length_replicate⟩
  have hd := delivered_of_right (h ⟨quote, quote, quote⟩ ['q'.toUInt8]
    fun _ => ⟨256, by decide, by decide⟩) 0 quote rfl
  rcases hd with ⟨_, hlen⟩ | ⟨_, i, _, hi, _⟩
  · rw [hquote] at hlen
    exact absurd hlen (by decide)
  · exact absurd hi (Nat.not_lt_zero i)

end Netsvc.CClientServer
