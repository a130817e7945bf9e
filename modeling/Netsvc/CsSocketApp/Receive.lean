import Netsvc.Library.ByteOrder
import Netsvc.Library.Framing

/-! The receive loop of `FibSocketServer.cs` and `FibSocketClient.cs`, the same in
both. The two programs run on one machine, so one byte order serves both. -/
namespace Netsvc.CsSocketApp
open Netsvc.Library.ByteOrder Netsvc.Library.Framing

abbrev Bytes := List UInt8

/-- `BitConverter.GetBytes`, in the order of the machine. -/
def getBytes (order : Order) (value : Int32) : Bytes := order.bytes value.toUInt32

/-- `BitConverter.ToInt32(bytes, 0)`. -/
def toInt32 (order : Order) (bytes : Bytes) : Int32 := (order.word (bytes.take 4)).toInt32

structure Locals where
  bytes : Bytes
  i : Nat

def Locals.start : Locals := ⟨List.replicate 1024 0, 0⟩

/-- `i = Receive(bytes)`: the count and the start of the buffer are overwritten. -/
def Locals.receive (locals : Locals) (segment : Bytes) : Locals :=
  ⟨segment ++ locals.bytes.drop segment.length, segment.length⟩

@[simp] theorem Locals.length_start : Locals.start.bytes.length = 1024 := List.length_replicate

theorem Locals.length_receive (locals : Locals) {segment : Bytes}
    (h : segment.length ≤ locals.bytes.length) :
    (locals.receive segment).bytes.length = locals.bytes.length := by
  unfold Locals.receive
  rw [List.length_append, List.length_drop]
  omega

/-- `while (i < 4)` over what `Receive` returns, with what it has not returned yet.
The loop waits for ever when the segments give out. -/
def receiveLoop (locals : Locals) : List Bytes → Option (Locals × List Bytes)
  | [] => if locals.i < 4 then none else some (locals, [])
  | segment :: later =>
    if locals.i < 4 then receiveLoop (locals.receive segment) later
    else some (locals, segment :: later)

/-- The numbers decoded, round after round, when a message is sent only after the
one before it is decoded. `left` is in the socket from before. -/
def received (order : Order) (left : List Bytes) : List (List Bytes) → List Int32
  | [] => []
  | segments :: later =>
    match receiveLoop .start (left ++ segments) with
    | none => []
    | some (locals, left) => toInt32 order locals.bytes :: received order left later

structure Delivery (order : Order) where
  numb : Int32
  segments : List Bytes
  nonempty : ∀ segment ∈ segments, segment ≠ []
  whole : segments.flatten = getBytes order numb

/-- The loop ends on the last byte, with the message at the start of the buffer. -/
def Delivery.Right {order : Order} (delivery : Delivery order) : Prop :=
  ∃ locals, receiveLoop .start delivery.segments = some (locals, []) ∧
    locals.bytes.take 4 = getBytes order delivery.numb

theorem length_getBytes (order : Order) (value : Int32) : (getBytes order value).length = 4 :=
  order.length_bytes _

theorem toInt32_getBytes (order : Order) (value : Int32) {bytes : Bytes}
    (h : bytes.take 4 = getBytes order value) : toInt32 order bytes = value := by
  unfold toInt32 getBytes at *
  rw [h, Order.word_bytes, Int32.toInt32_toUInt32]

theorem Locals.take_receive (locals : Locals) {segment : Bytes} (h : segment.length = 4) :
    (locals.receive segment).bytes.take 4 = segment :=
  List.take_left' h

theorem receiveLoop_short {locals : Locals} (hi : locals.i < 4) {segments : List Bytes}
    (h : ∀ segment ∈ segments, segment.length < 4) : receiveLoop locals segments = none := by
  induction segments generalizing locals with
  | nil => exact if_pos hi
  | cons segment later ih =>
    unfold receiveLoop
    rw [if_pos hi]
    exact ih (h segment List.mem_cons_self)
      fun other hmem => h other (List.mem_cons_of_mem segment hmem)

theorem receiveLoop_whole {locals : Locals} (hi : locals.i < 4) {segment : Bytes}
    (h : segment.length = 4) :
    receiveLoop locals [segment] = some (locals.receive segment, []) := by
  have hend : ¬(locals.receive segment).i < 4 := by
    change ¬segment.length < 4
    omega
  unfold receiveLoop
  rw [if_pos hi]
  exact if_neg hend

theorem Delivery.right_iff {order : Order} (delivery : Delivery order) :
    delivery.Right ↔ delivery.segments.length = 1 := by
  have hwhole : delivery.segments.flatten.length = 4 := by
    rw [delivery.whole, length_getBytes]
  constructor
  · rintro ⟨locals, hloop, -⟩
    by_contra hcut
    have hshort : ∀ segment ∈ delivery.segments, segment.length < 4 := by
      intro segment hmem
      rw [← hwhole]
      exact length_lt_of_mem_pieces delivery.nonempty hcut hmem
    rw [receiveLoop_short (by decide) hshort] at hloop
    cases hloop
  · intro hone
    obtain ⟨segment, hsegment⟩ := List.length_eq_one_iff.mp hone
    have hmessage : segment = getBytes order delivery.numb := by
      rw [← delivery.whole, hsegment, List.flatten_singleton]
    have hlength : segment.length = 4 := by rw [hmessage, length_getBytes]
    refine ⟨Locals.start.receive segment, ?_, ?_⟩
    · rw [hsegment]
      exact receiveLoop_whole (by decide) hlength
    · rw [← hmessage]
      exact Locals.take_receive _ hlength

theorem received_of_right {order : Order} {deliveries : List (Delivery order)}
    (h : ∀ delivery ∈ deliveries, delivery.Right) :
    received order [] (deliveries.map Delivery.segments) = deliveries.map Delivery.numb := by
  induction deliveries with
  | nil => rfl
  | cons delivery deliveries ih =>
    obtain ⟨⟨locals, hloop, hbytes⟩, hrest⟩ := List.forall_mem_cons.mp h
    rw [List.map_cons, List.map_cons, received, List.nil_append, hloop]
    exact congrArg₂ List.cons (toInt32_getBytes order delivery.numb hbytes) (ih hrest)

/-- The loop of each round survives exactly the cuts that are none. -/
theorem received_right_iff (order : Order) (deliveries : List (Delivery order)) :
    ((∀ delivery ∈ deliveries, delivery.Right) ∧
      received order [] (deliveries.map Delivery.segments) = deliveries.map Delivery.numb) ↔
      ∀ delivery ∈ deliveries, delivery.segments.length = 1 := by
  constructor
  · rintro ⟨hright, -⟩ delivery hmem
    exact delivery.right_iff.mp (hright delivery hmem)
  · intro hone
    have hright : ∀ delivery ∈ deliveries, delivery.Right :=
      fun delivery hmem => delivery.right_iff.mpr (hone delivery hmem)
    exact ⟨hright, received_of_right hright⟩

/-- The opening 1, cut after its first byte: `i` is 1 and then 3, and the loop
goes on waiting. -/
theorem received_split_one :
    ¬∀ (order : Order) (deliveries : List (Delivery order)),
      (∀ delivery ∈ deliveries, delivery.Right) ∧
        received order [] (deliveries.map Delivery.segments) = deliveries.map Delivery.numb := by
  intro hall
  have hreceived := (hall .little [⟨1, [[1], [0, 0, 0]], by decide, by decide⟩]).2
  exact absurd hreceived (by decide)

end Netsvc.CsSocketApp
