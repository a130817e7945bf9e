import Netsvc.Library.ByteOrder

/-! `networking.h` of the socket application: what `write_to_socket` puts on the
wire, and what `read_from_socket` leaves in the caller's buffer. -/
namespace Netsvc.CSocketApp
open Netsvc.Library.ByteOrder

abbrev Bytes := List UInt8

/-- `sizeof(uint32_t)`, and `sizeof(int)` too. -/
def wordSize : Nat := 4

/-- The bytes handed to `write`; `data` is the memory from the argument on. -/
def writeToSocket (order : Order) (data : Bytes) (dataSize : Nat) : Bytes :=
  if dataSize ≤ wordSize then
    (order.bytes (htonl order (order.word (data.take wordSize)))).take dataSize
  else data.take dataSize

def overwrite (data bytes : Bytes) : Bytes := bytes ++ data.drop bytes.length

/-- `data` after the call, when `recv` or `read` had `received` to give. The word
that is converted is not the received one, and only the local pointer sees it. -/
def readFromSocket (data : Bytes) (dataSize : Nat) (received : Bytes) : Bytes :=
  if dataSize ≤ wordSize then overwrite data (received.take dataSize)
  else overwrite (overwrite data (List.replicate dataSize 0)) (received.take dataSize)

def intBytes (order : Order) (value : Int32) : Bytes := order.bytes value.toUInt32

def intOf (order : Order) (bytes : Bytes) : Int32 := (order.word bytes).toInt32

def sendInt (order : Order) (value : Int32) : Bytes :=
  writeToSocket order (intBytes order value) wordSize

def receiveInt (order : Order) (value : Int32) (received : Bytes) : Int32 :=
  intOf order (readFromSocket (intBytes order value) wordSize received)

def ntohlInt (order : Order) (value : Int32) : Int32 := (ntohl order value.toUInt32).toInt32

theorem sendInt_eq (order : Order) (value : Int32) :
    sendInt order value = Order.big.bytes value.toUInt32 := by
  have hword : (order.bytes value.toUInt32).take wordSize = order.bytes value.toUInt32 :=
    List.take_of_length_le (by simp [wordSize])
  unfold sendInt writeToSocket intBytes
  rw [if_pos le_rfl, hword, Order.word_bytes, bytes_htonl]
  exact List.take_of_length_le (by simp [wordSize])

theorem receiveInt_eq (order : Order) (value : Int32) {received : Bytes}
    (h : received.length = wordSize) : receiveInt order value received = intOf order received := by
  have htake : received.take wordSize = received := List.take_of_length_le h.le
  have hdrop : (intBytes order value).drop received.length = [] := by
    apply List.drop_eq_nil_of_le
    simp [intBytes, h, wordSize]
  unfold receiveInt readFromSocket overwrite
  rw [if_pos le_rfl, htake, hdrop, List.append_nil]

theorem ntohlInt_receiveInt_sendInt (sender receiver : Order) (value before : Int32) :
    ntohlInt receiver (receiveInt receiver before (sendInt sender value)) = value := by
  have hlength : (Order.big.bytes value.toUInt32).length = 4 := Order.length_bytes _ _
  rw [sendInt_eq, receiveInt_eq receiver before hlength]
  unfold ntohlInt intOf
  rw [UInt32.toUInt32_toInt32, ntohl_word receiver hlength, Order.word_bytes,
    Int32.toInt32_toUInt32]

/-- The memory from a buffer on, as far as the word at its address can reach. -/
def memoryFrom (data : Bytes) (after : ℕ → UInt8) : Bytes := data ++ (List.range wordSize).map after

section RoundTrip
variable (data buffer : Bytes) (after : ℕ → UInt8)

theorem wordSize_le_length_memoryFrom : wordSize ≤ (memoryFrom data after).length := by
  simp [memoryFrom]

theorem take_memoryFrom : (memoryFrom data after).take data.length = data :=
  List.take_left

theorem big_bytes_little_word {bytes : Bytes} (h : bytes.length = 4) :
    Order.big.bytes (Order.little.word bytes) = bytes.reverse :=
  congrArg List.reverse (Order.little.bytes_word h)

theorem writeToSocket_little (h : data.length ≤ wordSize) :
    writeToSocket .little (memoryFrom data after) data.length =
      ((memoryFrom data after).take wordSize).reverse.take data.length := by
  have hword : ((memoryFrom data after).take wordSize).length = 4 :=
    List.length_take_of_le (wordSize_le_length_memoryFrom data after)
  unfold writeToSocket
  rw [if_pos h, bytes_htonl, big_bytes_little_word hword]

theorem take_overwrite {bytes : Bytes} : (overwrite data bytes).take bytes.length = bytes :=
  List.take_left

theorem take_readFromSocket {received : Bytes} {size : ℕ} (h : received.length = size) :
    (readFromSocket buffer size received).take size = received := by
  subst h
  unfold readFromSocket
  rw [List.take_length]
  split_ifs
  · exact take_overwrite buffer
  · exact take_overwrite _

theorem writeToSocket_of_lt (order : Order) (h : wordSize < data.length) :
    writeToSocket order (memoryFrom data after) data.length = data := by
  unfold writeToSocket
  rw [if_neg (Nat.not_le_of_lt h), take_memoryFrom]

theorem length_writeToSocket_little :
    (writeToSocket .little (memoryFrom data after) data.length).length = data.length := by
  rcases Nat.lt_or_ge wordSize data.length with hlong | hshort
  · rw [writeToSocket_of_lt data after .little hlong]
  · rw [writeToSocket_little data after hshort]
    apply List.length_take_of_le
    rw [List.length_reverse, List.length_take_of_le (wordSize_le_length_memoryFrom data after)]
    exact hshort

theorem getElem?_writeToSocket_little (h : data.length ≤ wordSize) {i : ℕ}
    (hi : i < data.length) :
    (writeToSocket .little (memoryFrom data after) data.length)[i]? =
      (memoryFrom data after)[3 - i]? := by
  have hword : ((memoryFrom data after).take wordSize).length = 4 :=
    List.length_take_of_le (wordSize_le_length_memoryFrom data after)
  have hlt : i < 4 := Nat.lt_of_lt_of_le hi h
  rw [writeToSocket_little data after h, List.getElem?_take_of_lt hi,
    List.getElem?_reverse (by omega), hword, List.getElem?_take_of_lt (by unfold wordSize; omega)]

/-- What one side writes the other reads, on little-endian hosts, if the message is
longer than a word or its bytes mirror the word at its address. -/
theorem readFromSocket_writeToSocket_iff :
    (readFromSocket buffer data.length
        (writeToSocket .little (memoryFrom data after) data.length)).take data.length = data ↔
      wordSize < data.length ∨
        ∀ i < data.length, (memoryFrom data after)[3 - i]? = (memoryFrom data after)[i]? := by
  rw [take_readFromSocket buffer (length_writeToSocket_little data after)]
  rcases Nat.lt_or_ge wordSize data.length with hlong | hshort
  · exact iff_of_true (writeToSocket_of_lt data after .little hlong) (.inl hlong)
  · have hdata : ∀ i < data.length, (memoryFrom data after)[i]? = data[i]? := by
      intro i hi
      exact List.getElem?_append_left hi
    rw [or_iff_right (Nat.not_lt_of_le hshort)]
    constructor
    · intro h i hi
      rw [← getElem?_writeToSocket_little data after hshort hi, h, hdata i hi]
    · intro h
      apply List.ext_getElem?
      intro i
      rcases Nat.lt_or_ge i data.length with hi | hge
      · rw [getElem?_writeToSocket_little data after hshort hi, h i hi, hdata i hi]
      · rw [List.getElem?_eq_none hge,
          List.getElem?_eq_none ((length_writeToSocket_little data after).trans_le hge)]

theorem readFromSocket_writeToSocket_char :
    ¬∀ (data buffer : Bytes) (after : ℕ → UInt8), 1 ≤ data.length →
      (readFromSocket buffer data.length
        (writeToSocket .little (memoryFrom data after) data.length)).take data.length = data := by
  intro hall
  exact absurd (hall [101] [0] (fun _ => 0) (by decide)) (by decide)

end RoundTrip

end Netsvc.CSocketApp
