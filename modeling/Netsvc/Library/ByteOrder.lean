import Mathlib.Algebra.Order.Group.Nat
import Mathlib.Tactic.Ring

/-! Words of four bytes in memory, under either byte order. -/
namespace Netsvc.Library.ByteOrder

/-- The `width` low bytes of `n`, least significant first. -/
def bytesOf : ℕ → ℕ → List UInt8
  | 0, _ => []
  | width + 1, n => UInt8.ofNat n :: bytesOf width (n / 256)

def natOf : List UInt8 → ℕ
  | [] => 0
  | byte :: bytes => byte.toNat + 256 * natOf bytes

@[simp] theorem length_bytesOf (width n : ℕ) : (bytesOf width n).length = width := by
  induction width generalizing n with
  | zero => rfl
  | succ width ih => simp [bytesOf, ih]

theorem natOf_bytesOf (width n : ℕ) : natOf (bytesOf width n) = n % 256 ^ width := by
  induction width generalizing n with
  | zero => simp [bytesOf, natOf, Nat.mod_one]
  | succ width ih =>
    have hbyte : (UInt8.ofNat n).toNat = n % 256 := UInt8.toNat_ofNat'
    unfold bytesOf natOf
    rw [ih, hbyte, pow_succ', Nat.mod_mul]

theorem bytesOf_natOf (bytes : List UInt8) : bytesOf bytes.length (natOf bytes) = bytes := by
  induction bytes with
  | nil => rfl
  | cons byte bytes ih =>
    have hbyte : byte.toNat < 256 := byte.toNat_lt
    have hdiv : (byte.toNat + 256 * natOf bytes) / 256 = natOf bytes := by omega
    have hhead : UInt8.ofNat (byte.toNat + 256 * natOf bytes) = byte := by
      apply UInt8.toNat_inj.mp
      rw [UInt8.toNat_ofNat']
      omega
    change UInt8.ofNat (byte.toNat + 256 * natOf bytes) ::
      bytesOf bytes.length ((byte.toNat + 256 * natOf bytes) / 256) = byte :: bytes
    rw [hdiv, hhead, ih]

theorem natOf_lt (bytes : List UInt8) : natOf bytes < 256 ^ bytes.length := by
  induction bytes with
  | nil => decide
  | cons byte bytes ih =>
    have hbyte : byte.toNat < 256 := byte.toNat_lt
    change byte.toNat + 256 * natOf bytes < 256 ^ (bytes.length + 1)
    rw [pow_succ']
    omega

inductive Order
  | little
  | big
  deriving DecidableEq

def Order.arrange : Order → List UInt8 → List UInt8
  | little, bytes => bytes
  | big, bytes => bytes.reverse

@[simp] theorem Order.arrange_arrange (order : Order) (bytes : List UInt8) :
    order.arrange (order.arrange bytes) = bytes := by
  cases order with
  | little => rfl
  | big => exact List.reverse_reverse bytes

@[simp] theorem Order.length_arrange (order : Order) (bytes : List UInt8) :
    (order.arrange bytes).length = bytes.length := by
  cases order with
  | little => rfl
  | big => exact List.length_reverse

def Order.bytes (order : Order) (word : UInt32) : List UInt8 :=
  order.arrange (bytesOf 4 word.toNat)

def Order.word (order : Order) (bytes : List UInt8) : UInt32 :=
  UInt32.ofNat (natOf (order.arrange bytes))

@[simp] theorem Order.length_bytes (order : Order) (word : UInt32) :
    (order.bytes word).length = 4 := by
  simp [Order.bytes]

@[simp] theorem Order.word_bytes (order : Order) (word : UInt32) :
    order.word (order.bytes word) = word := by
  have hlt : word.toNat < 256 ^ 4 := word.toNat_lt
  unfold Order.word Order.bytes
  rw [Order.arrange_arrange, natOf_bytesOf, Nat.mod_eq_of_lt hlt, UInt32.ofNat_toNat]

theorem Order.bytes_word (order : Order) {bytes : List UInt8} (h : bytes.length = 4) :
    order.bytes (order.word bytes) = bytes := by
  have hlength : (order.arrange bytes).length = 4 := by simp [h]
  have hlt : natOf (order.arrange bytes) < 2 ^ 32 := by
    have hbound := natOf_lt (order.arrange bytes)
    rwa [hlength] at hbound
  have hback := bytesOf_natOf (order.arrange bytes)
  rw [hlength] at hback
  unfold Order.bytes Order.word
  rw [UInt32.toNat_ofNat', Nat.mod_eq_of_lt hlt, hback, Order.arrange_arrange]

/-- The word whose bytes in memory are those of `word`, most significant first. -/
def htonl (order : Order) (word : UInt32) : UInt32 := order.word (Order.big.bytes word)

def ntohl (order : Order) (word : UInt32) : UInt32 := Order.big.word (order.bytes word)

@[simp] theorem bytes_htonl (order : Order) (word : UInt32) :
    order.bytes (htonl order word) = Order.big.bytes word :=
  order.bytes_word (Order.length_bytes _ _)

@[simp] theorem ntohl_word (order : Order) {bytes : List UInt8} (h : bytes.length = 4) :
    ntohl order (order.word bytes) = Order.big.word bytes :=
  congrArg Order.big.word (order.bytes_word h)

end Netsvc.Library.ByteOrder
