import Mathlib.Data.List.TakeWhile
import Netsvc.BroadcastCpuTemp.Monitor

/-! What the servers of `server.c`, `broadcast.cpp` and `CpuBroadcast.java` show of the
same datagrams, and the datagrams their clients send. -/
namespace Netsvc.BroadcastCpuTemp
open Netsvc.Library.Binary64 Netsvc.Library.Decimal

abbrev Bytes := List UInt8

def recvInto (buffer datagram : Bytes) : Bytes :=
  datagram.take buffer.length ++ buffer.drop datagram.length

/-- `read_from_udp_socket` clears the buffer first. -/
def readFromUdpSocket (data datagram : Bytes) : Bytes :=
  recvInto (List.replicate data.length 0) datagram

/-- What `%s` prints, unless it reads on past the end of the buffer. -/
def percentS (data : Bytes) : Option Bytes :=
  if 0 ∈ data then some (data.takeWhile (· ≠ 0)) else none

/-- The loop of `server.c`, whose buffer `msg` serves every datagram. -/
def serverC (msg : Bytes) : List Bytes → List (Option Bytes)
  | [] => []
  | datagram :: datagrams =>
    percentS (readFromUdpSocket msg datagram) :: serverC (readFromUdpSocket msg datagram) datagrams

/-- The loop of `broadcast.cpp`. -/
def serverCpp (datagrams : List Bytes) : List Bytes := datagrams.map (·.take 1024)

/-- `(char) a[i]`: the byte is signed. -/
def charOfByte (byte : UInt8) : Char := Char.ofNat byte.toInt8.toInt16.toUInt16.toNat

/-- `data`: the array has no zero where this is `none`. -/
def data : Bytes → Option (List Char)
  | [] => none
  | byte :: bytes => if byte = 0 then some [] else (data bytes).map (charOfByte byte :: ·)

/-- The loop of `Server`, with a new array for every datagram. -/
def serverJava (datagrams : List Bytes) : List (Option (List Char)) :=
  datagrams.map fun datagram => data (recvInto (List.replicate 65535 0) datagram)

def latin (bytes : Bytes) : List Char := bytes.map fun byte => Char.ofNat byte.toNat

structure Plain (datagram : Bytes) : Prop where
  nonzero : 0 ∉ datagram
  length_lt : datagram.length < 512
  ascii : ∀ byte ∈ datagram, byte < 128

theorem recvInto_replicate (size : ℕ) (datagram : Bytes) :
    recvInto (List.replicate size 0) datagram =
      datagram.take size ++ List.replicate (size - datagram.length) 0 := by
  unfold recvInto
  rw [List.length_replicate, List.drop_replicate]

theorem length_readFromUdpSocket (msg datagram : Bytes) :
    (readFromUdpSocket msg datagram).length = msg.length := by
  unfold readFromUdpSocket
  rw [recvInto_replicate, List.length_append, List.length_take, List.length_replicate]
  omega

theorem serverC_eq_map (msg : Bytes) (datagrams : List Bytes) :
    serverC msg datagrams = datagrams.map fun datagram =>
      percentS (datagram.take msg.length ++ List.replicate (msg.length - datagram.length) 0) := by
  induction datagrams generalizing msg with
  | nil => rfl
  | cons datagram datagrams ih =>
    rw [serverC, ih, length_readFromUdpSocket, List.map_cons]
    unfold readFromUdpSocket
    rw [recvInto_replicate]

theorem takeWhile_of_notMem {bytes : Bytes} (h : 0 ∉ bytes) (rest : Bytes) :
    (bytes ++ 0 :: rest).takeWhile (· ≠ 0) = bytes := by
  rw [List.takeWhile_append_of_pos]
  · simp
  · intro byte hbyte
    have hne : byte ≠ 0 := by
      rintro rfl
      exact h hbyte
    simpa using hne

theorem percentS_eq_iff {size : ℕ} {datagram : Bytes} :
    percentS (datagram.take size ++ List.replicate (size - datagram.length) 0) = some datagram ↔
      0 ∉ datagram ∧ datagram.length < size := by
  constructor
  · intro hshown
    unfold percentS at hshown
    split_ifs at hshown with hmem
    rw [Option.some_inj] at hshown
    have hzero : 0 ∉ datagram := by
      rw [← hshown]
      intro hin
      have hne := List.mem_takeWhile_imp hin
      simp at hne
    refine ⟨hzero, ?_⟩
    by_contra hlong
    rw [Nat.sub_eq_zero_of_le (Nat.not_lt.mp hlong), List.replicate_zero, List.append_nil] at hmem
    exact hzero (List.mem_of_mem_take hmem)
  · rintro ⟨hzero, hlt⟩
    obtain ⟨rest, hrest⟩ : ∃ rest, size - datagram.length = rest + 1 :=
      ⟨size - datagram.length - 1, by omega⟩
    unfold percentS
    rw [List.take_of_length_le hlt.le, hrest, List.replicate_succ, if_pos (by simp),
      takeWhile_of_notMem hzero]

theorem data_append_zero {bytes : Bytes} (h : 0 ∉ bytes) (rest : Bytes) :
    data (bytes ++ 0 :: rest) = some (bytes.map charOfByte) := by
  induction bytes with
  | nil => rfl
  | cons byte bytes ih =>
    obtain ⟨hne, hrest⟩ := not_or.mp (mt List.mem_cons.mpr h)
    rw [List.cons_append, data, if_neg (Ne.symm hne), ih hrest]
    rfl

theorem charOfByte_eq_iff (byte : UInt8) :
    charOfByte byte = Char.ofNat byte.toNat ↔ byte < 128 := by
  have hall : ∀ n : Fin 256,
      charOfByte ⟨⟨n⟩⟩ = Char.ofNat n.val ↔ (⟨⟨n⟩⟩ : UInt8) < 128 := by decide +kernel
  exact hall byte.toFin

theorem data_eq_iff {size : ℕ} {datagram : Bytes} (hzero : 0 ∉ datagram)
    (hlt : datagram.length < size) :
    data (recvInto (List.replicate size 0) datagram) = some (latin datagram) ↔
      ∀ byte ∈ datagram, byte < 128 := by
  obtain ⟨rest, hrest⟩ : ∃ rest, size - datagram.length = rest + 1 :=
    ⟨size - datagram.length - 1, by omega⟩
  rw [recvInto_replicate, List.take_of_length_le hlt.le, hrest, List.replicate_succ,
    data_append_zero hzero, Option.some_inj]
  unfold latin
  rw [List.map_inj_left]
  exact forall₂_congr fun byte _ => charOfByte_eq_iff byte

theorem plain_iff (datagram : Bytes) : Plain datagram ↔
    percentS (datagram.take 512 ++ List.replicate (512 - datagram.length) 0) = some datagram ∧
      datagram.take 1024 = datagram ∧
      data (recvInto (List.replicate 65535 0) datagram) = some (latin datagram) := by
  rw [percentS_eq_iff]
  constructor
  · intro h
    have hlt := h.length_lt
    refine ⟨⟨h.nonzero, hlt⟩, List.take_of_length_le (by omega), ?_⟩
    exact (data_eq_iff h.nonzero (by omega)).mpr h.ascii
  · rintro ⟨⟨hzero, hlt⟩, -, hdata⟩
    exact ⟨hzero, hlt, (data_eq_iff hzero (by omega)).mp hdata⟩

/-- The three servers show the same, in every run, exactly for datagrams of fewer than
512 bytes that are all ASCII and not zero. -/
theorem servers_agree_iff (msg : Bytes) (hmsg : msg.length = 512) (datagrams : List Bytes) :
    (serverC msg datagrams = datagrams.map some ∧ serverCpp datagrams = datagrams ∧
      serverJava datagrams = datagrams.map fun datagram => some (latin datagram)) ↔
    ∀ datagram ∈ datagrams, Plain datagram := by
  have hsame : serverCpp datagrams = datagrams ↔
      ∀ datagram ∈ datagrams, datagram.take 1024 = datagram := by
    have hid := List.map_inj_left (l := datagrams) (f := (·.take 1024)) (g := id)
    rwa [List.map_id] at hid
  rw [serverC_eq_map, hmsg, List.map_inj_left, hsame]
  unfold serverJava
  rw [List.map_inj_left]
  constructor
  · rintro ⟨hc, hcpp, hjava⟩ datagram hmem
    exact (plain_iff datagram).mpr ⟨hc _ hmem, hcpp _ hmem, hjava _ hmem⟩
  · intro hplain
    have hall datagram hmem := (plain_iff datagram).mp (hplain datagram hmem)
    exact ⟨fun d hd => (hall d hd).1, fun d hd => (hall d hd).2.1, fun d hd => (hall d hd).2.2⟩

theorem servers_agree_iff_ones :
    serverC (List.replicate 512 1) [[50, 53], [57]] = [some [50, 53], some [57]] := by
  refine ((servers_agree_iff (List.replicate 512 1) List.length_replicate _).mpr ?_).1
  intro datagram hmem
  rcases List.mem_pair.mp hmem with rfl | rfl
  · exact ⟨by decide, by decide, by simp⟩
  · exact ⟨by decide, by decide, by simp⟩

/-- `temp.getBytes()` and `message.data()` of an ASCII text. -/
def bytesOf (text : Text) : Bytes := text.map fun c => UInt8.ofNat c.toNat

/-- `GetLoad`, in a locale that writes a decimal point. -/
def getLoad (load : ℚ) : Text := fixed 2 (nearest (load * 100))

/-- What the clients of `broadcast.cpp` and `CpuBroadcast.java` send. Nothing is sent by
the one of `client.c`: it passes `sendto` an address of zeros. -/
inductive ClientText (nanSigned : Bool) : Text → Prop
  | cpp (last total : Sample) :
      ClientText nanSigned (usageStr nanSigned (getCurrentDouble last total).1)
  | java {load : ℚ} (h : |load| ≤ 1) : ClientText nanSigned (getLoad load)

section Texts
variable {nanSigned : Bool} {text : Text}

theorem ascii_of_mem_fixed {places : ℕ} {q : ℚ} {c : Char} (h : c ∈ fixed places q) :
    0 < c.toNat ∧ c.toNat < 128 := by
  rcases mem_fixed h with rfl | rfl | hdigit
  · decide
  · decide
  · simp only [Char.isDigit, Bool.and_eq_true, decide_eq_true_eq, ge_iff_le,
      UInt32.le_iff_toNat_le] at hdigit
    have hlo : 48 ≤ c.toNat := hdigit.1
    have hhi : c.toNat ≤ 57 := hdigit.2
    omega

theorem ascii_of_mem_usageStr {usage : Double} {c : Char} (h : c ∈ usageStr nanSigned usage) :
    0 < c.toNat ∧ c.toNat < 128 := by
  have hletters : ∀ text ∈ [['-', 'n', 'a', 'n'], ['n', 'a', 'n'], ['i', 'n', 'f']],
      ∀ c ∈ text, 0 < c.toNat ∧ c.toNat < 128 := by simp
  cases usage with
  | nan =>
    refine hletters _ ?_ c h
    cases nanSigned <;> simp [usageStr]
  | inf => exact hletters _ (by simp [usageStr]) c h
  | finite cpuUsage => exact ascii_of_mem_fixed h

theorem ClientText.ascii (h : ClientText nanSigned text) {c : Char} (hc : c ∈ text) :
    0 < c.toNat ∧ c.toNat < 128 := by
  cases h with
  | cpp => exact ascii_of_mem_usageStr hc
  | java => exact ascii_of_mem_fixed hc

theorem length_fixed_lt {places : ℕ} {q : ℚ} (hplaces : 0 < places) (hle : places ≤ 6)
    (h : |q| < 10 ^ 23) : (fixed places q).length < 512 := by
  have hlength := length_fixed_le hplaces h
  omega

theorem abs_getLoad_lt {load : ℚ} (h : |load| ≤ 1) : |nearest (load * 100)| < 10 ^ 23 := by
  have hproduct : |load * 100| ≤ 100 := by
    rw [abs_mul]
    norm_num
    linarith
  have hnear := abs_nearest_sub_le hproduct (by norm_num)
  calc |nearest (load * 100)| = |(nearest (load * 100) - load * 100) + load * 100| := by
        rw [sub_add_cancel]
    _ ≤ |nearest (load * 100) - load * 100| + |load * 100| := abs_add_le _ _
    _ ≤ 100 / 2 ^ 52 + 100 := add_le_add hnear hproduct
    _ < 10 ^ 23 := by norm_num

theorem ClientText.length_lt (h : ClientText nanSigned text) : text.length < 512 := by
  cases h with
  | java h => exact length_fixed_lt (by decide) (by decide) (abs_getLoad_lt h)
  | cpp last total =>
    cases hvalue : (getCurrentDouble last total).1 with
    | nan => cases nanSigned <;> decide
    | inf =>
      change 3 < 512
      decide
    | finite v => exact length_fixed_lt (by decide) (by decide) (getCurrentDouble_abs_lt hvalue)

theorem toNat_ofNat_toNat {c : Char} (h : c.toNat < 128) :
    (UInt8.ofNat c.toNat).toNat = c.toNat := by
  rw [UInt8.toNat_ofNat']
  omega

theorem ClientText.plain (h : ClientText nanSigned text) : Plain (bytesOf text) where
  nonzero := by
    intro hzero
    obtain ⟨c, hc, hbyte⟩ := List.mem_map.mp hzero
    have hvalue := toNat_ofNat_toNat (h.ascii hc).2
    rw [hbyte] at hvalue
    exact (h.ascii hc).1.ne hvalue
  length_lt := by
    unfold bytesOf
    rw [List.length_map]
    exact h.length_lt
  ascii := by
    intro byte hbyte
    obtain ⟨c, hc, rfl⟩ := List.mem_map.mp hbyte
    apply UInt8.lt_iff_toNat_lt.mpr
    rw [toNat_ofNat_toNat (h.ascii hc).2]
    exact (h.ascii hc).2

theorem ClientText.latin_bytesOf (h : ClientText nanSigned text) : latin (bytesOf text) = text := by
  unfold latin bytesOf
  rw [List.map_map]
  refine (List.map_congr_left fun c hc => ?_).trans (List.map_id text)
  change Char.ofNat (UInt8.ofNat c.toNat).toNat = c
  rw [toNat_ofNat_toNat (h.ascii hc).2, Char.ofNat_toNat]

end Texts

/-- Each of the three servers shows what either client sends. -/
theorem servers_show_clients (msg : Bytes) (hmsg : msg.length = 512) (nanSigned : Bool)
    (texts : List Text) (hclients : ∀ text ∈ texts, ClientText nanSigned text) :
    serverC msg (texts.map bytesOf) = texts.map (fun text => some (bytesOf text)) ∧
      serverCpp (texts.map bytesOf) = texts.map bytesOf ∧
      serverJava (texts.map bytesOf) = texts.map some := by
  have hshown text hmem := (plain_iff (bytesOf text)).mp (hclients text hmem).plain
  rw [serverC_eq_map, hmsg]
  unfold serverCpp serverJava
  simp only [List.map_map, Function.comp_def]
  refine ⟨?_, ?_, ?_⟩
  · exact List.map_congr_left fun text hmem => (hshown text hmem).1
  · exact List.map_congr_left fun text hmem => (hshown text hmem).2.1
  · refine List.map_congr_left fun text hmem => ?_
    rw [(hshown text hmem).2.2, (hclients text hmem).latin_bytesOf]

theorem servers_show_clients_three :
    serverCpp ([usageStr false (getCurrentDouble Sample.zero ⟨1, 0, 0, 2⟩).1,
        usageStr false (getCurrentDouble Sample.zero ⟨2, 0, 0, 18446744073709551614⟩).1,
        getLoad (1 / 3)].map bytesOf) =
      ["33.333333".toList, "inf".toList, "33.33".toList].map bytesOf := by
  have hjava : ClientText false (getLoad (1 / 3)) := .java (by norm_num)
  have hwrapped : ClientText false _ := .cpp Sample.zero ⟨2, 0, 0, 18446744073709551614⟩
  have hshown := servers_show_clients (List.replicate 512 1) List.length_replicate false _
    (List.forall_mem_cons.mpr ⟨.cpp Sample.zero ⟨1, 0, 0, 2⟩,
      List.forall_mem_cons.mpr ⟨hwrapped, List.forall_mem_singleton.mpr hjava⟩⟩)
  refine hshown.2.1.trans ?_
  decide +kernel

end Netsvc.BroadcastCpuTemp
