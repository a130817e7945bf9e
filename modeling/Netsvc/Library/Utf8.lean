import Mathlib.Data.List.Basic

/-! The UTF-8 encoding of a text, each byte as the character of its value. -/
namespace Netsvc.Library.Utf8

def byteChar (b : UInt8) : Char := Char.ofNat b.toNat

def charBytes (c : Char) : List Char := (String.utf8EncodeChar c).map byteChar

def utf8 (text : List Char) : List Char := text.flatMap charBytes

theorem toNat_byteChar (b : UInt8) : (byteChar b).toNat = b.toNat := by
  have hb := b.toNat_lt
  have hvalid : b.toNat.isValidChar := Or.inl (by omega)
  unfold byteChar Char.ofNat
  rw [dif_pos hvalid]
  rfl

theorem charBytes_of_ascii {c : Char} (h : c.toNat < 128) : charBytes c = [c] := by
  have hle : c.val.toNat ≤ 0x7f := Nat.le_of_lt_succ h
  have hcode : String.utf8EncodeChar c = [UInt8.ofNat c.toNat] := by
    unfold String.utf8EncodeChar
    exact if_pos hle
  rw [charBytes, hcode, List.map_singleton]
  refine congrArg (fun d => [d]) (Char.toNat_inj.mp ?_)
  rw [toNat_byteChar, UInt8.toNat_ofNat']
  exact Nat.mod_eq_of_lt (by omega)

theorem le_toNat_of_mem_charBytes {c d : Char} (h : 128 ≤ c.toNat) (hd : d ∈ charBytes c) :
    128 ≤ d.toNat := by
  obtain ⟨b, hb, rfl⟩ := List.mem_map.mp hd
  rw [toNat_byteChar]
  have hlt : ¬c.val.toNat ≤ 0x7f := Nat.not_le_of_lt (Nat.lt_of_succ_le h)
  unfold String.utf8EncodeChar at hb
  simp only [if_neg hlt] at hb
  split_ifs at hb <;> simp only [List.mem_cons, List.not_mem_nil, or_false] at hb <;>
    rcases hb with rfl | rfl | rfl | rfl <;> simp only [UInt8.toNat_ofNat'] <;> omega

theorem two_le_length_charBytes {c : Char} (h : 128 ≤ c.toNat) : 2 ≤ (charBytes c).length := by
  have hlt : ¬c.val.toNat ≤ 0x7f := Nat.not_le_of_lt (Nat.lt_of_succ_le h)
  rw [charBytes, List.length_map]
  unfold String.utf8EncodeChar
  simp only [if_neg hlt]
  split_ifs <;> simp

theorem utf8_cons (c : Char) (text : List Char) : utf8 (c :: text) = charBytes c ++ utf8 text :=
  List.flatMap_cons

theorem utf8_cons_of_ascii {c : Char} (h : c.toNat < 128) (text : List Char) :
    utf8 (c :: text) = c :: utf8 text := by
  rw [utf8_cons, charBytes_of_ascii h, List.singleton_append]

theorem utf8_append (left right : List Char) : utf8 (left ++ right) = utf8 left ++ utf8 right :=
  List.flatMap_append

theorem mem_utf8_iff {c : Char} (h : c.toNat < 128) {text : List Char} :
    c ∈ utf8 text ↔ c ∈ text := by
  refine List.mem_flatMap.trans ⟨?_, fun hc => ⟨c, hc, ?_⟩⟩
  · rintro ⟨d, hd, hc⟩
    rcases Nat.lt_or_ge d.toNat 128 with hlt | hge
    · rw [charBytes_of_ascii hlt, List.mem_singleton] at hc
      exact hc ▸ hd
    · exact absurd (le_toNat_of_mem_charBytes hge hc) (Nat.not_le_of_lt h)
  · rw [charBytes_of_ascii h]
    exact List.mem_singleton_self c

theorem head?_utf8_iff {c : Char} (h : c.toNat < 128) {text : List Char} :
    (utf8 text).head? = some c ↔ text.head? = some c := by
  cases text with
  | nil => rfl
  | cons d text =>
    rcases Nat.lt_or_ge d.toNat 128 with hlt | hge
    · rw [utf8_cons_of_ascii hlt, List.head?_cons, List.head?_cons]
    · have hpos := two_le_length_charBytes hge
      obtain ⟨b, rest, hbytes⟩ := List.exists_cons_of_length_pos (Nat.lt_of_succ_lt hpos)
      have hb := le_toNat_of_mem_charBytes hge (hbytes ▸ List.mem_cons_self)
      rw [utf8_cons, hbytes, List.cons_append, List.head?_cons, List.head?_cons,
        Option.some_inj, Option.some_inj]
      constructor
      · rintro rfl
        exact absurd h (Nat.not_lt_of_le hb)
      · rintro rfl
        exact absurd h (Nat.not_lt_of_le hge)

theorem length_le_utf8 (text : List Char) : text.length ≤ (utf8 text).length := by
  induction text with
  | nil => exact Nat.le_refl _
  | cons c text ih =>
    have hpos : 1 ≤ (charBytes c).length := by
      rcases Nat.lt_or_ge c.toNat 128 with hlt | hge
      · rw [charBytes_of_ascii hlt]
        exact Nat.le_refl _
      · exact Nat.le_of_succ_le (two_le_length_charBytes hge)
    rw [utf8_cons, List.length_append, List.length_cons]
    omega

theorem length_utf8_eq_iff {text : List Char} :
    (utf8 text).length = text.length ↔ ∀ c ∈ text, c.toNat < 128 := by
  induction text with
  | nil => simp [utf8]
  | cons c text ih =>
    have hle := length_le_utf8 text
    rw [List.forall_mem_cons, ← ih, utf8_cons, List.length_append, List.length_cons]
    rcases Nat.lt_or_ge c.toNat 128 with hlt | hge
    · rw [charBytes_of_ascii hlt, List.length_singleton]
      omega
    · have hbytes := two_le_length_charBytes hge
      omega

end Netsvc.Library.Utf8
