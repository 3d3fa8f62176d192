import TopTag.Proofs.Offsets

/-!
# Reading encoded characters back

What was encoded is decoded to itself, also where it is cut out of a longer text: the bytes between
two character boundaries are the encoding of the characters between them.
-/

namespace TopTag

namespace Text.Utf8

/-! ## One character -/

theorem toNat_ofNat_byte {v : Nat} (h : v < 256) : (UInt8.ofNat v).toNat = v :=
  UInt8.toNat_ofNat_of_lt' h

/-- A continuation byte holds six bits of the code. -/
theorem readTail_cons {low high : UInt8} {count code v : Nat} {rest : List UInt8} (hv : v < 64)
    (hlow : low.toNat ≤ v + 128) (hhigh : v + 128 ≤ high.toNat) :
    readTail low high (count + 1) code (.ofNat (v + 128) :: rest) =
      readTail 0x80 0xBF count (code * 64 + v) rest := by
  have hbyte : (UInt8.ofNat (v + 128)).toNat = v + 128 := toNat_ofNat_byte (by omega)
  rw [readTail, if_pos, hbyte, Nat.add_sub_cancel]
  rw [UInt8.le_iff_toNat_le, UInt8.le_iff_toNat_le, hbyte]
  exact ⟨hlow, hhigh⟩

section

variable {low high : UInt8} {code v w : Nat} {rest : List UInt8}

theorem readTail_one (hcode : code * 64 + v % 64 = w) :
    readTail 0x80 0xBF 1 code (.ofNat (v % 64 + 128) :: rest) = (some w, rest) := by
  rw [readTail_cons (by omega) (by simp) (by simp; omega), readTail, hcode]

theorem readTail_two (hlow : low.toNat ≤ v / 64 % 64 + 128)
    (hhigh : v / 64 % 64 + 128 ≤ high.toNat) (hcode : 4096 * code + v % 4096 = w) :
    readTail low high 2 code (.ofNat (v / 64 % 64 + 128) :: .ofNat (v % 64 + 128) :: rest) =
      (some w, rest) := by
  rw [readTail_cons (by omega) hlow hhigh]
  exact readTail_one (by omega)

theorem readTail_three (hlow : low.toNat ≤ v / 4096 % 64 + 128)
    (hhigh : v / 4096 % 64 + 128 ≤ high.toNat) (hcode : 262144 * code + v % 262144 = w) :
    readTail low high 3 code (.ofNat (v / 4096 % 64 + 128) :: .ofNat (v / 64 % 64 + 128) ::
      .ofNat (v % 64 + 128) :: rest) = (some w, rest) := by
  rw [readTail_cons (by omega) hlow hhigh]
  exact readTail_two (by simp) (by simp; omega) (by omega)

/-- Which bytes may follow a lead byte, by its number. -/
theorem readChar_ofNat {lead : Nat} (h : lead < 256) (rest : List UInt8) :
    readChar (.ofNat lead) rest =
      if lead < 128 then (some lead, rest)
      else if 194 ≤ lead ∧ lead ≤ 223 then readTail 0x80 0xBF 1 (lead - 192) rest
      else if lead = 224 then readTail 0xA0 0xBF 2 0 rest
      else if lead = 237 then readTail 0x80 0x9F 2 13 rest
      else if 225 ≤ lead ∧ lead ≤ 239 then readTail 0x80 0xBF 2 (lead - 224) rest
      else if lead = 240 then readTail 0x90 0xBF 3 0 rest
      else if lead = 244 then readTail 0x80 0x8F 3 4 rest
      else if 241 ≤ lead ∧ lead ≤ 243 then readTail 0x80 0xBF 3 (lead - 240) rest
      else (none, rest) := by
  have hlead := toNat_ofNat_byte h
  simp only [readChar, UInt8.lt_iff_toNat_lt, UInt8.le_iff_toNat_le, ← UInt8.toNat_inj, hlead]
  rfl

theorem readChar_two (h : 128 ≤ v) (h' : v < 2048) :
    readChar (.ofNat (v / 64 % 32 + 192)) (.ofNat (v % 64 + 128) :: rest) = (some v, rest) := by
  rw [readChar_ofNat (by omega), if_neg (by omega), if_pos (by omega)]
  exact readTail_one (by omega)

/-- Behind two of the lead bytes the next byte has bounds of its own: codes that have a shorter form
and surrogates are not read. -/
theorem readChar_three (h : 2048 ≤ v) (h' : v < 65536) (hvalid : v < 0xD800 ∨ 0xDFFF < v) :
    readChar (.ofNat (v / 4096 % 16 + 224))
      (.ofNat (v / 64 % 64 + 128) :: .ofNat (v % 64 + 128) :: rest) = (some v, rest) := by
  rw [readChar_ofNat (by omega), if_neg (by omega), if_neg (by omega)]
  split
  · exact readTail_two (by simp; omega) (by simp; omega) (by omega)
  · split
    · exact readTail_two (by simp) (by simp; omega) (by omega)
    · rw [if_pos (by omega)]
      exact readTail_two (by simp) (by simp; omega) (by omega)

theorem readChar_four (h : 65536 ≤ v) (h' : v < 0x110000) :
    readChar (.ofNat (v / 262144 % 8 + 240)) (.ofNat (v / 4096 % 64 + 128) ::
      .ofNat (v / 64 % 64 + 128) :: .ofNat (v % 64 + 128) :: rest) = (some v, rest) := by
  rw [readChar_ofNat (by omega), if_neg (by omega), if_neg (by omega), if_neg (by omega),
    if_neg (by omega), if_neg (by omega)]
  split
  · exact readTail_three (by simp; omega) (by simp; omega) (by omega)
  · split
    · exact readTail_three (by simp) (by simp; omega) (by omega)
    · rw [if_pos (by omega)]
      exact readTail_three (by simp) (by simp; omega) (by omega)

end

/-- A character is read back from its bytes. -/
theorem exists_readChar (c : Char) (rest : List UInt8) : ∃ lead tail,
    String.utf8EncodeChar c = lead :: tail ∧
      readChar lead (tail ++ rest) = (some c.toNat, rest) := by
  have hvalid : c.val.toNat < 0xD800 ∨ 0xDFFF < c.val.toNat ∧ c.val.toNat < 0x110000 := c.valid
  rw [Char.toNat]
  unfold String.utf8EncodeChar
  dsimp only
  split
  · refine ⟨_, _, rfl, ?_⟩
    rw [readChar_ofNat (by omega), if_pos (by omega), List.nil_append]
  · split
    · exact ⟨_, _, rfl, readChar_two (by omega) (by omega)⟩
    · split
      · exact ⟨_, _, rfl, readChar_three (by omega) (by omega) (by omega)⟩
      · exact ⟨_, _, rfl, readChar_four (by omega) (by omega)⟩

theorem decodeLossy_append (c : Char) (rest : List UInt8) :
    decodeLossy (String.utf8EncodeChar c ++ rest) = c :: decodeLossy rest := by
  obtain ⟨lead, tail, hbytes, hread⟩ := exists_readChar c rest
  rw [hbytes, List.cons_append, decodeLossy, hread, Option.map_some, Option.getD_some,
    Char.ofNat_toNat]

theorem decodeLossy_encode (cs : List Char) : decodeLossy (encode cs) = cs := by
  induction cs with
  | nil => rw [encode, List.flatMap_nil, decodeLossy]
  | cons c rest ih => rw [encode, List.flatMap_cons, decodeLossy_append, ← encode, ih]

end Text.Utf8

namespace SourceText

open Text.Utf8 (encode decodeLossy)

/-! ## Pieces of a text -/

theorem encode_cons (c : Char) (rest : List Char) :
    encode (c :: rest) = String.utf8EncodeChar c ++ encode rest := List.flatMap_cons

theorem drop_encode {cs : List Char} {k : Nat} (hk : k ≤ cs.length) :
    (encode cs).drop (byteAt cs k) = encode (cs.drop k) := by
  induction cs generalizing k with
  | nil => simp [encode]
  | cons c rest ih =>
    cases k with
    | zero => rfl
    | succ k =>
      rw [byteAt, encode_cons, ← String.length_utf8EncodeChar, List.drop_length_add_append,
        List.drop_succ_cons, ih (Nat.le_of_succ_le_succ hk)]

theorem take_encode {cs : List Char} {k : Nat} (hk : k ≤ cs.length) :
    (encode cs).take (byteAt cs k) = encode (cs.take k) := by
  induction cs generalizing k with
  | nil => simp [encode]
  | cons c rest ih =>
    cases k with
    | zero => rfl
    | succ k =>
      rw [byteAt, encode_cons, ← String.length_utf8EncodeChar, List.take_length_add_append,
        List.take_succ_cons,
        encode_cons, ih (Nat.le_of_succ_le_succ hk)]

theorem byteAt_add (cs : List Char) (i k : Nat) :
    byteAt cs (i + k) = byteAt cs i + byteAt (cs.drop i) k := by
  induction cs generalizing i with
  | nil => simp [byteAt]
  | cons c rest ih =>
    cases i with
    | zero => simp
    | succ i => rw [Nat.succ_add, byteAt, byteAt, ih, List.drop_succ_cons, Nat.add_assoc]

/-- The bytes between two character boundaries are the encoding of what is between them. -/
theorem extract_encode {cs : List Char} {i j : Nat} (hi : i ≤ cs.length) (hj : j ≤ cs.length) :
    (encode cs).extract (byteAt cs i) (byteAt cs j) = encode (cs.extract i j) := by
  rw [List.extract_eq_take_drop, List.extract_eq_take_drop, drop_encode hi]
  rcases Nat.le_total i j with hij | hji
  · obtain ⟨k, rfl⟩ := Nat.exists_eq_add_of_le hij
    have hk : k ≤ (cs.drop i).length := by
      rw [List.length_drop]
      omega
    rw [byteAt_add, Nat.add_sub_cancel_left, Nat.add_sub_cancel_left, take_encode hk]
  · have hbytes : byteAt cs j ≤ byteAt cs i := (byteAt_le_iff hj hi).mpr hji
    rw [Nat.sub_eq_zero_of_le hbytes, Nat.sub_eq_zero_of_le hji]
    rfl

/-- The text of a range of bytes that begins and ends with a character. -/
theorem slice_byteAt (source : String) {i j : Nat} (hi : i ≤ source.toList.length)
    (hj : j ≤ source.toList.length) :
    (ofString source).slice (byteAt source.toList i) (byteAt source.toList j) =
      source.toList.extract i j := by
  have hbytes : ((ofString source).bytes.extract (byteAt source.toList i)
      (byteAt source.toList j)).toList =
        (encode source.toList).extract (byteAt source.toList i) (byteAt source.toList j) := by
    simp [ofString]
  rw [slice, hbytes, extract_encode hi hj, Text.Utf8.decodeLossy_encode]

end SourceText

end TopTag
