import TopTag.Proofs.Decoding

/-!
# The index of characters

Which character a byte belongs to, said without the table: as many characters come before it as end
at or before it (`endedBy`). The table, which has an entry for each byte and one for the end, holds
this number, and so does the answer given without a table for a text that is ASCII.
-/

namespace TopTag

namespace SourceText

/-- The number of characters whose bytes end at or before the given byte. -/
def endedBy (cs : List Char) (b : Nat) : Nat :=
  (List.range cs.length).countP fun k => byteAt cs (k + 1) ≤ b

/-- The text with its table of characters, also where the table is not needed. -/
def withTable (source : String) : SourceText :=
  { ofString source with index := some (byteIndex 0 source.toList).toArray }

theorem endedBy_cons_of_lt {c : Char} {rest : List Char} {b : Nat} (h : b < c.utf8Size) :
    endedBy (c :: rest) b = 0 := by
  rw [endedBy, List.countP_eq_zero]
  intro k _ hk
  have hle := of_decide_eq_true hk
  rw [byteAt] at hle
  omega

theorem endedBy_cons_of_le {c : Char} {rest : List Char} {b : Nat} (h : c.utf8Size ≤ b) :
    endedBy (c :: rest) b = endedBy rest (b - c.utf8Size) + 1 := by
  have hfirst : byteAt (c :: rest) (0 + 1) ≤ b := by
    rw [byteAt, byteAt_zero]
    exact h
  have hlater : ((fun k => decide (byteAt (c :: rest) (k + 1) ≤ b)) ∘ Nat.succ) =
      fun k => decide (byteAt rest (k + 1) ≤ b - c.utf8Size) := by
    funext k
    rw [Function.comp, decide_eq_decide, Nat.succ_eq_add_one, byteAt]
    omega
  rw [endedBy, List.length_cons, List.range_succ_eq_map, List.countP_cons, List.countP_map, hlater,
    if_pos (decide_eq_true hfirst), endedBy]

/-- The entry for a byte is the number of characters ended by it. -/
theorem getElem?_byteIndex (i : Nat) {cs : List Char} {b : Nat} (h : b ≤ byteAt cs cs.length) :
    (byteIndex i cs)[b]? = some (i + endedBy cs b) := by
  induction cs generalizing i b with
  | nil =>
    obtain rfl : b = 0 := Nat.le_zero.mp h
    rfl
  | cons c rest ih =>
    have hsize := String.length_utf8EncodeChar c
    rw [List.length_cons, byteAt] at h
    rw [byteIndex, hsize]
    by_cases hb : b < c.utf8Size
    · rw [endedBy_cons_of_lt hb, List.getElem?_append_left (by simpa using hb),
        List.getElem?_replicate, if_pos hb, Nat.add_zero]
    · have hle : c.utf8Size ≤ b := Nat.le_of_not_lt hb
      rw [endedBy_cons_of_le hle, List.getElem?_append_right (by simpa using hle),
        List.length_replicate, ih (i + 1) (by omega)]
      congr 1
      omega

variable {source : String} {b : Nat}

theorem le_byteAt_length (h : b ≤ source.utf8ByteSize) :
    b ≤ byteAt source.toList source.toList.length := by
  rwa [byteAt_length, String.ofList_toList]

theorem charOffset_withTable (h : b ≤ source.utf8ByteSize) :
    (withTable source).charOffset b = .ok (endedBy source.toList b) := by
  have hentry := getElem?_byteIndex 0 (le_byteAt_length h)
  rw [Nat.zero_add] at hentry
  simp [charOffset, withTable, hentry]

/-- In ASCII every byte ends a character. -/
theorem endedBy_of_isAscii (hascii : isAscii source.toList = true) (h : b ≤ source.utf8ByteSize) :
    endedBy source.toList b = b := by
  have hlength := le_byteAt_length h
  rw [byteAt_of_isAscii hascii (Nat.le_refl _)] at hlength
  -- the byte is where the character of the same number begins, and the table leads back to it
  have hentry := byteIndex_byteAt 0 hlength
  rw [byteAt_of_isAscii hascii hlength, getElem?_byteIndex 0 (le_byteAt_length h)] at hentry
  simpa using hentry

theorem charOffset_eq_endedBy (h : b ≤ source.utf8ByteSize) :
    (ofString source).charOffset b = .ok (endedBy source.toList b) := by
  by_cases hascii : isAscii source.toList = true
  · have hindex : (ofString source).index = none := if_pos hascii
    rw [charOffset, hindex, endedBy_of_isAscii hascii h]
  · have hindex : (ofString source).index = (withTable source).index := if_neg hascii
    rw [← charOffset_withTable h, charOffset, charOffset, hindex]

/-- Between two character boundaries the decoded bytes are the characters that the two offsets
delimit. -/
theorem slice_of_mem_boundaries {a : Nat} (ha : a ∈ boundaries source)
    (hb : b ∈ boundaries source) :
    ∃ i j, (ofString source).charOffset a = .ok i ∧ (ofString source).charOffset b = .ok j ∧
      (ofString source).slice a b = source.toList.extract i j := by
  obtain ⟨i, hi, rfl⟩ := mem_boundaries.mp ha
  obtain ⟨j, hj, rfl⟩ := mem_boundaries.mp hb
  exact ⟨i, j, charOffset_byteAt source hi, charOffset_byteAt source hj, slice_byteAt source hi hj⟩

/-- Up to the end of a text, a byte's offset in characters is the number of characters that end at
or before it, whether the text has a table or not. Offsets grow with the bytes, the end of the bytes
is the end of the characters, and between character boundaries the decoded bytes are the characters
between the offsets. -/
theorem charOffset_counts_ended (source : String) :
    (∀ b ≤ source.utf8ByteSize,
      (ofString source).charOffset b = .ok (endedBy source.toList b) ∧
        (withTable source).charOffset b = (ofString source).charOffset b) ∧
    (∀ a b, a ≤ b → b ≤ source.utf8ByteSize → ∃ i j, (ofString source).charOffset a = .ok i ∧
      (ofString source).charOffset b = .ok j ∧ i ≤ j) ∧
    (ofString source).charOffset source.utf8ByteSize = .ok source.length ∧
    (∀ a ∈ boundaries source, ∀ b ∈ boundaries source,
      ∃ i j, (ofString source).charOffset a = .ok i ∧ (ofString source).charOffset b = .ok j ∧
        (ofString source).slice a b = source.toList.extract i j) := by
  refine ⟨fun b hb => ?_, fun a b hab hb => ?_, charOffset_utf8ByteSize source,
    fun a ha b hb => slice_of_mem_boundaries ha hb⟩
  · have hoffset := charOffset_eq_endedBy hb
    exact ⟨hoffset, (charOffset_withTable hb).trans hoffset.symm⟩
  · obtain ⟨i, hi, hij⟩ := charOffset_mono hab (charOffset_eq_endedBy hb)
    exact ⟨i, _, hi, charOffset_eq_endedBy hb, hij⟩

/-- Characters of one, two, three, four and one bytes. -/
theorem charOffset_of_mixedWidths :
    7 ≤ "aé€😀z".utf8ByteSize ∧ (ofString "aé€😀z").charOffset 7 = .ok 3 ∧
      (withTable "aé€😀z").charOffset 7 = .ok 3 ∧
    1 ∈ boundaries "aé€😀z" ∧ 10 ∈ boundaries "aé€😀z" ∧
      (∃ i j, (ofString "aé€😀z").charOffset 1 = .ok i ∧ (ofString "aé€😀z").charOffset 10 = .ok j ∧
        (ofString "aé€😀z").slice 1 10 = "aé€😀z".toList.extract i j) := by
  obtain ⟨hcount, -, -, hslice⟩ := charOffset_counts_ended "aé€😀z"
  have hle : 7 ≤ "aé€😀z".utf8ByteSize := by decide +kernel
  have hended : endedBy "aé€😀z".toList 7 = 3 := by decide +kernel
  obtain ⟨hoffset, htable⟩ := hcount 7 hle
  rw [hended] at hoffset
  have ha : 1 ∈ boundaries "aé€😀z" := by decide +kernel
  have hb : 10 ∈ boundaries "aé€😀z" := by decide +kernel
  exact ⟨hle, hoffset, htable.trans hoffset, ha, hb, hslice 1 ha 10 hb⟩

end SourceText

end TopTag
