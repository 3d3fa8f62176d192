import TopTag.Concrete.SourceText

/-!
# Bytes and characters

`byteAt` is the number of bytes before a character. These numbers are the character boundaries of a
text; they grow with the character, and the index of a text leads from each back to its character.
-/

namespace TopTag

namespace SourceText

/-- The number of bytes before the character of the given index. -/
def byteAt : List Char → Nat → Nat
  | [], _ => 0
  | _ :: _, 0 => 0
  | c :: rest, k + 1 => c.utf8Size + byteAt rest k

/-- The bytes of a text at which a character begins, and its end. -/
def boundaries (source : String) : List Nat :=
  (List.range (source.toList.length + 1)).map (byteAt source.toList)

theorem mem_boundaries {source : String} {b : Nat} :
    b ∈ boundaries source ↔ ∃ k, k ≤ source.toList.length ∧ byteAt source.toList k = b := by
  simp only [boundaries, List.mem_map, List.mem_range, Nat.lt_succ_iff]

@[simp] theorem byteAt_zero (cs : List Char) : byteAt cs 0 = 0 := by
  cases cs <;> rfl

theorem byteAt_lt {cs : List Char} {j k : Nat} (hjk : j < k) (hk : k ≤ cs.length) :
    byteAt cs j < byteAt cs k := by
  induction cs generalizing j k with
  | nil =>
    rw [List.length_nil] at hk
    omega
  | cons c rest ih =>
    have hsize : 0 < c.utf8Size := c.utf8Size_pos
    obtain ⟨k, rfl⟩ : ∃ m, k = m + 1 := ⟨k - 1, by omega⟩
    rw [List.length_cons] at hk
    cases j with
    | zero =>
      rw [byteAt_zero, byteAt]
      omega
    | succ j =>
      have hrest : byteAt rest j < byteAt rest k := ih (by omega) (by omega)
      rw [byteAt, byteAt]
      omega

/-- Characters stand in the order of their bytes. -/
theorem byteAt_le_iff {cs : List Char} {j k : Nat} (hj : j ≤ cs.length) (hk : k ≤ cs.length) :
    byteAt cs j ≤ byteAt cs k ↔ j ≤ k := by
  constructor
  · intro h
    refine Nat.le_of_not_lt fun hlt => ?_
    have hbytes := byteAt_lt hlt hj
    omega
  · intro h
    rcases Nat.eq_or_lt_of_le h with rfl | hlt
    · exact Nat.le_refl _
    · exact Nat.le_of_lt (byteAt_lt hlt hk)

theorem byteIndex_byteAt (i : Nat) {cs : List Char} {k : Nat} (hk : k ≤ cs.length) :
    (byteIndex i cs)[byteAt cs k]? = some (i + k) := by
  induction cs generalizing i k with
  | nil =>
    obtain rfl : k = 0 := Nat.le_zero.mp hk
    rfl
  | cons c rest ih =>
    rw [byteIndex]
    cases k with
    | zero =>
      have hsize : 0 < (String.utf8EncodeChar c).length := by
        rw [String.length_utf8EncodeChar]
        exact c.utf8Size_pos
      rw [byteAt_zero, List.getElem?_append_left (by simpa using hsize)]
      simp [c.utf8Size_pos]
    | succ k =>
      rw [List.length_cons] at hk
      rw [byteAt, List.getElem?_append_right (by simp)]
      have hrest := ih (i + 1) (k := k) (by omega)
      simp only [List.length_replicate, String.length_utf8EncodeChar, Nat.add_sub_cancel_left]
      rw [hrest, Nat.add_assoc, Nat.add_comm 1]

theorem byteAt_of_isAscii {cs : List Char} (h : isAscii cs = true) {k : Nat}
    (hk : k ≤ cs.length) : byteAt cs k = k := by
  induction cs generalizing k with
  | nil => exact (Nat.le_zero.mp hk).symm
  | cons c rest ih =>
    rw [isAscii, List.all_cons, Bool.and_eq_true] at h
    cases k with
    | zero => rfl
    | succ k =>
      have hsize : c.utf8Size = 1 := by
        have hle : c.val ≤ 0x7f := by
          rw [UInt32.le_iff_toNat_le]
          exact Nat.le_of_lt_succ (of_decide_eq_true h.1)
        exact Char.utf8Size_eq_one_iff.mpr hle
      rw [byteAt, hsize, ih h.2 (by simpa using hk), Nat.add_comm]

/-- The index leads from the byte at which a character begins to that character. -/
theorem charOffset_byteAt (source : String) {k : Nat} (hk : k ≤ source.toList.length) :
    (ofString source).charOffset (byteAt source.toList k) = .ok k := by
  rw [charOffset, ofString]
  simp only
  by_cases h : isAscii source.toList = true
  · rw [if_pos h, byteAt_of_isAscii h hk]
  · rw [if_neg h]
    simp [byteIndex_byteAt 0 hk]

theorem le_of_mem_byteIndex {i j : Nat} {cs : List Char} (h : j ∈ byteIndex i cs) : i ≤ j := by
  induction cs generalizing i with
  | nil => exact Nat.le_of_eq (List.mem_singleton.mp h).symm
  | cons c rest ih =>
    rcases List.mem_append.mp h with h | h
    · exact Nat.le_of_eq (List.mem_replicate.mp h).2.symm
    · exact Nat.le_of_succ_le (ih h)

theorem byteIndex_pairwise (i : Nat) (cs : List Char) : (byteIndex i cs).Pairwise (· ≤ ·) := by
  induction cs generalizing i with
  | nil => exact List.pairwise_singleton _ _
  | cons c rest ih =>
    refine List.pairwise_append.mpr ⟨?_, ih (i + 1), fun a ha b hb => ?_⟩
    · exact List.pairwise_replicate.mpr (.inr (Nat.le_refl i))
    · rw [(List.mem_replicate.mp ha).2]
      exact Nat.le_of_succ_le (le_of_mem_byteIndex hb)

/-- A byte in front of another belongs to the same character or to one in front of it. -/
theorem charOffset_mono {source : String} {a b j : Nat} (hab : a ≤ b)
    (h : (ofString source).charOffset b = .ok j) :
    ∃ i, (ofString source).charOffset a = .ok i ∧ i ≤ j := by
  by_cases hascii : isAscii source.toList = true
  · have hindex : (ofString source).index = none := if_pos hascii
    rw [charOffset, hindex] at h ⊢
    cases h
    exact ⟨a, rfl, hab⟩
  · have hindex : (ofString source).index = some (byteIndex 0 source.toList).toArray :=
      if_neg hascii
    rw [charOffset, hindex] at h ⊢
    simp only [List.getElem?_toArray] at h ⊢
    split at h <;> cases h
    rename_i hb
    obtain ⟨hlt, hb⟩ := List.getElem?_eq_some_iff.mp hb
    have hlt' : a < (byteIndex 0 source.toList).length := by omega
    refine ⟨(byteIndex 0 source.toList)[a], by rw [List.getElem?_eq_getElem hlt'], ?_⟩
    rw [← hb]
    rcases Nat.eq_or_lt_of_le hab with rfl | hlt''
    · exact Nat.le_refl _
    · exact List.pairwise_iff_getElem.mp (byteIndex_pairwise 0 source.toList) a b _ _ hlt''

/-- Every byte of a text, and its end, belongs to a character. -/
theorem exists_charOffset {source : String} {b : Nat}
    (h : b ≤ byteAt source.toList source.toList.length) :
    ∃ i, (ofString source).charOffset b = .ok i := by
  obtain ⟨i, hi, -⟩ := charOffset_mono h (charOffset_byteAt source (Nat.le_refl _))
  exact ⟨i, hi⟩

theorem byteAt_length (cs : List Char) :
    byteAt cs cs.length = (String.ofList cs).utf8ByteSize := by
  induction cs with
  | nil => rfl
  | cons c rest ih =>
    rw [List.length_cons, byteAt, ih, String.ofList_cons, String.utf8ByteSize_append,
      String.utf8ByteSize_singleton]

/-- The end of the last character is the end of the text. -/
theorem charOffset_utf8ByteSize (source : String) :
    (ofString source).charOffset source.utf8ByteSize = .ok source.length := by
  have hbytes := byteAt_length source.toList
  rw [String.ofList_toList] at hbytes
  rw [← hbytes, charOffset_byteAt source (Nat.le_refl _), String.length_toList]

theorem charOffset_le {source : String} {a b i j : Nat} (hab : a ≤ b)
    (ha : (ofString source).charOffset a = .ok i) (hb : (ofString source).charOffset b = .ok j) :
    i ≤ j := by
  obtain ⟨k, hk, hkj⟩ := charOffset_mono hab hb
  obtain rfl : k = i := Except.ok.inj (hk.symm.trans ha)
  exact hkj

end SourceText

end TopTag
