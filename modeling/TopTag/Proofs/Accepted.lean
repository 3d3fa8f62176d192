import Mathlib.Data.List.DropRight
import TopTag.Proofs.Spellings
import TopTag.Settings.File

/-!
# Accepted settings

When a mapping is refused, and what can be relied on when it is not. The name of an attribute comes
out with something in it and without blanks at its ends, and settings that have been accepted are
given again by the mapping that holds their three values, under any spelling and in any order. This
carries over to every document and every file.
-/

namespace TopTag

/-! ## Trimming -/

namespace Text

/-- There is something in the text, and no blank at either end. -/
structure IsTrimmed (s : String) : Prop where
  ne_empty : s ≠ ""
  first : ∀ c, s.toList.head? = some c → isBlank c = false
  last : ∀ c, s.toList.getLast? = some c → isBlank c = false

theorem trimList_eq (cs : List Char) :
    trimList cs = (cs.dropWhile isBlank).rdropWhile isBlank := rfl

variable {s : String}

theorem isBlankText_eq_false {c : Char} (hmem : c ∈ s.toList) (hc : isBlank c = false) :
    isBlankText s = false :=
  List.all_eq_false.mpr ⟨c, hmem, by simp [hc]⟩

theorem isTrimmed_trim (h : isBlankText s = false) : IsTrimmed (trim s) := by
  have hlist : (trim s).toList = trimList s.toList := String.toList_ofList
  have hrest : ((s.toList.dropWhile isBlank).any fun c => !isBlank c) = true := by
    rw [List.any_dropWhile, Bool.not_eq_true', ← h, isBlankText]
  obtain ⟨c, hmem, hc⟩ := List.any_eq_true.mp hrest
  have hne : trimList s.toList ≠ [] := by
    intro hnil
    rw [trimList_eq, List.rdropWhile_eq_nil_iff] at hnil
    simp [hnil c hmem] at hc
  refine ⟨?_, ?_, ?_⟩
  · intro hempty
    exact hne (by rw [← hlist, hempty]; rfl)
  · intro c hfirst
    -- only the end is cut off of what starts with a character that is not blank
    obtain ⟨cut, happend⟩ : trimList s.toList <+: s.toList.dropWhile isBlank :=
      List.rdropWhile_prefix ..
    have hhead : (s.toList.dropWhile isBlank).head? = some c := by
      rw [← happend, List.head?_append, ← hlist, hfirst]
      rfl
    have hnot := List.head?_dropWhile_not isBlank s.toList
    rwa [hhead] at hnot
  · intro c hlast
    have hnot : ¬ isBlank ((trimList s.toList).getLast hne) = true :=
      List.rdropWhile_last_not isBlank _ hne
    rw [hlist, List.getLast?_eq_some_getLast hne] at hlast
    cases hlast
    simpa using hnot

theorem IsTrimmed.toList_ne_nil (h : IsTrimmed s) : s.toList ≠ [] := by
  intro hnil
  exact h.ne_empty (String.toList_eq_nil_iff.mp hnil)

theorem IsTrimmed.isBlankText (h : IsTrimmed s) : isBlankText s = false := by
  have hhead := List.head?_eq_some_head h.toList_ne_nil
  exact isBlankText_eq_false (List.head_mem _) (h.first _ hhead)

theorem IsTrimmed.trim_eq (h : IsTrimmed s) : trim s = s := by
  have hfirst : s.toList.dropWhile isBlank = s.toList := by
    refine List.dropWhile_eq_self_iff.mpr fun hpos => ?_
    simp [h.first _ (List.head?_eq_getElem? ▸ List.getElem?_eq_getElem hpos)]
  have hlast : s.toList.rdropWhile isBlank = s.toList := by
    refine List.rdropWhile_eq_self_iff.mpr fun hne => ?_
    simp [h.last _ (List.getLast?_eq_some_getLast hne)]
  rw [trim, trimList_eq, hfirst, hlast, String.ofList_toList]

end Text

/-! ## Data that have a text -/

namespace Datum

open Text

/-- A number, or a text with something in it. -/
def canName : Datum → Bool
  | .int _ | .float _ => true
  | .text value => value.toList.any fun c => !isBlank c
  | _ => false

theorem canName_of_isOverlong {d : Datum} (h : d.isOverlong = true) : d.canName = true := by
  cases d with
  | int value => rfl
  | _ => cases h

theorem isBlank_of_isDigit {c : Char} (h : c.isDigit = true) : isBlank c = false := by
  have hrange : 48 ≤ c.toNat ∧ c.toNat ≤ 57 := by
    simpa [Char.isDigit, UInt32.le_iff_toNat_le] using h
  simp only [isBlank, inRanges, blankRanges, List.any_cons, List.any_nil, Bool.or_false,
    Bool.or_eq_false_iff, Bool.and_eq_false_iff, decide_eq_false_iff_not]
  omega

theorem isBlankText_repr (n : Nat) : isBlankText n.repr = false := by
  obtain ⟨c, hc⟩ := List.exists_mem_of_ne_nil _ (Nat.toDigits_ne_nil (n := n) (b := 10))
  refine isBlankText_eq_false (c := c) ?_ ?_
  · rwa [Nat.toList_repr]
  · exact isBlank_of_isDigit (Nat.isDigit_of_mem_toDigits (by decide) (by decide) hc)

theorem isBlankText_toString (value : Int) : isBlankText (toString value) = false := by
  cases value with
  | ofNat n => exact isBlankText_repr n
  | negSucc n => exact isBlankText_eq_false (c := '-') (by simp [toString, Int.repr]) (by decide)

theorem isBlankText_append {a b : String} (h : isBlankText b = false) :
    isBlankText (a ++ b) = false := by
  rw [isBlankText, String.toList_append, List.all_append, ← isBlankText, ← isBlankText, h,
    Bool.and_false]

/-- Every number has a point or an exponent. -/
theorem isBlankText_unsigned (l : Decimal.Layout) (d : Decimal.Scientific) :
    isBlankText (String.ofList (l.unsigned d)) = false := by
  have hmark : '.' ∈ l.unsigned d ∨ 'e' ∈ l.unsigned d := by
    simp only [Decimal.Layout.unsigned]
    split
    · right
      simp [Decimal.Layout.exponential]
    · left
      unfold Decimal.Layout.positional
      split <;> simp
  have hlist : (String.ofList (l.unsigned d)).toList = l.unsigned d := String.toList_ofList
  rcases hmark with hmem | hmem <;> rw [← hlist] at hmem
  · exact isBlankText_eq_false hmem (by decide)
  · exact isBlankText_eq_false hmem (by decide)

theorem isBlankText_write (x : Float) : isBlankText (Decimal.plain.write x) = false := by
  simp only [Decimal.Layout.write]
  split
  · decide
  · split
    · exact isBlankText_append (by decide)
    · split
      · exact isBlankText_append (isBlankText_unsigned ..)
      · exact isBlankText_append (isBlankText_unsigned ..)

/-- The data that can name an attribute are those that have a text with something in it. -/
theorem canName_eq_true {d : Datum} :
    d.canName = true ↔ ∃ name, d.asText? = some name ∧ isBlankText name = false := by
  cases d with
  | text value => simp [canName, asText?, isBlankText]
  | int value => exact iff_of_true rfl ⟨_, rfl, isBlankText_toString value⟩
  | float value => exact iff_of_true rfl ⟨_, rfl, isBlankText_write value⟩
  | _ => simp [canName, asText?]

end Datum

/-! ## When a mapping is accepted -/

namespace Settings

open Fields Text

theorem rootMarkerOf_cases (d : Datum) :
    (d.isOverlong = true ∧ rootMarkerOf d = .error .tooManyDigits) ∨
      (d.isOverlong = false ∧ ∃ marker, rootMarkerOf d = .ok marker) := by
  unfold rootMarkerOf textOf
  cases d.isOverlong with
  | true => exact .inl ⟨rfl, rfl⟩
  | false => exact .inr ⟨rfl, _, rfl⟩

theorem attributeNameOf_cases (d : Datum) :
    (d.isOverlong = true ∧ attributeNameOf d = .error .tooManyDigits) ∨
      (d.canName = false ∧ attributeNameOf d = .error .blankAttributeName) ∨
      (d.isOverlong = false ∧ d.canName = true ∧
        ∃ name, attributeNameOf d = .ok name ∧ IsTrimmed name) := by
  unfold attributeNameOf textOf
  cases hlong : d.isOverlong with
  | true => exact .inl ⟨rfl, rfl⟩
  | false =>
    right
    cases hname : d.canName with
    | true =>
      obtain ⟨text, htext, hblank⟩ := Datum.canName_eq_true.mp hname
      refine .inr ⟨rfl, rfl, trim text, ?_, isTrimmed_trim hblank⟩
      rw [htext]
      exact if_neg (by simp [hblank])
    | false =>
      refine .inl ⟨rfl, ?_⟩
      cases htext : d.asText? with
      | none => rfl
      | some text =>
        refine if_pos ?_
        cases hblank : isBlankText text with
        | true => rfl
        | false =>
          rw [Datum.canName_eq_true.mpr ⟨text, htext, hblank⟩] at hname
          cases hname

theorem isTrimmed_default : IsTrimmed ({} : Settings).attributeName := by
  have htrim : trim ({} : Settings).attributeName = ({} : Settings).attributeName := by decide
  exact htrim ▸ isTrimmed_trim (by decide)

theorem ofValues_eq (marker name enabled : Option Datum) :
    ofValues marker name enabled =
      (marker.elim (.ok ({} : Settings).rootMarker) rootMarkerOf >>= fun rootMarker =>
        name.elim (.ok ({} : Settings).attributeName) attributeNameOf >>= fun attributeName =>
          .ok ⟨rootMarker, attributeName, (enabled.bind Datum.asBool?).getD true⟩) := rfl

/-- What the values of the options lead to. The root marker is read first. -/
theorem ofValues_cases (marker name enabled : Option Datum) :
    ((marker.any Datum.isOverlong = true ∨ name.any Datum.isOverlong = true) ∧
        ofValues marker name enabled = .error .tooManyDigits) ∨
      (marker.any Datum.isOverlong = false ∧ name.any (!·.canName) = true ∧
        ofValues marker name enabled = .error .blankAttributeName) ∨
      (marker.any Datum.isOverlong = false ∧ name.any Datum.isOverlong = false ∧
        name.any (!·.canName) = false ∧
        ∃ s, ofValues marker name enabled = .ok s ∧ IsTrimmed s.attributeName) := by
  have hmarker : (marker.any Datum.isOverlong = true ∧
        marker.elim (.ok ({} : Settings).rootMarker) rootMarkerOf = .error .tooManyDigits) ∨
      (marker.any Datum.isOverlong = false ∧
        ∃ text, marker.elim (.ok ({} : Settings).rootMarker) rootMarkerOf = .ok text) := by
    cases marker with
    | none => exact .inr ⟨rfl, _, rfl⟩
    | some d => exact rootMarkerOf_cases d
  rw [ofValues_eq]
  rcases hmarker with ⟨hlong, hread⟩ | ⟨hshort, text, hread⟩ <;> rw [hread]
  · exact .inl ⟨.inl hlong, rfl⟩
  · cases name with
    | none => exact .inr (.inr ⟨hshort, rfl, rfl, _, rfl, isTrimmed_default⟩)
    | some d =>
      rw [Option.elim_some]
      rcases attributeNameOf_cases d with
        ⟨hlong, hname⟩ | ⟨hnot, hname⟩ | ⟨hlong, hcan, v, hname, htrim⟩ <;> rw [hname]
      · exact .inl ⟨.inr hlong, rfl⟩
      · exact .inr (.inl ⟨hshort, by simp [hnot], rfl⟩)
      · exact .inr (.inr ⟨hshort, hlong, by simp [hcan], _, rfl, htrim⟩)

section

variable (marker name enabled : Option Datum)

theorem ofValues_eq_tooManyDigits_iff :
    ofValues marker name enabled = .error .tooManyDigits ↔
      marker.any Datum.isOverlong = true ∨ name.any Datum.isOverlong = true := by
  rcases ofValues_cases marker name enabled with
    ⟨hlong, h⟩ | ⟨hmarker, hname, h⟩ | ⟨hmarker, hname, -, s, h, -⟩
  · exact iff_of_true h hlong
  · have hshort : name.any Datum.isOverlong ≠ true := by
      cases name with
      | none => simp
      | some d =>
        intro hlong
        simp [Datum.canName_of_isOverlong hlong] at hname
    exact iff_of_false (by simp [h]) (by simp [hmarker, hshort])
  · exact iff_of_false (by simp [h]) (by simp [hmarker, hname])

theorem ofValues_eq_blankAttributeName_iff :
    ofValues marker name enabled = .error .blankAttributeName ↔
      marker.any Datum.isOverlong = false ∧ ∃ d, name = some d ∧ d.canName = false := by
  have hany : name.any (!·.canName) = true ↔ ∃ d, name = some d ∧ d.canName = false := by
    cases name <;> simp
  rw [← hany]
  rcases ofValues_cases marker name enabled with
    ⟨hlong, h⟩ | ⟨hmarker, hname, h⟩ | ⟨hmarker, -, hname, s, h, -⟩
  · refine iff_of_false (by simp [h]) ?_
    rintro ⟨hmarker, hname⟩
    cases name with
    | none => simp [hmarker] at hlong
    | some d =>
      have hd : d.isOverlong = true := by simpa [hmarker] using hlong
      simp [Datum.canName_of_isOverlong hd] at hname
  · exact iff_of_true h ⟨hmarker, hname⟩
  · exact iff_of_false (by simp [h]) (by simp [hname])

end

theorem exists_ofValues_eq_ok {marker name : Option Datum}
    (hmarker : marker.any Datum.isOverlong = false) (hname : name.any Datum.isOverlong = false)
    (hcan : ∀ d, name = some d → d.canName = true) (enabled : Option Datum) :
    ∃ s, ofValues marker name enabled = .ok s := by
  rcases ofValues_cases marker name enabled with ⟨hlong, -⟩ | ⟨-, hnot, -⟩ | ⟨-, -, -, s, h, -⟩
  · simp [hmarker, hname] at hlong
  · obtain ⟨d, hd, hnot⟩ := (Option.any_eq_true ..).mp hnot
    simp [hcan d hd] at hnot
  · exact ⟨s, h⟩

/-! ## Accepted settings are stable -/

/-- The values of the settings under one spelling for each option. -/
def toFields (s : Settings) (markerKey nameKey : String) : Fields :=
  [(markerKey, .text s.rootMarker), (nameKey, .text s.attributeName), ("enabled", .bool s.enabled)]

/-- Settings with a proper attribute name, which come out again when their values go in. -/
structure Accepted (s : Settings) : Prop where
  name : IsTrimmed s.attributeName
  stable : ∀ markerKey ∈ ["root_marker", "rootMarker"],
    ∀ nameKey ∈ ["attribute_name", "attributeName"],
      ∀ fields, fields.Perm (s.toFields markerKey nameKey) → ofFields fields = .ok s

theorem ofValues_of_isTrimmed {s : Settings} (h : IsTrimmed s.attributeName) :
    ofValues (some (.text s.rootMarker)) (some (.text s.attributeName)) (some (.bool s.enabled)) =
      .ok s := by
  have hname : attributeNameOf (.text s.attributeName) = .ok s.attributeName := by
    unfold attributeNameOf
    exact (if_neg (by simp [h.isBlankText])).trans (congrArg Except.ok h.trim_eq)
  rw [ofValues_eq, Option.elim_some, Option.elim_some, hname]
  rfl

/-- Where an option is given under one spelling only, the order of the pairs plays no part. -/
theorem effective?_of_single {ps qs : Fields} {a b : String} (h : ps.Perm qs)
    (hnodup : (ps.map Prod.fst).Nodup)
    (hsingle : ((lastGiven? qs a).isNone || (lastGiven? qs b).isNone) = true) :
    effective? ps a b = effective? qs a b := by
  have hlast := lastGiven?_of_perm h hnodup
  rcases Bool.or_eq_true_iff.mp hsingle with hnone | hnone
  · have hqs := Option.isNone_iff_eq_none.mp hnone
    rw [effective?_of_left_none hqs, effective?_of_left_none ((hlast a).trans hqs), hlast]
  · have hqs := Option.isNone_iff_eq_none.mp hnone
    rw [effective?_of_right_none hqs, effective?_of_right_none ((hlast b).trans hqs), hlast]

theorem accepted_of_isTrimmed {s : Settings} (h : IsTrimmed s.attributeName) : s.Accepted := by
  refine ⟨h, fun markerKey hmarker nameKey hname fields hperm => ?_⟩
  have hmarker : markerKey = "root_marker" ∨ markerKey = "rootMarker" := by simpa using hmarker
  have hname : nameKey = "attribute_name" ∨ nameKey = "attributeName" := by simpa using hname
  have hkeys : ((s.toFields markerKey nameKey).map Prod.fst).Nodup := by
    change [markerKey, nameKey, "enabled"].Nodup
    rcases hmarker with rfl | rfl <;> rcases hname with rfl | rfl <;> decide
  have hnodup : (fields.map Prod.fst).Nodup := (hperm.map Prod.fst).nodup_iff.mpr hkeys
  rw [ofFields_of_effective hnodup, lastGiven?_of_perm hperm hnodup, ← ofValues_of_isTrimmed h]
  rcases hmarker with rfl | rfl <;> rcases hname with rfl | rfl <;>
    rw [effective?_of_single hperm hnodup rfl, effective?_of_single hperm hnodup rfl] <;> rfl

theorem accepted_of_ofFields {fields : Fields} {s : Settings} (h : ofFields fields = .ok s) :
    s.Accepted := by
  refine accepted_of_isTrimmed ?_
  unfold ofFields at h
  rcases ofValues_cases _ _ _ with ⟨-, herror⟩ | ⟨-, -, herror⟩ | ⟨-, -, -, s', hok, htrim⟩
  · cases herror.symm.trans h
  · cases herror.symm.trans h
  · cases hok.symm.trans h
    exact htrim

theorem accepted_default : ({} : Settings).Accepted := accepted_of_isTrimmed isTrimmed_default

theorem accepted_of_ofDocument {name : String} {d : Document} {s : Settings}
    (h : ofDocument name d = .ok s) : s.Accepted := by
  unfold ofDocument at h
  split at h
  · cases h
    exact accepted_default
  · split at h
    · exact accepted_of_ofFields h
    · split at h
      · exact accepted_of_ofFields h
      · cases h
  · cases h

theorem accepted_of_ofText {read : Document.Reader} {name text : String} {s : Settings}
    (h : ofText read name text = .ok s) : s.Accepted := by
  unfold ofText at h
  split at h
  · cases h
    exact accepted_default
  · split at h
    · cases h
    · cases h
    · cases h
      exact accepted_default
    · rename_i d _
      cases hd : ofDocument name d with
      | error e =>
        rw [hd] at h
        cases h
      | ok s' =>
        rw [hd] at h
        cases h
        exact accepted_of_ofDocument hd

theorem accepted_of_load {read : Document.Reader} {v : Volume} {path : String} {s : Settings}
    (h : load read v path = .ok s) : s.Accepted := by
  simp only [load] at h
  split at h
  · cases h
    exact accepted_default
  · cases h
  · split at h
    · cases h
    · exact accepted_of_ofText h

/-- When a mapping is refused, and what the settings are like that come out otherwise. Those of a
file are like this too, whatever reads its document. -/
theorem accepted_of_not_refused :
    (∀ pairs,
      let marker := effective? pairs "root_marker" "rootMarker"
      let name := effective? pairs "attribute_name" "attributeName"
      (ofFields (ofPairs pairs) = .error .tooManyDigits ↔
        marker.any Datum.isOverlong = true ∨ name.any Datum.isOverlong = true) ∧
      (ofFields (ofPairs pairs) = .error .blankAttributeName ↔
        marker.any Datum.isOverlong = false ∧ ∃ d, name = some d ∧ d.canName = false) ∧
      (marker.any Datum.isOverlong = false → name.any Datum.isOverlong = false →
        (∀ d, name = some d → d.canName = true) →
          ∃ s, ofFields (ofPairs pairs) = .ok s ∧ s.Accepted)) ∧
      (∀ name d s, ofDocument name d = .ok s → s.Accepted) ∧
      ∀ read v path s, load read v path = .ok s → s.Accepted := by
  refine ⟨fun pairs => ?_, fun _ _ _ => accepted_of_ofDocument, fun _ _ _ _ => accepted_of_load⟩
  have hvalues : ofFields (ofPairs pairs) = ofValues _ _ _ :=
    ofFields_of_effective (nodup_keys_ofPairs pairs)
  rw [effective?_ofPairs, effective?_ofPairs] at hvalues
  refine ⟨by rw [hvalues, ofValues_eq_tooManyDigits_iff],
    by rw [hvalues, ofValues_eq_blankAttributeName_iff], fun hmarker hname hcan => ?_⟩
  obtain ⟨s, hs⟩ := exists_ofValues_eq_ok hmarker hname hcan (lastGiven? (ofPairs pairs) "enabled")
  exact ⟨s, hvalues.trans hs, accepted_of_ofFields (hvalues.trans hs)⟩

/-- A marker and a name from numbers, the name under both spellings. -/
def numbered : List (String × Datum) :=
  [("attributeName", .int 7), ("rootMarker", .int (-1)), ("attribute_name", .text " data 7\t")]

/-- A directory with a settings file. -/
def numberedVolume : Volume := ⟨[], [([fileName], "attributeName: 7".toUTF8.data.toList)]⟩

theorem components_empty : Volume.components "" = [] := by
  have hsplit : "".splitOn "/" = [""] := by
    rw [String.splitOn, if_neg (by decide), String.splitOnAux]
    rfl
  rw [Volume.components, hsplit]
  rfl

theorem accepted_numbered :
    ofFields (ofPairs numbered) = .ok ⟨"-1", "data 7", true⟩ ∧
      (∃ s, ofFields (ofPairs numbered) = .ok s ∧ s.Accepted) ∧
      ofVolume numberedVolume "" = .ok ⟨"src/", "7", true⟩ ∧
      (⟨"src/", "7", true⟩ : Settings).Accepted := by
  have hload : ofVolume numberedVolume "" = .ok ⟨"src/", "7", true⟩ := by
    have hok : (ofVolume numberedVolume "").toOption = some ⟨"src/", "7", true⟩ := by
      simp only [ofVolume, load, components_empty]
      decide +kernel
    cases hresult : ofVolume numberedVolume "" with
    | error e => simp [hresult, Except.toOption] at hok
    | ok s => simpa [hresult, Except.toOption] using hok
  refine ⟨by decide +kernel, ?_, hload, accepted_of_not_refused.2.2 _ _ _ _ hload⟩
  refine (accepted_of_not_refused.1 numbered).2.2 (by decide +kernel) (by decide +kernel) ?_
  rintro d ⟨⟩
  decide

/-- A number with too many digits for a text. -/
def overlong : Datum := .int (Nat.pow 16 3572)

/-- As an attribute name such a number is refused though it is one, and as a root marker it is
refused even before a blank name. -/
theorem ofFields_of_overlong :
    overlong.canName = true ∧
      ofFields (ofPairs [("attribute_name", overlong)]) = .error .tooManyDigits ∧
      ofFields (ofPairs [("root_marker", overlong), ("attribute_name", .text " ")]) =
        .error .tooManyDigits := by
  decide +kernel

end Settings

end TopTag
