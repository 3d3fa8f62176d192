import TopTag.DisplayPath

/-!
# Trimmed paths

A display path is the part of a file's path from the first root marker on. `Trimmed` says so without
the search: what is left is a suffix that begins with the marker, and no occurrence of the marker
begins before it. Occurrences may overlap, and a path that was trimmed once is left as it is.
-/

namespace TopTag

namespace DisplayPath

/-- `r` is a path trimmed to a marker: from the marker's first occurrence on, or the whole path when
the marker is empty or does not occur. -/
structure Trimmed (path marker r : String) : Prop where
  suffix : r.toList <:+ path.toList
  begins : marker ≠ "" → marker.toList <:+: path.toList → marker.toList <+: r.toList
  first : marker ≠ "" → ∀ before after, path.toList = before ++ marker.toList ++ after →
    path.length - r.length ≤ before.length
  longest : marker ≠ "" → ∀ q, q <:+ path.toList → marker.toList <+: q → q <:+ r.toList
  whole : marker = "" ∨ ¬ marker.toList <:+: path.toList → r = path

section

variable {marker cs r : List Char}

theorem suffixFrom?_of_prefix (h : marker <+: cs) : suffixFrom? marker cs = some cs := by
  cases cs with
  | nil => simp [suffixFrom?, List.prefix_nil.mp h]
  | cons c rest => rw [suffixFrom?, if_pos (List.isPrefixOf_iff_prefix.mpr h)]

/-- What is found is a suffix that begins with the marker, and any other such suffix is within
it. -/
theorem suffixFrom?_eq_some (h : suffixFrom? marker cs = some r) :
    r <:+ cs ∧ marker <+: r ∧ ∀ q, q <:+ cs → marker <+: q → q <:+ r := by
  fun_induction suffixFrom? marker cs with
  | case1 hempty =>
    cases h
    rw [List.isEmpty_iff.mp hempty]
    exact ⟨List.suffix_refl _, List.nil_prefix, fun q hq _ => hq⟩
  | case2 => cases h
  | case3 c rest hstart =>
    cases h
    exact ⟨List.suffix_refl _, List.isPrefixOf_iff_prefix.mp hstart, fun q hq _ => hq⟩
  | case4 c rest hstart ih =>
    obtain ⟨hsuffix, hbegins, hlongest⟩ := ih h
    refine ⟨hsuffix.trans (List.suffix_cons c rest), hbegins, fun q hq hmarker => ?_⟩
    -- the whole text is no candidate, since the marker does not begin there
    rcases List.suffix_cons_iff.mp hq with rfl | hq
    · exact absurd (List.isPrefixOf_iff_prefix.mpr hmarker) hstart
    · exact hlongest q hq hmarker

theorem suffixFrom?_eq_none (h : suffixFrom? marker cs = none) : ¬ marker <:+: cs := by
  fun_induction suffixFrom? marker cs with
  | case1 => cases h
  | case2 hempty =>
    intro hinfix
    exact hempty (List.isEmpty_iff.mpr (List.infix_nil.mp hinfix))
  | case3 => cases h
  | case4 c rest hstart ih =>
    intro hinfix
    rcases List.infix_cons_iff.mp hinfix with hmarker | hrest
    · exact hstart (List.isPrefixOf_iff_prefix.mpr hmarker)
    · exact ih h hrest

theorem infix_of_suffixFrom? (h : suffixFrom? marker cs = some r) : marker <:+: cs := by
  obtain ⟨hsuffix, hbegins, -⟩ := suffixFrom?_eq_some h
  exact hbegins.isInfix.trans hsuffix.isInfix

end

section

variable {path marker : String}

theorem ofText_eq (hpath : path ≠ "") (hmarker : marker ≠ "") :
    ofText path marker = ((suffixFrom? marker.toList path.toList).map String.ofList).getD path := by
  rw [ofText, if_neg (by simpa using hpath), if_neg (by simpa using hmarker)]
  cases suffixFrom? marker.toList path.toList <;> rfl

theorem ofText_of_empty (hpath : path ≠ "") : ofText path "" = path := by
  rw [ofText, if_neg (by simpa using hpath), if_pos (by simp)]

/-- A path that begins with the marker is kept. -/
theorem ofText_of_prefix (hmarker : marker ≠ "") (h : marker.toList <+: path.toList) :
    ofText path marker = path := by
  have hpath : path ≠ "" := by
    rintro rfl
    exact hmarker (String.toList_eq_nil_iff.mp (List.prefix_nil.mp h))
  rw [ofText_eq hpath hmarker, suffixFrom?_of_prefix h]
  simp

theorem trimmed_of_suffixFrom? {r : List Char} (hmarker : marker ≠ "")
    (h : suffixFrom? marker.toList path.toList = some r) :
    Trimmed path marker (String.ofList r) := by
  obtain ⟨hsuffix, hbegins, hlongest⟩ := suffixFrom?_eq_some h
  have hinfix := infix_of_suffixFrom? h
  refine ⟨by simpa using hsuffix, fun _ _ => by simpa using hbegins, fun _ before after heq => ?_,
    fun _ q hq hq' => by simpa using hlongest q hq hq', fun hnone => ?_⟩
  · -- from an occurrence on the path is a suffix with the marker in front, hence within `r`
    have hle : (marker.toList ++ after).length ≤ r.length := by
      refine (hlongest _ ⟨before, ?_⟩ (List.prefix_append _ _)).length_le
      rw [heq, List.append_assoc]
    have hlength : path.length = before.length + (marker.toList ++ after).length := by
      rw [← String.length_toList, heq, List.append_assoc, List.length_append]
    rw [hlength, String.length_ofList]
    omega
  · rcases hnone with hempty | hnone
    · exact absurd hempty hmarker
    · exact absurd hinfix hnone

/-- A path without the marker is trimmed to itself. -/
theorem trimmed_self (h : marker = "" ∨ ¬ marker.toList <:+: path.toList) :
    Trimmed path marker path := by
  have hno : marker ≠ "" → ¬ marker.toList <:+: path.toList := fun hmarker =>
    h.resolve_left hmarker
  refine ⟨List.suffix_refl _, fun hmarker hinfix => absurd hinfix (hno hmarker),
    fun _ _ _ _ => ?_, fun _ q hq _ => hq, fun _ => rfl⟩
  rw [Nat.sub_self]
  exact Nat.zero_le _

theorem trimmed_ofText (hpath : path ≠ "") (marker : String) :
    Trimmed path marker (ofText path marker) := by
  by_cases hmarker : marker = ""
  · subst hmarker
    rw [ofText_of_empty hpath]
    exact trimmed_self (.inl rfl)
  · rw [ofText_eq hpath hmarker]
    cases h : suffixFrom? marker.toList path.toList with
    | some r => exact trimmed_of_suffixFrom? hmarker h
    | none => exact trimmed_self (.inr (suffixFrom?_eq_none h))

/-- Trimming twice is trimming once: the first marker of a trimmed path is at its front. -/
theorem ofText_ofText (hpath : path ≠ "") (marker : String) :
    ofText (ofText path marker) marker = ofText path marker := by
  have htrimmed := trimmed_ofText hpath marker
  by_cases hfound : marker ≠ "" ∧ marker.toList <:+: path.toList
  · exact ofText_of_prefix hfound.1 (htrimmed.begins hfound.1 hfound.2)
  · have hkept : ofText path marker = path := by
      refine htrimmed.whole ?_
      by_cases hmarker : marker = ""
      · exact .inl hmarker
      · exact .inr fun hinfix => hfound ⟨hmarker, hinfix⟩
    rw [hkept, hkept]

end

end DisplayPath

namespace PathInput

open DisplayPath (Trimmed)

/-- A text path that is not empty has a display path. It is the path trimmed to the root marker, and
it is its own display path. -/
theorem displayPath_trimmed {path : String} (hpath : path ≠ "") (marker : String) :
    ∃ r, displayPath marker (.text path) = .ok r ∧ Trimmed path marker r ∧
      displayPath marker (.text r) = .ok r := by
  refine ⟨_, rfl, DisplayPath.trimmed_ofText hpath marker, ?_⟩
  rw [displayPath, DisplayPath.ofText_ofText hpath marker]

/-- The marker occurs twice in this path, and the two occurrences overlap. -/
theorem displayPath_trimmed_overlapping :
    "bananas/A.tsx" ≠ "" ∧ "ana".toList <:+: "bananas/A.tsx".toList ∧
      displayPath "ana" (.text "bananas/A.tsx") = .ok "ananas/A.tsx" ∧
      Trimmed "bananas/A.tsx" "ana" "ananas/A.tsx" ∧
      displayPath "ana" (.text "ananas/A.tsx") = .ok "ananas/A.tsx" := by
  have hpath : "bananas/A.tsx" ≠ "" := by decide
  have htext : DisplayPath.ofText "bananas/A.tsx" "ana" = "ananas/A.tsx" := by decide +kernel
  have hrun : displayPath "ana" (.text "bananas/A.tsx") = .ok "ananas/A.tsx" :=
    congrArg Except.ok htext
  obtain ⟨r, hr, htrimmed, hagain⟩ := displayPath_trimmed hpath "ana"
  obtain rfl : r = "ananas/A.tsx" := Except.ok.inj (hr.symm.trans hrun)
  exact ⟨hpath, by decide +kernel, hrun, htrimmed, hagain⟩

end PathInput

end TopTag
