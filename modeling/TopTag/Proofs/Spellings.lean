import Mathlib.Data.List.Induction
import TopTag.Settings.Basic

/-!
# Which spelling counts

A mapping is filled with pairs one after the other: a key keeps the position at which it entered and
takes the value that it is given last. Where both spellings of an option are in it, the one that
entered later counts, which need not be the one that was written last. What the settings are follows
from the effective values of the three options (`ofFields_of_effective`), and these from the pairs
of the option keys and from which spelling came first.
-/

namespace TopTag

theorem lookup_cons_eq {α : Type} (p : String × α) (rest : List (String × α)) (key : String) :
    (p :: rest).lookup key = if key = p.1 then some p.2 else rest.lookup key := by
  obtain ⟨k, v⟩ := p
  rw [List.lookup_cons]
  by_cases h : key = k
  · simp [h]
  · simp [h, beq_false_of_ne h]

theorem lookup_of_perm {α : Type} {ps qs : List (String × α)} (h : ps.Perm qs)
    (hnodup : (ps.map Prod.fst).Nodup) (key : String) : ps.lookup key = qs.lookup key := by
  induction h with
  | nil => rfl
  | cons p _ ih =>
    rw [lookup_cons_eq, lookup_cons_eq, ih (List.nodup_cons.mp hnodup).2]
  | swap p q rest =>
    have hne : q.1 ≠ p.1 := by
      intro heq
      exact (List.nodup_cons.mp hnodup).1 (heq ▸ List.mem_cons_self ..)
    by_cases hp : key = p.1
    · subst hp
      simp [lookup_cons_eq, hne.symm]
    · simp [lookup_cons_eq, hp]
  | trans hpq _ ihp ihq =>
    exact (ihp hnodup).trans (ihq ((hpq.map Prod.fst).nodup hnodup))

namespace Fields

/-- The value that a key was given last. -/
def lastGiven? (pairs : List (String × Datum)) (key : String) : Option Datum :=
  pairs.reverse.lookup key

/-- The first of some keys to enter. -/
def firstOf? (pairs : List (String × Datum)) (keys : List String) : Option String :=
  (pairs.map Prod.fst).find? keys.contains

/-- The value of an option with two spellings: the last one of the spelling that entered later, or
of the only one that is there. -/
def effective? (pairs : List (String × Datum)) (a b : String) : Option Datum :=
  if firstOf? pairs [a, b] = some a then (lastGiven? pairs b).or (lastGiven? pairs a)
  else (lastGiven? pairs a).or (lastGiven? pairs b)

/-! ## Filling a mapping -/

theorem get?_insert (fields : Fields) (k : String) (v : Datum) (key : String) :
    (fields.insert k v).get? key = if key = k then some v else fields.get? key := by
  unfold get?
  induction fields with
  | nil => exact lookup_cons_eq ..
  | cons f rest ih =>
    obtain ⟨k', v'⟩ := f
    by_cases hk : k' = k
    · subst hk
      by_cases hkey : key = k' <;> simp [insert, lookup_cons_eq, hkey]
    · by_cases hkey : key = k'
      · subst hkey
        simp [insert, hk]
      · simp [insert, hk, lookup_cons_eq, hkey, ih]

theorem keys_insert (fields : Fields) (k : String) (v : Datum) :
    (fields.insert k v).map Prod.fst =
      if k ∈ fields.map Prod.fst then fields.map Prod.fst else fields.map Prod.fst ++ [k] := by
  induction fields with
  | nil => simp [insert]
  | cons f rest ih =>
    obtain ⟨k', v'⟩ := f
    by_cases hk : k' = k
    · simp [insert, hk]
    · have hne : ¬ k = k' := fun h => hk h.symm
      simp only [insert, beq_iff_eq, hk, ↓reduceIte, List.map_cons, ih, List.mem_cons, hne,
        false_or]
      split <;> rfl

theorem ofPairs_concat (pairs : List (String × Datum)) (p : String × Datum) :
    ofPairs (pairs ++ [p]) = (ofPairs pairs).insert p.1 p.2 := by
  rw [ofPairs, List.foldl_append]
  rfl

theorem nodup_keys_ofPairs (pairs : List (String × Datum)) :
    ((ofPairs pairs).map Prod.fst).Nodup := by
  induction pairs using List.reverseRecOn with
  | nil => exact List.nodup_nil
  | append_singleton pairs p ih =>
    rw [ofPairs_concat, keys_insert]
    split
    · exact ih
    · rename_i hnew
      exact (List.perm_append_singleton ..).nodup_iff.mpr (List.nodup_cons.mpr ⟨hnew, ih⟩)

/-! ## What stays of the pairs -/

theorem lastGiven?_concat (pairs : List (String × Datum)) (p : String × Datum) (key : String) :
    lastGiven? (pairs ++ [p]) key = if key = p.1 then some p.2 else lastGiven? pairs key := by
  rw [lastGiven?, List.reverse_concat, lookup_cons_eq, lastGiven?]

theorem lastGiven?_cons (p : String × Datum) (pairs : List (String × Datum)) (key : String) :
    lastGiven? (p :: pairs) key =
      (lastGiven? pairs key).or (if key = p.1 then some p.2 else none) := by
  rw [lastGiven?, List.reverse_cons, List.lookup_append, lookup_cons_eq, lastGiven?]
  rfl

theorem firstOf?_cons (p : String × Datum) (pairs : List (String × Datum)) (keys : List String) :
    firstOf? (p :: pairs) keys = if p.1 ∈ keys then some p.1 else firstOf? pairs keys := by
  rw [firstOf?, List.map_cons, List.find?_cons, firstOf?]
  by_cases h : p.1 ∈ keys <;> simp [h]

theorem get?_ofPairs (pairs : List (String × Datum)) (key : String) :
    (ofPairs pairs).get? key = lastGiven? pairs key := by
  induction pairs using List.reverseRecOn with
  | nil => rfl
  | append_singleton pairs p ih => rw [ofPairs_concat, get?_insert, ih, lastGiven?_concat]

theorem lastGiven?_of_nodup {fields : Fields} (h : (fields.map Prod.fst).Nodup) (key : String) :
    lastGiven? fields key = fields.get? key :=
  (lookup_of_perm (List.reverse_perm fields).symm h key).symm

theorem lastGiven?_of_perm {ps qs : Fields} (h : ps.Perm qs) (hnodup : (ps.map Prod.fst).Nodup)
    (key : String) : lastGiven? ps key = lastGiven? qs key := by
  refine lookup_of_perm ((List.reverse_perm ps).trans (h.trans (List.reverse_perm qs).symm)) ?_ key
  rw [List.map_reverse]
  exact (List.reverse_perm _).nodup_iff.mpr hnodup

theorem lastGiven?_eq_none {pairs : List (String × Datum)} {key : String}
    (h : key ∉ pairs.map Prod.fst) : lastGiven? pairs key = none := by
  refine List.lookup_eq_none_iff.mpr fun p hp => ?_
  have hmem : p.1 ∈ pairs.map Prod.fst := List.mem_map_of_mem (List.mem_reverse.mp hp)
  exact bne_iff_ne.mpr fun heq : key = p.1 => h (heq ▸ hmem)

theorem lastGiven?_ofPairs (pairs : List (String × Datum)) (key : String) :
    lastGiven? (ofPairs pairs) key = lastGiven? pairs key := by
  rw [lastGiven?_of_nodup (nodup_keys_ofPairs pairs), get?_ofPairs]

/-- A key that is given again does not enter again. -/
theorem firstOf?_ofPairs (pairs : List (String × Datum)) (keys : List String) :
    firstOf? (ofPairs pairs) keys = firstOf? pairs keys := by
  unfold firstOf?
  induction pairs using List.reverseRecOn with
  | nil => rfl
  | append_singleton pairs p ih =>
    rw [ofPairs_concat, keys_insert, List.map_append, List.find?_append, ← ih]
    split
    · rename_i hthere
      cases hp : keys.contains p.1 with
      | false =>
        rw [List.map_singleton, List.find?_singleton, hp]
        exact (Option.or_none ..).symm
      | true =>
        have hfound : (((ofPairs pairs).map Prod.fst).find? keys.contains).isSome = true :=
          List.find?_isSome.mpr ⟨p.1, hthere, hp⟩
        rw [Option.or_of_isSome hfound]
    · rw [List.find?_append]
      rfl

theorem effective?_ofPairs (pairs : List (String × Datum)) (a b : String) :
    effective? (ofPairs pairs) a b = effective? pairs a b := by
  simp only [effective?, firstOf?_ofPairs, lastGiven?_ofPairs]

/-! ## Two spellings under one key -/

section

variable {pairs : List (String × Datum)} {a b : String}

theorem effective?_of_left_none (h : lastGiven? pairs a = none) :
    effective? pairs a b = lastGiven? pairs b := by
  simp [effective?, h]

theorem effective?_of_right_none (h : lastGiven? pairs b = none) :
    effective? pairs a b = lastGiven? pairs a := by
  simp [effective?, h]

theorem effective?_cons_left (hab : a ≠ b) (h : lastGiven? pairs a = none) (v : Datum) :
    effective? ((a, v) :: pairs) a b = (lastGiven? pairs b).or (some v) := by
  rw [effective?, if_pos (by simp [firstOf?_cons]), lastGiven?_cons, lastGiven?_cons, h]
  simp [hab.symm]

theorem effective?_cons_right (hab : a ≠ b) (h : lastGiven? pairs b = none) (v : Datum) :
    effective? ((b, v) :: pairs) a b = (lastGiven? pairs a).or (some v) := by
  rw [effective?, if_neg (by simp [firstOf?_cons, hab.symm]), lastGiven?_cons, lastGiven?_cons, h]
  simp [hab]

theorem effective?_cons_of_ne {p : String × Datum} (ha : a ≠ p.1) (hb : b ≠ p.1) :
    effective? (p :: pairs) a b = effective? pairs a b := by
  have hlast {key : String} (h : key ≠ p.1) :
      lastGiven? (p :: pairs) key = lastGiven? pairs key := by
    simp [lastGiven?_cons, h]
  have hfirst : firstOf? (p :: pairs) [a, b] = firstOf? pairs [a, b] := by
    simp [firstOf?_cons, ha.symm, hb.symm]
  simp only [effective?, hfirst, hlast ha, hlast hb]

end

/-- When two spellings are put under one key, what stands there in the end is the effective
value. -/
theorem lastGiven?_renamed {rename : String → String} {a b k : String} (hab : a ≠ b)
    (hk : ∀ key, rename key = k ↔ key = a ∨ key = b) {fields : Fields}
    (hnodup : (fields.map Prod.fst).Nodup) :
    lastGiven? (fields.map fun f => (rename f.1, f.2)) k = effective? fields a b := by
  induction fields with
  | nil => rfl
  | cons f rest ih =>
    obtain ⟨key, value⟩ := f
    obtain ⟨hnew, hrest⟩ := List.nodup_cons.mp hnodup
    have hold := lastGiven?_eq_none hnew
    rw [List.map_cons, lastGiven?_cons, ih hrest]
    -- the head is either spelling, and then it is the earlier one, or it is another key
    by_cases ha : key = a
    · subst ha
      rw [effective?_cons_left hab hold, effective?_of_left_none hold,
        if_pos ((hk key).mpr (.inl rfl)).symm]
    · by_cases hb : key = b
      · subst hb
        rw [effective?_cons_right hab hold, effective?_of_right_none hold,
          if_pos ((hk key).mpr (.inr rfl)).symm]
      · have hrename : k ≠ rename key := fun h => ((hk key).mp h.symm).elim ha hb
        rw [effective?_cons_of_ne (Ne.symm ha) (Ne.symm hb), if_neg hrename, Option.or_none]

theorem lastGiven?_renamed_self {rename : String → String} {k : String}
    (hk : ∀ key, rename key = k ↔ key = k) (fields : Fields) :
    lastGiven? (fields.map fun f => (rename f.1, f.2)) k = lastGiven? fields k := by
  induction fields with
  | nil => rfl
  | cons f rest ih =>
    have hkey : k = rename f.1 ↔ k = f.1 := by
      rw [eq_comm, hk, eq_comm]
    simp only [List.map_cons, lastGiven?_cons, ih, hkey]

/-! ## Mappings with the same effective values -/

section

variable {ps qs : Fields} {a b : String}

theorem effective?_of_perm (h : ps.Perm qs) (hnodup : (ps.map Prod.fst).Nodup)
    (hfirst : firstOf? ps [a, b] = firstOf? qs [a, b]) :
    effective? ps a b = effective? qs a b := by
  simp only [effective?, hfirst, lastGiven?_of_perm h hnodup]

variable {keep : String → Bool}

theorem lastGiven?_filter {key : String} (hkey : keep key = true) (fields : Fields) :
    lastGiven? (fields.filter (keep ·.1)) key = lastGiven? fields key := by
  induction fields with
  | nil => rfl
  | cons f rest ih =>
    cases hf : keep f.1 with
    | true => rw [List.filter_cons, if_pos hf, lastGiven?_cons, lastGiven?_cons, ih]
    | false =>
      have hne : key ≠ f.1 := by
        rintro rfl
        rw [hf] at hkey
        cases hkey
      rw [List.filter_cons_of_neg (by simp [hf]), ih, lastGiven?_cons, if_neg hne, Option.or_none]

theorem firstOf?_filter {keys : List String} (hkeys : ∀ key ∈ keys, keep key = true)
    (fields : Fields) : firstOf? (fields.filter (keep ·.1)) keys = firstOf? fields keys := by
  induction fields with
  | nil => rfl
  | cons f rest ih =>
    cases hf : keep f.1 with
    | true => rw [List.filter_cons, if_pos hf, firstOf?_cons, firstOf?_cons, ih]
    | false =>
      have hother : f.1 ∉ keys := by
        intro hmem
        rw [hkeys _ hmem] at hf
        cases hf
      rw [List.filter_cons_of_neg (by simp [hf]), ih, firstOf?_cons, if_neg hother]

theorem effective?_filter (ha : keep a = true) (hb : keep b = true) (fields : Fields) :
    effective? (fields.filter (keep ·.1)) a b = effective? fields a b := by
  have hfirst : firstOf? (fields.filter (keep ·.1)) [a, b] = firstOf? fields [a, b] := by
    refine firstOf?_filter ?_ fields
    simp [ha, hb]
  simp only [effective?, hfirst, lastGiven?_filter ha, lastGiven?_filter hb]

end

end Fields

namespace Settings

open Fields

theorem canonicalKey_eq_iff (key : String) :
    (canonicalKey key = "root_marker" ↔ key = "root_marker" ∨ key = "rootMarker") ∧
      (canonicalKey key = "attribute_name" ↔ key = "attribute_name" ∨ key = "attributeName") ∧
      (canonicalKey key = "enabled" ↔ key = "enabled") := by
  unfold canonicalKey
  by_cases hmarker : key = "rootMarker"
  · subst hmarker
    decide
  · by_cases hname : key = "attributeName"
    · subst hname
      decide
    · simp [hmarker, hname]

/-- The settings of a mapping come from the effective values of the three options. -/
theorem ofFields_of_effective {fields : Fields} (hnodup : (fields.map Prod.fst).Nodup) :
    ofFields fields = ofValues (effective? fields "root_marker" "rootMarker")
      (effective? fields "attribute_name" "attributeName") (lastGiven? fields "enabled") := by
  unfold ofFields canonicalFields
  simp only [get?_ofPairs]
  rw [lastGiven?_renamed (by decide) (fun key => (canonicalKey_eq_iff key).1) hnodup,
    lastGiven?_renamed (by decide) (fun key => (canonicalKey_eq_iff key).2.1) hnodup,
    lastGiven?_renamed_self fun key => (canonicalKey_eq_iff key).2.2]

/-- The keys that the settings are read from. -/
def optionKeys : List String :=
  ["root_marker", "rootMarker", "attribute_name", "attributeName", "enabled"]

theorem ofFields_of_perm {ps qs : Fields} (h : ps.Perm qs) (hnodup : (ps.map Prod.fst).Nodup)
    (hmarker : firstOf? ps ["root_marker", "rootMarker"] =
      firstOf? qs ["root_marker", "rootMarker"])
    (hname : firstOf? ps ["attribute_name", "attributeName"] =
      firstOf? qs ["attribute_name", "attributeName"]) : ofFields ps = ofFields qs := by
  rw [ofFields_of_effective hnodup, ofFields_of_effective ((h.map Prod.fst).nodup hnodup),
    effective?_of_perm h hnodup hmarker, effective?_of_perm h hnodup hname,
    lastGiven?_of_perm h hnodup]

theorem ofFields_filter {fields : Fields} (hnodup : (fields.map Prod.fst).Nodup) :
    ofFields (fields.filter (optionKeys.contains ·.1)) = ofFields fields := by
  have hfilter : ((fields.filter (optionKeys.contains ·.1)).map Prod.fst).Nodup :=
    hnodup.sublist (List.filter_sublist.map Prod.fst)
  rw [ofFields_of_effective hnodup, ofFields_of_effective hfilter,
    effective?_filter (by decide) (by decide), effective?_filter (by decide) (by decide),
    lastGiven?_filter (by decide)]

/-- The settings of a mapping filled with any pairs. Of two spellings the one that entered later
counts, so neither another order of the keys matters that leaves the spellings of each option in
theirs, nor anything under other keys. -/
theorem ofFields_ofPairs :
    (∀ pairs, ofFields (ofPairs pairs) = ofValues (effective? pairs "root_marker" "rootMarker")
        (effective? pairs "attribute_name" "attributeName") (lastGiven? pairs "enabled")) ∧
      (∀ ps qs, (ofPairs ps).Perm (ofPairs qs) →
        firstOf? (ofPairs ps) ["root_marker", "rootMarker"] =
          firstOf? (ofPairs qs) ["root_marker", "rootMarker"] →
        firstOf? (ofPairs ps) ["attribute_name", "attributeName"] =
          firstOf? (ofPairs qs) ["attribute_name", "attributeName"] →
        ofFields (ofPairs ps) = ofFields (ofPairs qs)) ∧
      ∀ ps qs, (ofPairs ps).filter (optionKeys.contains ·.1) =
          (ofPairs qs).filter (optionKeys.contains ·.1) →
        ofFields (ofPairs ps) = ofFields (ofPairs qs) := by
  refine ⟨fun pairs => ?_, fun ps qs hperm hmarker hname => ?_, fun ps qs hsame => ?_⟩
  · rw [ofFields_of_effective (nodup_keys_ofPairs pairs), effective?_ofPairs, effective?_ofPairs,
      lastGiven?_ofPairs]
  · exact ofFields_of_perm hperm (nodup_keys_ofPairs ps) hmarker hname
  · rw [← ofFields_filter (nodup_keys_ofPairs ps), hsame, ofFields_filter (nodup_keys_ofPairs qs)]

/-- Both options under both spellings, the root marker under the first of its spellings again. -/
def respelled : List (String × Datum) :=
  [("root_marker", .text "a/"), ("attributeName", .text "at"), ("rootMarker", .text "b/"),
    ("attribute_name", .text " path "), ("root_marker", .text "c/")]

theorem ofFields_respelled :
    ofFields (ofPairs respelled) = .ok ⟨"b/", "path", true⟩ ∧
      ofFields (ofPairs (("level", .null) :: respelled)) = .ok ⟨"b/", "path", true⟩ ∧
      ofFields (ofPairs [("attributeName", .text "at"), ("root_marker", .text "c/"),
        ("rootMarker", .text "b/"), ("attribute_name", .text " path ")]) =
        .ok ⟨"b/", "path", true⟩ := by
  have hvalues : ofFields (ofPairs respelled) = .ok ⟨"b/", "path", true⟩ :=
    (ofFields_ofPairs.1 respelled).trans (by decide +kernel)
  refine ⟨hvalues, ?_, ?_⟩
  · exact (ofFields_ofPairs.2.2 _ respelled rfl).trans hvalues
  · rw [← hvalues]
    exact ofFields_ofPairs.2.1 _ respelled (List.Perm.swap ..) (by decide) (by decide)

end Settings

end TopTag
