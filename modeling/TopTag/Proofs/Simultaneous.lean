import TopTag.Proofs.Located
import TopTag.Proofs.Weaving

/-!
# Splicing is simultaneous insertion

`render` inserts one text after another into a source that changes under it. Here its result is said
without any order of insertions: before each character of the source, and at its end, stand the
texts of the opening tags that are anchored there (`render_eq_flatMap`). The tags may be of any
shape; it is only asked that their anchors are whole numbers within the source.
-/

namespace TopTag

/-! ## What a tag has to be given -/

namespace Tree

/-- The word is to be found in the value. -/
def has (t : Tree) (word : String) : Bool :=
  match t.mentions word with
  | .ok found => found
  | .error _ => false

/-- What going through the attributes of a tag meets. -/
def attributeEntries (tag : Tree) : List Tree :=
  match (tag.get "attributes").entries with
  | .ok es => es
  | .error _ => []

/-- The attributes of a tag without a start. -/
def newAttributes (tag : Tree) : List Tree := tag.attributeEntries.filter fun a => !a.has "start"

/-- An attribute as it is written, when it can be. -/
def writtenForm (a : Tree) : String :=
  match Splice.attributeText a with
  | .ok written => written
  | .error _ => ""

/-- The new attributes of a tag as they are written, each with a blank in front. -/
def newText (tag : Tree) : List Char :=
  tag.newAttributes.flatMap fun a => ' ' :: a.writtenForm.toList

/-- The value behind which new attributes of a tag go: its last attribute with an end, or its
name. -/
def holder (tag : Tree) : Tree :=
  (tag.attributeEntries.filter (·.has "end")).getLast?.getD (tag.get "name")

/-- The offset at which a tag is anchored. -/
def anchoredAt? (tag : Tree) : Option Int := (tag.holder.field? "end").bind Splice.position?

/-- The opening tags that a walk of the tree meets. -/
def openingTags (t : Tree) : List Tree :=
  ((walk (Spot.root t)).map fun v => v.spot.tree).filter (·.isA "JSXOpeningElement")

/-- The attributes of the tag can be gone through, and the new ones can be written. -/
def IsWritable (tag : Tree) : Prop :=
  (tag.get "attributes").entries = .ok tag.attributeEntries ∧
    ∀ a ∈ tag.newAttributes, Splice.attributeText a = .ok a.writtenForm

/-- What has to be inserted for a tag. -/
def insertion (tag : Tree) : Option Insertion :=
  if tag.newAttributes.isEmpty then none
  else (tag.holder.field? "end").map fun offset => ⟨offset, String.ofList tag.newText⟩

end Tree

namespace Splice

open TopTag.Tree (has writtenForm)

theorem has_of_mentions {t : Tree} {word : String} {found : Bool}
    (h : t.mentions word = .ok found) : t.has word = found := by
  rw [has, h]

theorem lacking_eq_filter {word : String} {as new : List Tree} (h : lacking word as = .ok new) :
    new = as.filter fun a => !a.has word := by
  induction as generalizing new with
  | nil =>
    cases h
    rfl
  | cons a rest ih =>
    obtain ⟨found, hfound, h⟩ := exists_of_bind_ok h
    obtain ⟨others, hothers, h⟩ := exists_of_bind_ok h
    obtain rfl := ih hothers
    cases h
    rw [List.filter_cons, has_of_mentions hfound]
    cases found <;> rfl

theorem lastMentioning?_eq_getLast? {word : String} {as : List Tree} {o : Option Tree}
    (h : lastMentioning? word as = .ok o) : o = (as.filter (·.has word)).getLast? := by
  induction as generalizing o with
  | nil =>
    cases h
    rfl
  | cons a rest ih =>
    obtain ⟨found, hfound, h⟩ := exists_of_bind_ok h
    obtain ⟨later, hlater, h⟩ := exists_of_bind_ok h
    obtain rfl := ih hlater
    cases h
    rw [List.filter_cons, has_of_mentions hfound]
    cases found with
    | false => simp
    | true =>
      rw [if_pos rfl, if_pos rfl, List.getLast?_cons]
      cases (rest.filter (·.has word)).getLast? <;> rfl

theorem spaced_eq_flatMap {as : List Tree} {text : String} (h : spaced as = .ok text) :
    (∀ a ∈ as, attributeText a = .ok a.writtenForm) ∧
      text.toList = as.flatMap fun a => ' ' :: a.writtenForm.toList := by
  induction as generalizing text with
  | nil =>
    cases h
    exact ⟨nofun, rfl⟩
  | cons a rest ih =>
    obtain ⟨first, hfirst, h⟩ := exists_of_bind_ok h
    obtain ⟨others, hothers, h⟩ := exists_of_bind_ok h
    obtain ⟨hforms, htext⟩ := ih hothers
    cases h
    have hform : a.writtenForm = first := by rw [writtenForm, hfirst]
    refine ⟨List.forall_mem_cons.mpr ⟨by rw [hfirst, hform], hforms⟩, ?_⟩
    simp [hform, htext]

/-- A node asks for the insertion of a tag, if it is one. -/
theorem insertion?_ok {node : Tree} {o : Option Insertion} (h : insertion? node = .ok o) :
    node.isA "JSXOpeningElement" = false ∧ o = none ∨
      node.isA "JSXOpeningElement" = true ∧ node.IsWritable ∧ o = node.insertion := by
  obtain ⟨kind, hkind, h⟩ := exists_of_bind_ok h
  have hisA : node.isA "JSXOpeningElement" = kind.isText "JSXOpeningElement" := by
    rw [Tree.isA, Tree.require_eq_ok.mp hkind, Option.any_some]
  rw [hisA]
  split at h
  · rename_i hopening
    obtain ⟨es, hentries, h⟩ := exists_of_bind_ok h
    obtain ⟨new, hnew, h⟩ := exists_of_bind_ok h
    have hes : node.attributeEntries = es := by rw [Tree.attributeEntries, hentries]
    have hadded : node.newAttributes = new := by
      rw [Tree.newAttributes, hes, lacking_eq_filter hnew]
    rw [Tree.IsWritable, Tree.insertion, Tree.newText, hadded, hes]
    split at h
    · rename_i hempty
      cases h
      refine .inr ⟨hopening, ⟨hentries, ?_⟩, by rw [if_pos hempty]⟩
      simp [List.isEmpty_iff.mp hempty]
    · rename_i hempty
      obtain ⟨offset, hoffset, h⟩ := exists_of_bind_ok h
      obtain ⟨text, htext, h⟩ := exists_of_bind_ok h
      obtain ⟨last, hlast, hoffset⟩ := exists_of_bind_ok hoffset
      obtain ⟨hforms, htext⟩ := spaced_eq_flatMap htext
      have hholder : node.holder.field? "end" = some offset := by
        rw [Tree.holder, hes, ← lastMentioning?_eq_getLast? hlast]
        split at hoffset <;> cases hoffset
        assumption
      cases h
      refine .inr ⟨hopening, ⟨hentries, hforms⟩, ?_⟩
      rw [if_neg hempty, hholder, ← htext, String.ofList_toList]
      rfl
  · rename_i hother
    cases h
    exact .inl ⟨by simpa using hother, rfl⟩

/-- The insertions of a walk are those of its opening tags. -/
theorem insertionsOf_eq_filterMap {visits : List Visit} {is : List Insertion}
    (h : insertionsOf visits = .ok is) :
    (∀ tag ∈ (visits.map fun v => v.spot.tree).filter (·.isA "JSXOpeningElement"),
      tag.IsWritable) ∧
    is = ((visits.map fun v => v.spot.tree).filter (·.isA "JSXOpeningElement")).filterMap
      Tree.insertion := by
  induction visits generalizing is with
  | nil =>
    cases h
    exact ⟨nofun, rfl⟩
  | cons v rest ih =>
    obtain ⟨first, hfirst, h⟩ := exists_of_bind_ok h
    obtain ⟨others, hothers, h⟩ := exists_of_bind_ok h
    obtain ⟨hwritable, rfl⟩ := ih hothers
    cases h
    rw [List.map_cons]
    rcases insertion?_ok hfirst with ⟨hkind, rfl⟩ | ⟨hkind, hfits, rfl⟩
    · rw [List.filter_cons, hkind, if_neg Bool.false_ne_true]
      exact ⟨hwritable, rfl⟩
    · rw [List.filter_cons, hkind, if_pos rfl, List.filterMap_cons]
      refine ⟨List.forall_mem_cons.mpr ⟨hfits, hwritable⟩, ?_⟩
      cases v.spot.tree.insertion <;> rfl

theorem positioned_eq_filterMap {is : List Insertion} {placed : List (Int × String)}
    (h : positioned is = .ok placed) :
    placed = is.filterMap fun i => (position? i.offset).map (·, i.text) := by
  induction is generalizing placed with
  | nil =>
    cases h
    rfl
  | cons i rest ih =>
    rw [positioned] at h
    split at h
    · rename_i n hn
      obtain ⟨others, hothers, h⟩ := exists_of_bind_ok h
      obtain rfl := ih hothers
      cases h
      rw [List.filterMap_cons, hn]
      rfl
    · cases h

/-- Insertions that have whole numbers for offsets are made from the rear to the front. -/
theorem apply_ok {source result : String} {is : List Insertion}
    (h : apply source is = .ok result) (his : ∀ i ∈ is, (position? i.offset).isSome = true) :
    result.toList = applyAll source.toList (rearFirst
      (is.filterMap fun i => (position? i.offset).map (·, i.text))) := by
  unfold apply at h
  split at h
  · rename_i text
    have hnull := his ⟨.null, text⟩ List.mem_cons_self
    cases hnull
  · obtain ⟨placed, hplaced, h⟩ := exists_of_bind_ok h
    obtain rfl := positioned_eq_filterMap hplaced
    cases h
    rw [String.toList_ofList]

/-! ## Weaving, offset by offset -/

theorem weave_eq_flatMap (texts : Nat → List Char) (i : Nat) (source : List Char) :
    weave texts i source =
      (List.range (source.length + 1)).flatMap fun k => texts (i + k) ++ source[k]?.toList := by
  induction source generalizing i with
  | nil => simp [weave, List.range_succ]
  | cons c rest ih =>
    have hshift (k : Nat) : i + 1 + k = i + (k + 1) := by omega
    rw [weave, ih, List.length_cons, List.range_succ_eq_map (n := rest.length + 1),
      List.flatMap_cons, List.flatMap_map]
    simp [hshift]

/-- Every character of the source stays, in its order. -/
theorem sublist_weave (texts : Nat → List Char) (i : Nat) (source : List Char) :
    source.Sublist (weave texts i source) := by
  induction source generalizing i with
  | nil => exact List.nil_sublist _
  | cons c rest ih =>
    rw [weave]
    exact List.sublist_append_of_sublist_right ((ih (i + 1)).cons_cons c)

/-- Only a tag with new attributes has an insertion, and it is made where the tag is anchored. -/
theorem position?_of_insertion {tag : Tree} {i : Insertion} (h : tag.insertion = some i) :
    tag.newAttributes ≠ [] ∧ position? i.offset = tag.anchoredAt? := by
  rw [Tree.insertion] at h
  split at h
  · cases h
  · rename_i hnew
    obtain ⟨offset, hoffset, rfl⟩ := Option.map_eq_some_iff.mp h
    refine ⟨by simpa using hnew, ?_⟩
    rw [Tree.anchoredAt?, hoffset]
    rfl

/-- The position of a tag's insertion is where the tag is anchored. -/
theorem bind_insertion (tag : Tree) :
    (tag.insertion.bind fun i => (position? i.offset).map (·, i.text)) =
      if tag.newAttributes.isEmpty then none
      else tag.anchoredAt?.map (·, String.ofList tag.newText) := by
  rw [Tree.insertion, Tree.anchoredAt?]
  split
  · rfl
  · cases tag.holder.field? "end" <;> rfl

/-- The texts at an offset are those of the tags that are anchored there, the last tag first. -/
theorem textsAt_filterMap_insertion (tags : List Tree) (j : Nat) :
    textsAt ((tags.filterMap Tree.insertion).filterMap
        fun i => (position? i.offset).map (·, i.text)) j =
      (tags.filter fun tag => tag.anchoredAt? == some (j : Int)).reverse.flatMap Tree.newText := by
  rw [List.filterMap_filterMap, funext bind_insertion]
  induction tags with
  | nil => rfl
  | cons tag rest ih =>
    have htags : ((tag :: rest).filter fun tag => tag.anchoredAt? == some (j : Int)).reverse.flatMap
        Tree.newText = (rest.filter fun tag => tag.anchoredAt? == some (j : Int)).reverse.flatMap
          Tree.newText ++ if tag.anchoredAt? = some (j : Int) then tag.newText else [] := by
      by_cases hj : tag.anchoredAt? = some (j : Int)
      · simp [hj]
      · simp [hj]
    rw [htags, ← ih, List.filterMap_cons]
    cases hempty : tag.newAttributes.isEmpty with
    | true => simp [Tree.newText, List.isEmpty_iff.mp hempty]
    | false =>
      rw [if_neg Bool.false_ne_true]
      cases tag.anchoredAt? with
      | none => simp
      | some n => simp [textsAt_cons]

end Splice

/-- Where the tags with new attributes are anchored at whole numbers within the source, the written
text is the concatenation over all offsets, from the first to the end, of the texts of the tags
anchored there, those later on the walk first, and of the character at the offset. A tag's text is
made of its new attributes in their order. So every character of the source stays, in its order. -/
theorem render_eq_flatMap (source : String) (t : Tree) (result : String)
    (h : render source t = .ok result)
    (hrange : ∀ tag ∈ t.openingTags, tag.newAttributes ≠ [] →
      ∃ n : Nat, tag.anchoredAt? = some (n : Int) ∧ n ≤ source.length) :
    (∀ tag ∈ t.openingTags, tag.IsWritable) ∧
    result.toList = ((List.range (source.length + 1)).flatMap fun i : Nat =>
      (t.openingTags.filter fun tag => tag.anchoredAt? == some (i : Int)).reverse.flatMap
        Tree.newText ++ source.toList[i]?.toList) ∧
    source.toList.Sublist result.toList := by
  obtain ⟨is, his, happly⟩ := exists_of_bind_ok h
  obtain ⟨hwritable, heq⟩ := Splice.insertionsOf_eq_filterMap his
  rw [← Tree.openingTags] at hwritable heq
  have hpositions : ∀ i ∈ is, ∃ n : Nat,
      Splice.position? i.offset = some (n : Int) ∧ n ≤ source.toList.length := by
    intro i hi
    rw [heq] at hi
    obtain ⟨tag, htag, hi⟩ := List.mem_filterMap.mp hi
    obtain ⟨hnew, hposition⟩ := Splice.position?_of_insertion hi
    rw [hposition, String.length_toList]
    exact hrange tag htag hnew
  have hresult := Splice.apply_ok happly fun i hi => by
    obtain ⟨n, hn, -⟩ := hpositions i hi
    rw [hn]
    rfl
  rw [Splice.applyAll_rearFirst, heq, Splice.weave_congr
    fun j _ => Splice.textsAt_filterMap_insertion t.openingTags j] at hresult
  · refine ⟨hwritable, ?_, ?_⟩
    · rw [hresult, Splice.weave_eq_flatMap, String.length_toList]
      simp only [Nat.zero_add]
    · rw [hresult]
      exact Splice.sublist_weave _ _ _
  · intro p hp
    obtain ⟨i, hi, hplaced⟩ := List.mem_filterMap.mp hp
    obtain ⟨n, hn, hle⟩ := hpositions i hi
    rw [hn] at hplaced
    cases hplaced
    dsimp only
    omega

/-- An element whose tag ends its name at an offset and has new attributes. -/
def freshElement (stop : Int) (new : List (String × String)) (children : List Tree) : Tree :=
  .object [("type", .text "JSXElement"),
    ("openingElement", .object [("type", .text "JSXOpeningElement"),
      ("name", .object [("type", .text "JSXIdentifier"), ("end", .int stop)]),
      ("attributes", .list (new.map fun a => .stringAttribute a.1 a.2))]),
    ("children", .list children)]

/-- Two of the three tags are anchored at one offset, and one of them has two new attributes. -/
def overlaidElements : Tree :=
  freshElement 2 [("x", "1"), ("y", "2")]
    [freshElement 5 [("z", "\"")] [], freshElement 2 [("w", "")] []]

theorem render_overlaidElements : ∃ result,
    render "<a><b/></a>" overlaidElements = .ok result ∧
    (∀ tag ∈ overlaidElements.openingTags, tag.newAttributes ≠ [] →
      ∃ n : Nat, tag.anchoredAt? = some (n : Int) ∧ n ≤ "<a><b/></a>".length) ∧
    result = "<a w=\"\" x=\"1\" y=\"2\"><b z=\"&quot;\"/></a>" ∧
    "<a><b/></a>".toList.Sublist result.toList := by
  have hanchors : overlaidElements.openingTags.all (fun tag =>
      (List.range 12).any fun n => tag.anchoredAt? == some (n : Int)) = true := by decide +kernel
  have hrange : ∀ tag ∈ overlaidElements.openingTags, tag.newAttributes ≠ [] →
      ∃ n : Nat, tag.anchoredAt? = some (n : Int) ∧ n ≤ "<a><b/></a>".length := by
    intro tag htag _
    obtain ⟨n, hn, hanchor⟩ := List.any_eq_true.mp (List.all_eq_true.mp hanchors tag htag)
    exact ⟨n, eq_of_beq hanchor, Nat.le_of_lt_succ (List.mem_range.mp hn)⟩
  have hok : (render "<a><b/></a>" overlaidElements).isOk = true := by decide +kernel
  cases hresult : render "<a><b/></a>" overlaidElements with
  | error fault =>
    rw [hresult] at hok
    cases hok
  | ok result =>
    obtain ⟨-, htext, hsub⟩ := render_eq_flatMap _ _ result hresult hrange
    refine ⟨result, rfl, hrange, ?_, hsub⟩
    rw [← String.ofList_toList (s := result), htext]
    decide +kernel

end TopTag
