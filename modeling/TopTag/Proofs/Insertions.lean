import TopTag.Proofs.Layout
import TopTag.Proofs.Passes
import TopTag.Proofs.Weaving

/-!
# The insertions for added attributes

Attributes from the source have offsets and added ones have none, so an opening tag asks for an
insertion just when attributes were added to it: their text, behind the last part of the tag. A walk
collects these insertions in the order of the tags.
-/

namespace TopTag

/-- A text as it stands between double quotes. -/
def quotedText (s : String) : List Char :=
  s.toList.flatMap fun c => if c = '"' then "&quot;".toList else [c]

/-- An attribute with a text for its value, as it stands behind another one. -/
def writtenAttribute (a : String × String) : String :=
  " " ++ a.1 ++ "=\"" ++ String.ofList (quotedText a.2) ++ "\""

/-- The offset, in characters, where the last part of a tag ends. -/
def Behind (source : String) (n : Concrete) (offset : Nat) : Prop :=
  ∃ last, n.lastPart? = some last ∧ offset ≤ source.toList.length ∧
    SourceText.byteAt source.toList offset = last.head.stop

namespace Splice

theorem escapeList_eq (cs : List Char) :
    escapeList cs = cs.flatMap fun c => if c = '"' then "&quot;".toList else [c] := by
  induction cs with
  | nil => rfl
  | cons c rest ih =>
    rw [escapeList, List.flatMap_cons, ← ih]
    split <;> rfl

theorem attributeText_stringAttribute (name value : String) :
    attributeText (.stringAttribute name value) = .ok (name ++ "=\"" ++ escape value ++ "\"") := rfl

/-- The attributes added at a place, one after another. -/
theorem spaced_nodes (added : Additions) (place : Place) :
    spaced (added.nodes place) = .ok (String.join ((added place).map writtenAttribute)) := by
  rw [Additions.nodes]
  induction added place with
  | nil => rfl
  | cons a rest ih =>
    have htext : writtenAttribute a = " " ++ (a.1 ++ "=\"" ++ escape a.2 ++ "\"") := by
      rw [writtenAttribute, quotedText, ← escapeList_eq, ← escape]
      simp only [String.append_assoc]
    rw [List.map_cons, spaced, attributeText_stringAttribute, ih, List.map_cons, String.join_cons,
      htext]
    rfl

/-! ## The attributes of a tag -/

theorem lacking_of_unmentioned {word : String} {as : List Tree}
    (h : ∀ a ∈ as, a.mentions word = .ok false) : lacking word as = .ok as := by
  induction as with
  | nil => rfl
  | cons a rest ih =>
    obtain ⟨ha, hrest⟩ := List.forall_mem_cons.mp h
    rw [lacking, ha, ih hrest]
    rfl

theorem lacking_append {word : String} {old new : List Tree}
    (hold : ∀ a ∈ old, a.mentions word = .ok true)
    (hnew : ∀ a ∈ new, a.mentions word = .ok false) : lacking word (old ++ new) = .ok new := by
  induction old with
  | nil => exact lacking_of_unmentioned hnew
  | cons a rest ih =>
    obtain ⟨ha, hrest⟩ := List.forall_mem_cons.mp hold
    rw [List.cons_append, lacking, ha, ih hrest]
    rfl

theorem lastMentioning?_of_unmentioned {word : String} {as : List Tree}
    (h : ∀ a ∈ as, a.mentions word = .ok false) : lastMentioning? word as = .ok none := by
  induction as with
  | nil => rfl
  | cons a rest ih =>
    obtain ⟨ha, hrest⟩ := List.forall_mem_cons.mp h
    rw [lastMentioning?, ha, ih hrest]
    rfl

theorem lastMentioning?_append {word : String} {old new : List Tree}
    (hold : ∀ a ∈ old, a.mentions word = .ok true)
    (hnew : ∀ a ∈ new, a.mentions word = .ok false) :
    lastMentioning? word (old ++ new) = .ok old.getLast? := by
  induction old with
  | nil => exact lastMentioning?_of_unmentioned hnew
  | cons a rest ih =>
    obtain ⟨ha, hrest⟩ := List.forall_mem_cons.mp hold
    rw [List.cons_append, lastMentioning?, ha, ih hrest, List.getLast?_cons]
    cases rest.getLast? <;> rfl

end Splice

section

variable {source : String} {t : Tree} {n : Concrete}

theorem Spans.withAttributes (h : Spans source t n) (added : Additions) (place : Place) :
    Spans source (t.withAttributes added place) n := by
  obtain ⟨start, stop, hstart, hstop, hbyte, hbyte', hs, he⟩ := h
  refine ⟨start, stop, hstart, hstop, hbyte, hbyte', ?_, ?_⟩
  · rw [Tree.field?_withAttributes _ _ _ (by decide), hs]
    rfl
  · rw [Tree.field?_withAttributes _ _ _ (by decide), he]
    rfl

theorem Spans.withAttributesItems {items : List Tree} {ns : List Concrete}
    (h : List.Forall₂ (Spans source) items ns) (added : Additions) (place : Place) (i : Nat) :
    List.Forall₂ (Spans source) (Tree.withAttributesItems added place i items) ns := by
  induction h generalizing i with
  | nil => exact .nil
  | cons hspan _ ih => exact .cons (hspan.withAttributes added _) (ih (i + 1))

/-- What has offsets is an object that mentions them. -/
theorem Spans.mentions (h : Spans source t n) :
    t.mentions "start" = .ok true ∧ t.mentions "end" = .ok true := by
  obtain ⟨start, stop, -, -, -, -, hs, he⟩ := h
  cases t with
  | object fields =>
    rw [Tree.mentions, Tree.mentions, show fields.lookup "start" = _ from hs,
      show fields.lookup "end" = _ from he]
    exact ⟨rfl, rfl⟩
  | _ => cases hs

theorem mentions_of_forall₂ {items : List Tree} {ns : List Concrete}
    (h : List.Forall₂ (Spans source) items ns) :
    ∀ a ∈ items, a.mentions "start" = .ok true ∧ a.mentions "end" = .ok true := by
  induction h with
  | nil => simp
  | cons hspan _ ih => exact List.forall_mem_cons.mpr ⟨hspan.mentions, ih⟩

/-- An added attribute has no offsets. -/
theorem Additions.mentions_nodes (added : Additions) (place : Place) :
    ∀ a ∈ added.nodes place, a.mentions "start" = .ok false ∧ a.mentions "end" = .ok false := by
  intro a ha
  obtain ⟨b, -, rfl⟩ := List.mem_map.mp ha
  exact ⟨rfl, rfl⟩

/-- What the last part of a tag was made into: the last attribute, or the name. -/
theorem spans_lastPart {items : List Tree} {name : Tree} {last : Concrete}
    (hitems : List.Forall₂ (Spans source) items n.attributeParts)
    (hname : ∀ c, n.child? "name" = some c → Spans source name c)
    (hlast : n.lastPart? = some last) : Spans source (items.getLast?.getD name) last := by
  rw [Concrete.lastPart?, Option.or_eq_some_iff] at hlast
  rcases hlast with hlast | ⟨hnone, hlast⟩
  · obtain ⟨before, hbefore⟩ := List.getLast?_eq_some_iff.mp hlast
    have hrev := List.forall₂_reverse_iff.mpr hitems
    rw [hbefore, List.reverse_append, List.reverse_singleton, List.singleton_append,
      List.forall₂_cons_right_iff] at hrev
    obtain ⟨u, rest, hspan, -, hu⟩ := hrev
    rw [← List.head?_reverse, hu]
    exact hspan
  · rw [List.getLast?_eq_none_iff.mp hnone] at hitems
    cases hitems
    exact hname last hlast

/-! ## One tag -/

/-- A node that is no opening tag asks for nothing. -/
theorem insertion?_of_other (hnode : t.isNode = true) (hkind : t.isA "JSXOpeningElement" = false) :
    Splice.insertion? t = .ok none := by
  obtain ⟨kind, hfield⟩ := Option.isSome_iff_exists.mp hnode
  rw [Tree.isA, hfield, Option.any_some] at hkind
  rw [Splice.insertion?, Tree.require_eq_ok.mpr hfield]
  exact if_neg (by simp [hkind])

/-- What an opening tag asks for that has attributes from the source and added ones. -/
theorem of_insertion?_ok (hkind : t.isA "JSXOpeningElement" = true) {old new : List Tree}
    (hattr : (t.get "attributes").entries = .ok (old ++ new))
    (hold : ∀ a ∈ old, a.mentions "start" = .ok true ∧ a.mentions "end" = .ok true)
    (hnew : ∀ a ∈ new, a.mentions "start" = .ok false ∧ a.mentions "end" = .ok false)
    {o : Option Insertion} (h : Splice.insertion? t = .ok o) :
    new = [] ∧ o = none ∨ new ≠ [] ∧ ∃ offset text,
      (old.getLast?.getD (t.get "name")).field? "end" = some offset ∧
        Splice.spaced new = .ok text ∧ o = some ⟨offset, text⟩ := by
  have hlacking : Splice.lacking "start" (old ++ new) = .ok new :=
    Splice.lacking_append (fun a ha => (hold a ha).1) fun a ha => (hnew a ha).1
  have hlast : Splice.lastMentioning? "end" (old ++ new) = .ok old.getLast? :=
    Splice.lastMentioning?_append (fun a ha => (hold a ha).2) fun a ha => (hnew a ha).2
  obtain ⟨kind, hrequire, h⟩ := exists_of_bind_ok h
  cases (Tree.require_eq_ok.mp hrequire).symm.trans (Tree.isA_iff.mp hkind)
  rw [if_pos (by decide)] at h
  obtain ⟨attributes, hentries, h⟩ := exists_of_bind_ok h
  cases hattr.symm.trans hentries
  obtain ⟨added, hadded, h⟩ := exists_of_bind_ok h
  cases hlacking.symm.trans hadded
  split at h
  · cases h
    exact .inl ⟨List.isEmpty_iff.mp ‹_›, rfl⟩
  · rename_i hne
    obtain ⟨offset, hoffset, h⟩ := exists_of_bind_ok h
    obtain ⟨text, htext, h⟩ := exists_of_bind_ok h
    obtain ⟨last, hlast', hoffset⟩ := exists_of_bind_ok hoffset
    cases hlast.symm.trans hlast'
    cases h
    refine .inr ⟨fun hnil => hne (by rw [hnil]; rfl), offset, text, ?_, htext, rfl⟩
    split at hoffset
    · cases hoffset
      assumption
    · cases hoffset

/-- A tag that can take attributes, after some were added to it. -/
theorem of_insertion?_withAttributes (hkind : t.isA "JSXOpeningElement" = true)
    (happ : t.isAppendable = true) {ns : List Concrete}
    (hitems : List.Forall₂ (Spans source) t.attributeItems ns) {added : Additions} {place : Place}
    {o : Option Insertion} (h : Splice.insertion? (t.withAttributes added place) = .ok o) :
    added place = [] ∧ o = none ∨ added place ≠ [] ∧ ∃ items offset,
      List.Forall₂ (Spans source) items ns ∧
      (items.getLast?.getD ((t.get "name").withAttributes added (place ++ [.field "name"]))).field?
        "end" = some offset ∧
      o = some ⟨offset, String.join ((added place).map writtenAttribute)⟩ := by
  obtain ⟨happ', hattr⟩ : (t.withAttributes added place).isAppendable = true ∧ _ :=
    Tree.attributeItems_withAttributes hkind happ
  have hentries := Tree.entries_of_isAppendable happ'
  rw [hattr] at hentries
  have hitems' := Spans.withAttributesItems hitems added (place ++ [.field "attributes"]) 0
  have hinserted := of_insertion?_ok (by rwa [Tree.isA_withAttributes]) hentries
    (mentions_of_forall₂ hitems') (added.mentions_nodes place) h
  have hnil : added.nodes place = [] ↔ added place = [] := List.map_eq_nil_iff
  rw [ne_eq, hnil, Splice.spaced_nodes, Tree.get_withAttributes _ _ _ (by decide)] at hinserted
  rcases hinserted with hnone | ⟨hne, offset, _, hoffset, htext, ho⟩
  · exact .inl hnone
  · cases htext
    exact .inr ⟨hne, _, offset, hitems', hoffset, ho⟩

/-- A tag made from the source asks for the text of the attributes that were added to it, behind its
last part, and for nothing when there are none. -/
theorem Depicts.insertion? (ht : Depicts source t n) {added : Additions} {place : Place}
    {o : Option Insertion} (h : Splice.insertion? (t.withAttributes added place) = .ok o) :
    added place = [] ∧ o = none ∨ added place ≠ [] ∧ ∃ offset : Nat, Behind source n offset ∧
      o = some ⟨.int offset, String.join ((added place).map writtenAttribute)⟩ := by
  obtain ⟨old, hattr, hold⟩ := ht.attributes
  have hold' : List.Forall₂ (Spans source) t.attributeItems n.attributeParts := by
    rwa [Tree.attributeItems, hattr]
  have happ := Tree.isAppendable_iff.mpr (.inr ⟨old, hattr⟩)
  rcases of_insertion?_withAttributes ht.kind happ hold' h with
    hnone | ⟨hne, items, offset, hitems, hoffset, ho⟩
  · exact .inl hnone
  refine .inr ⟨hne, ?_⟩
  cases hlast : n.lastPart? with
  | none =>
    -- no attributes and no name: there is nothing to put the text behind
    obtain ⟨hparts, hname⟩ := Option.or_eq_none_iff.mp hlast
    rw [List.getLast?_eq_none_iff.mp hparts] at hitems
    cases hitems
    rw [ht.nameless hname] at hoffset
    cases hoffset
  | some last =>
    obtain ⟨-, stop, -, hstop, -, hbyte, -, hend⟩ :=
      spans_lastPart hitems (fun c hc => (ht.name c hc).withAttributes added _) hlast
    cases hoffset.symm.trans hend
    exact ⟨stop, ⟨last, hlast, hstop, hbyte⟩, ho⟩

/-- A node that was not made from a tag asks for nothing, and one that is an opening tag by its kind
alone cannot have attributes added. -/
theorem insertion?_of_not_isOpeningTag (hnode : t.isNode = true) (ht : t.isOpeningTag = false)
    (hbare : t.isA "JSXOpeningElement" = true → t.field? "attributes" = none → t.get "name" = .null)
    {added : Additions} {place : Place} {o : Option Insertion}
    (h : Splice.insertion? (t.withAttributes added place) = .ok o) :
    o = none ∧ (t.isA "JSXOpeningElement" = true → added place = []) := by
  cases hkind : t.isA "JSXOpeningElement" with
  | false =>
    rw [insertion?_of_other (by rwa [Tree.isNode_withAttributes])
      (by rwa [Tree.isA_withAttributes])] at h
    cases h
    exact ⟨rfl, fun hfalse => nomatch hfalse⟩
  | true =>
    have hattr : t.field? "attributes" = none := by
      rwa [Tree.isOpeningTag, hkind, Bool.true_and, Option.isSome_eq_false_iff,
        Option.isNone_iff_eq_none] at ht
    have hitems : List.Forall₂ (Spans "") t.attributeItems [] := by
      rw [Tree.attributeItems, hattr]
      exact .nil
    rcases of_insertion?_withAttributes hkind (Tree.isAppendable_iff.mpr (.inl hattr)) hitems h with
      ⟨hnil, ho⟩ | ⟨-, items, offset, hitems, hoffset, -⟩
    · exact ⟨ho, fun _ => hnil⟩
    · cases hitems
      rw [hbare hkind hattr] at hoffset
      cases hoffset

end

/-! ## All tags -/

/-- Where one text goes: the place of an opening tag in the tree, the concrete tag it was made from,
and an offset into the source, in characters. -/
structure Site where
  place : Place
  tag : Concrete
  offset : Nat

/-- The site is behind the last part of a tag, whose opening tag stands at the spot. -/
def Site.Fills (source : String) (site : Site) (s : Spot) : Prop :=
  site.place = s.place ∧ Depicts source s.tree site.tag ∧ Behind source site.tag site.offset

variable {source : String} {c : FileContext} {name : String}

/-- The insertions of a walk: one for each target, behind the last part of its tag. -/
theorem of_insertionsOf_ok {added : Additions} {a : String × String} {visits visits' : List Visit}
    (h : PaddedVisits added visits visits') (hnode : ∀ v ∈ visits, v.spot.tree.isNode = true)
    (hadded : ∀ v ∈ visits, added v.spot.place = if v.spot.isTarget c name then [a] else [])
    {tags : List Concrete} (hdepicts : List.Forall₂ (Depicts source)
      ((visits.map fun v => v.spot.tree).filter Tree.isOpeningTag) tags)
    (hbare : ∀ v ∈ visits, v.spot.tree.isA "JSXOpeningElement" = true →
      v.spot.tree.field? "attributes" = none → v.spot.tree.get "name" = .null)
    {is : List Insertion} (his : Splice.insertionsOf visits' = .ok is) :
    ∃ sites : List Site,
      List.Forall₂ (Site.Fills source) sites
        ((visits.map Visit.spot).filter (·.isTarget c name)) ∧
      is = sites.map (fun site => ⟨.int site.offset, writtenAttribute a⟩) ∧
      (sites.map Site.tag).Sublist tags := by
  induction h generalizing tags is with
  | nil =>
    cases his
    cases hdepicts
    exact ⟨[], .nil, rfl, .slnil⟩
  | pad hpart _ ih =>
    obtain ⟨first, hfirst, his⟩ := exists_of_bind_ok his
    obtain ⟨others, hothers, his⟩ := exists_of_bind_ok his
    have hnone := insertion?_of_other hpart.isNode <| Bool.eq_false_iff.mpr fun hkind =>
      absurd (hpart.isA hkind) (by simp)
    cases hnone.symm.trans hfirst
    cases his
    exact ih hnode hadded hdepicts hbare hothers
  | @keep v v' visits visits' hv _ ih =>
    obtain ⟨first, hfirst, his⟩ := exists_of_bind_ok his
    obtain ⟨others, hothers, his⟩ := exists_of_bind_ok his
    cases his
    obtain ⟨hnode, hnodes⟩ := List.forall_mem_cons.mp hnode
    obtain ⟨hadded, haddeds⟩ := List.forall_mem_cons.mp hadded
    obtain ⟨hbare, hbares⟩ := List.forall_mem_cons.mp hbare
    rw [hv.1, Spot.withAttributes] at hfirst
    rw [List.map_cons] at hdepicts ⊢
    cases hopening : v.spot.tree.isOpeningTag with
    | false =>
      obtain ⟨rfl, hnil⟩ := insertion?_of_not_isOpeningTag hnode hopening hbare hfirst
      have htarget : v.spot.isTarget c name = false := by
        refine Bool.eq_false_iff.mpr fun htarget => ?_
        rw [if_pos htarget] at hadded
        have hkind := (Bool.and_eq_true_iff.mp (Bool.and_eq_true_iff.mp htarget).1).1
        cases hadded.symm.trans (hnil hkind)
      rw [List.filter_cons_of_neg (by simp [hopening])] at hdepicts
      rw [List.filter_cons_of_neg (by simp [htarget])]
      exact ih hnodes haddeds hdepicts hbares hothers
    | true =>
      rw [List.filter_cons_of_pos hopening] at hdepicts
      obtain ⟨n, rest, hn, hrest, rfl⟩ := List.forall₂_cons_left_iff.mp hdepicts
      obtain ⟨sites, hsites, rfl, hsub⟩ := ih hnodes haddeds hrest hbares hothers
      cases htarget : v.spot.isTarget c name with
      | false =>
        rw [htarget, if_neg (by decide)] at hadded
        rcases hn.insertion? hfirst with ⟨-, rfl⟩ | ⟨hne, -⟩
        · rw [List.filter_cons_of_neg (by simp [htarget])]
          exact ⟨sites, hsites, rfl, hsub.cons n⟩
        · exact absurd hadded hne
      | true =>
        rw [htarget, if_pos rfl] at hadded
        rcases hn.insertion? hfirst with ⟨hnil, -⟩ | ⟨-, offset, hbehind, rfl⟩
        · cases hadded.symm.trans hnil
        · rw [List.filter_cons_of_pos htarget]
          refine ⟨⟨v.spot.place, n, offset⟩ :: sites, .cons ⟨rfl, hn, hbehind⟩ hsites, ?_,
            hsub.cons_cons n⟩
          simp [hadded, String.join_cons]

/-- An addition at the targets reaches a visited spot just when it is one of them. -/
theorem across_targetPlaces {t : Tree} (ht : t.hasDistinctKeys = true) (a : String × String)
    {v : Visit} (hv : v ∈ walk (Spot.root t)) :
    Additions.across (targetPlaces c name t) a v.spot.place =
      if v.spot.isTarget c name then [a] else [] := by
  have hwithin : Spot.Within (.root t) v.spot := exists_mem_walk.mp ⟨v, hv, rfl⟩
  have hiff : v.spot.place ∈ targetPlaces c name t ↔ v.spot.isTarget c name = true := by
    rw [mem_targetPlaces]
    constructor
    · rintro ⟨s, hs, htarget, hplace⟩
      have hat : t.at? s.place = some s.tree := (Spot.at_root t).within ht hs
      have hat' : t.at? v.spot.place = some v.spot.tree := (Spot.at_root t).within ht hwithin
      rw [hplace, hat'] at hat
      have heq : v.spot = s := by
        cases s
        cases hplace
        cases hat
        rfl
      rwa [heq]
    · exact fun htarget => ⟨v.spot, hwithin, htarget, rfl⟩
  simp only [Additions.across, hiff]

/-- The insertions for the tree of a source after an attribute was added at the targets. -/
theorem of_insertions_ok {t : Tree} (hnode : t.isNode = true) (ht : t.hasDistinctKeys = true)
    {cs tags : List Concrete} (hfrom : TagsFrom source cs t.nodes tags) (a : String × String)
    {is : List Insertion}
    (his : Splice.insertions (t.withAttributes (.across (targetPlaces c name t) a) []) = .ok is) :
    ∃ sites : List Site,
      List.Forall₂ (Site.Fills source) sites
        (((walk (Spot.root t)).map Visit.spot).filter (·.isTarget c name)) ∧
      is = sites.map (fun site => ⟨.int site.offset, writtenAttribute a⟩) ∧
      (sites.map Site.tag).Sublist tags := by
  have hwalk := walk_map_tree hnode
  have hmem : ∀ v ∈ walk (Spot.root t), v.spot.tree ∈ t.nodes := by
    intro v hv
    rw [← hwalk]
    exact List.mem_map.mpr ⟨v, hv, rfl⟩
  refine of_insertionsOf_ok (walk_withAttributes _ (Spot.root t)) (fun v hv => ?_)
    (fun v => across_targetPlaces ht a) (hwalk ▸ hfrom.depicts)
    (fun v hv => hfrom.bare _ (hmem v hv)) his
  exact isNode_of_within hnode (exists_mem_walk.mp ⟨v, hv, rfl⟩)

end TopTag
