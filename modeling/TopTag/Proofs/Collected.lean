import TopTag.Proofs.Insertions

/-!
# A pass for any marks

A pass may be made with any marks, not only with those that a search leaves. It appends while it
walks on in what it has changed, and still leaves the tree that one gets by collecting the targets
first and appending to each of them later (`inject_eq_collected`). The other parts of the tree stay
as they were, every marked tag has the attribute then, and a second pass finds nothing to do.
-/

namespace TopTag

/-! ## Appending at collected places -/

namespace Tree

/-- The tag with one more string attribute at the end of its list. -/
def appended (a : String × String) : Tree → Tree
  | .object fields => .object (appendAttributes [.stringAttribute a.1 a.2] fields)
  | t => t

/-- Appends the attribute to the tags at the given places, one after the other. -/
def appendAt (a : String × String) (places : List Place) (t : Tree) : Tree :=
  places.foldl (fun t p => t.update (appended a) p) t

theorem updateField_congr {f g : Tree → Tree} {key : String} {fields : List (String × Tree)}
    {v : Tree} (hv : fields.lookup key = some v) (hfg : f v = g v) :
    updateField f key fields = updateField g key fields := by
  induction fields with
  | nil => rfl
  | cons e rest ih =>
    obtain ⟨k, u⟩ := e
    by_cases hk : k = key
    · subst hk
      obtain rfl : u = v := by simpa using hv
      simp [updateField, hfg]
    · have hne : (key == k) = false := by simpa using Ne.symm hk
      rw [List.lookup_cons, hne] at hv
      simp [updateField, hk, ih hv]

/-- To change what stands at a place is to replace it. -/
theorem update_eq_of_at? {t u : Tree} {p : Place} (h : t.at? p = some u) (f : Tree → Tree) :
    t.update f p = t.update (fun _ => f u) p := by
  fun_induction at? t p with
  | case1 t =>
    cases h
    rfl
  | case2 t key rest ih =>
    obtain ⟨v, hv, hrest⟩ := Option.bind_eq_some_iff.mp h
    obtain ⟨fields, rfl, -⟩ := mem_of_at?_field hv
    rw [update, update, updateField_congr hv (ih v hrest)]
  | case3 items i rest ih =>
    obtain ⟨v, hv, hrest⟩ := Option.bind_eq_some_iff.mp h
    rw [update, update]
    congr 1
    apply List.ext_getElem?
    intro k
    by_cases hk : i = k
    · subst hk
      simp [hv, ih v hrest]
    · simp [hk]
  | case4 => cases h

variable {t : Tree} {a : String × String}

/-- One more tag gets the attribute. -/
theorem update_appended (ht : t.hasDistinctKeys = true) {places : List Place} {p : Place}
    (hp : p ∉ places) {tag : Tree} (hat : t.at? p = some tag)
    (htag : tag.isA "JSXOpeningElement" = true) :
    (t.withAttributes (.across places a) []).update (appended a) p =
      t.withAttributes (.across (places ++ [p]) a) [] := by
  obtain ⟨fields, rfl⟩ := isObject_of_isA htag
  have hat' := at?_withAttributes (.across places a) [] hat rfl
  rw [List.nil_append] at hat'
  have htag' : ((object fields).withAttributes (.across places a) p).isA "JSXOpeningElement" =
      true := by rwa [isA_withAttributes]
  obtain ⟨fields', hfields'⟩ := isObject_of_isA htag'
  have helse : ∀ q, ¬ [] ++ p <+: q → Additions.across [p] a q = [] := by
    intro q hq
    refine if_neg fun hmem => hq ?_
    obtain rfl := List.mem_singleton.mp hmem
    exact List.prefix_refl _
  have hupdate := update_eq_withAttributes (hasDistinctKeys_withAttributes _ [] ht) hat' helse
  rw [hfields', List.nil_append, ← appendAttributes_eq_withAttributes (hfields' ▸ htag') p]
    at hupdate
  rw [update_eq_of_at? hat', hfields', appended, hupdate, withAttributes_withAttributes]
  refine withAttributes_congr fun q _ => ?_
  by_cases hq : q = p
  · subst hq
    simp [Additions.across, hp]
  · simp [Additions.across, hq]

theorem withAttributes_across_nil (a : String × String) (place : Place) (t : Tree) :
    t.withAttributes (.across [] a) place = t := withAttributes_of_nil fun _ _ => rfl

/-- Appending at different tags is adding at all of them at one stroke. -/
theorem appendAt_eq_withAttributes (ht : t.hasDistinctKeys = true) {places : List Place}
    (hnodup : places.Nodup)
    (htags : ∀ p ∈ places, ∃ tag, t.at? p = some tag ∧ tag.isA "JSXOpeningElement" = true) :
    t.appendAt a places = t.withAttributes (.across places a) [] := by
  -- the places done so far go along, and the others are not among them
  have hloop (done : List Place) (hdone : (done ++ places).Nodup) :
      (t.withAttributes (.across done a) []).appendAt a places =
        t.withAttributes (.across (done ++ places) a) [] := by
    induction places generalizing done with
    | nil => rw [List.append_nil, appendAt, List.foldl_nil]
    | cons p rest ih =>
      obtain ⟨tag, hat, htag⟩ := htags p List.mem_cons_self
      have hp : p ∉ done := by
        intro hmem
        exact (List.nodup_append.mp hdone).2.2 p hmem p List.mem_cons_self rfl
      rw [appendAt, List.foldl_cons, update_appended ht hp hat htag]
      have hrest := ih hnodup.of_cons (fun q hq => htags q (List.mem_cons_of_mem _ hq))
        (done ++ [p]) (by simpa using hdone)
      rw [appendAt] at hrest
      rw [hrest, List.append_assoc, List.singleton_append]
  have hstart := hloop [] hnodup
  rwa [withAttributes_across_nil, List.nil_append] at hstart

/-! ## What a pass leaves alone -/

/-- A value stays at its place and as it is, when nothing is added at or below the place and it is
no list of attributes that gets longer. -/
theorem at?_withAttributes_of_apart {u : Tree} {q : Place} {added : Additions}
    (h : t.at? q = some u) (hbelow : ∀ p, q <+: p → added p = [])
    (hlist : ∀ p, q = p ++ [.field "attributes"] → added p = []) :
    (t.withAttributes added []).at? q = some u := by
  rcases at?_withAttributes_or added [] h with hat | ⟨p, items, hp, rfl, hat⟩
  · rw [hat, List.nil_append, withAttributes_of_nil hbelow]
  · rw [List.nil_append] at hp
    rw [hat, Additions.nodes, hlist p hp, List.map_nil, List.append_nil, List.nil_append,
      ← withAttributes, withAttributes_of_nil hbelow]

end Tree

/-! ## The tags of the new tree -/

theorem Padded.of_mem_right {α β : Type} {extra : β → Prop} {rel : α → β → Prop} {as : List α}
    {bs : List β} (h : Padded extra rel as bs) {b : β} (hb : b ∈ bs) :
    extra b ∨ ∃ a ∈ as, rel a b := by
  induction h with
  | nil => cases hb
  | pad hextra _ ih => grind
  | keep hrel _ ih => grind

section

variable {c : FileContext} {name : String} {t : Tree} {added : Additions}

theorem isMarkedTag_withAttributes (added : Additions) (x : Spot) :
    (x.withAttributes added).isMarkedTag c = x.isMarkedTag c := by
  rw [Spot.isMarkedTag, Spot.withAttributes_identity, Spot.isMarkedTag, Spot.withAttributes,
    Tree.isA_withAttributes]

/-- The marked tags of a tree with attributes added are those of the tree: no part of an attribute
is a tag, whatever the marks. -/
theorem exists_of_isMarkedTag {s : Spot} (hs : Spot.Within (.root (t.withAttributes added [])) s)
    (hmark : s.isMarkedTag c = true) :
    ∃ x, Spot.Within (.root t) x ∧ x.isMarkedTag c = true ∧ s = x.withAttributes added := by
  obtain ⟨v, hv, rfl⟩ := exists_mem_walk.mpr hs
  rcases (walk_withAttributes added (.root t)).of_mem_right hv with hpart | ⟨w, hw, hfollows, -⟩
  · have hkind := (Bool.and_eq_true_iff.mp hmark).1
    exact absurd (hpart.isA hkind) (by simp)
  · rw [hfollows, isMarkedTag_withAttributes] at hmark
    exact ⟨w.spot, exists_mem_walk.mp ⟨w, hw, rfl⟩, hmark, hfollows⟩

/-- At a spot that is met the attribute is added just when the spot is a target. -/
theorem across_of_within (ht : t.hasDistinctKeys = true) (a : String × String) {x : Spot}
    (hx : Spot.Within (.root t) x) : Additions.across (targetPlaces c name t) a x.place =
      if x.isTarget c name then [a] else [] := by
  obtain ⟨v, hv, rfl⟩ := exists_mem_walk.mpr hx
  exact across_targetPlaces ht a hv

/-- After the attribute was added at the targets, every marked tag has it. -/
theorem carries_of_isMarkedTag (ht : t.hasDistinctKeys = true) (value : String)
    (happ : ∀ s, Spot.Within (.root t) s → s.isMarkedTag c = true → s.tree.isAppendable = true)
    {s : Spot} (hs : Spot.Within
      (.root (t.withAttributes (.across (targetPlaces c name t) (name, value)) [])) s)
    (hmark : s.isMarkedTag c = true) :
    s.tree.isAppendable = true ∧ s.tree.carries name = true := by
  obtain ⟨x, hx, hmark', rfl⟩ := exists_of_isMarkedTag hs hmark
  have htag := (Bool.and_eq_true_iff.mp hmark').1
  have happend := happ x hx hmark'
  refine ⟨(Tree.attributeItems_withAttributes htag happend).1, ?_⟩
  change (x.tree.withAttributes _ x.place).carries name = true
  rw [Tree.carries_withAttributes htag happend, across_of_within ht _ hx, Spot.isTarget, hmark']
  cases x.tree.carries name <;> simp

theorem targetPlaces_eq_nil
    (h : ∀ s, Spot.Within (.root t) s → s.isMarkedTag c = true → s.tree.carries name = true) :
    targetPlaces c name t = [] := by
  apply List.eq_nil_iff_forall_not_mem.mpr
  intro p hp
  obtain ⟨s, hs, htarget, -⟩ := mem_targetPlaces.mp hp
  obtain ⟨hmark, hlacks⟩ := Bool.and_eq_true_iff.mp htarget
  simp [h s hs hmark] at hlacks

/-- Appending at the collected targets is adding at them. -/
theorem appendAt_targetPlaces (ht : t.hasDistinctKeys = true) (a : String × String) :
    t.appendAt a (targetPlaces c name t) =
      t.withAttributes (.across (targetPlaces c name t) a) [] := by
  apply Tree.appendAt_eq_withAttributes ht (nodup_targetPlaces ht)
  intro p hp
  obtain ⟨s, hs, htarget, rfl⟩ := mem_targetPlaces.mp hp
  have hmark := (Bool.and_eq_true_iff.mp htarget).1
  exact ⟨s.tree, (Spot.at_root t).within ht hs, (Bool.and_eq_true_iff.mp hmark).1⟩

/-- A target has the list it had, with the new attribute at the end. -/
theorem attributeItems_of_isTarget (ht : t.hasDistinctKeys = true) (value : String) {s : Spot}
    (hs : Spot.Within (.root t) s) (htarget : s.isTarget c name = true)
    (happend : s.tree.isAppendable = true) {added : Additions}
    (hadded : added = .across (targetPlaces c name t) (name, value)) :
    ∃ tag, (t.withAttributes added []).at? s.place = some tag ∧ tag.attributeItems =
      Tree.withAttributesItems added (s.place ++ [.field "attributes"]) 0 s.tree.attributeItems
        ++ [.stringAttribute name value] := by
  have hmark := (Bool.and_eq_true_iff.mp htarget).1
  have htag := (Bool.and_eq_true_iff.mp hmark).1
  obtain ⟨fields, hfields⟩ := Tree.isObject_of_isA htag
  have hat := Tree.at?_withAttributes added [] ((Spot.at_root t).within ht hs)
    (by rw [hfields]; rfl)
  have hplace : added s.place = [(name, value)] := by
    rw [hadded, across_of_within ht _ hs, if_pos htarget]
  refine ⟨_, hat, ?_⟩
  rw [List.nil_append, (Tree.attributeItems_withAttributes htag happend).2, Additions.nodes,
    hplace]
  rfl

/-- A pass over a tree whose marked tags all have the attribute changes nothing. -/
theorem inject_of_carries (ht : t.hasDistinctKeys = true) (hnode : t.isNode = true)
    (h : ∀ s, Spot.Within (.root t) s → s.isMarkedTag c = true →
      s.tree.isAppendable = true ∧ s.tree.carries name = true) :
    inject c name t [] = (⟨t, 0⟩, none) := by
  have hpass := inject_eq name ht hnode fun s hs hmark => (h s hs hmark).1
  rwa [targetPlaces_eq_nil fun s hs hmark => (h s hs hmark).2,
    Tree.withAttributes_across_nil] at hpass

end

/-- Whatever the marks, a pass that meets no fault counts its targets, which are the marked opening
tags on the walk without a plain attribute of the name, and leaves the tree with the attribute added
at these; this is the tree that one gets by appending to the targets when all were collected. The
list of each target is the one it had, with the new attribute at the end, and what is no such list
and has no target at or below its place is as it was. All marked tags have the attribute, and a
second pass changes nothing. -/
theorem inject_eq_collected (c : FileContext) (name : String) (t : Tree)
    (ht : t.hasDistinctKeys = true) (pass : Pass) (h : inject c name t [] = (pass, none)) :
    let places := targetPlaces c name t
    let added := Additions.across places (name, c.filePath)
    pass.added = (walk (.root t)).countP (·.spot.isTarget c name) ∧
    pass.tree = t.withAttributes added [] ∧
    pass.tree = t.appendAt (name, c.filePath) places ∧
    (∀ s, Spot.Within (.root t) s → s.isTarget c name = true →
      ∃ tag, pass.tree.at? s.place = some tag ∧ tag.attributeItems =
        Tree.withAttributesItems added (s.place ++ [.field "attributes"]) 0 s.tree.attributeItems
          ++ [.stringAttribute name c.filePath]) ∧
    (∀ q u, t.at? q = some u → (∀ p ∈ places, ¬ q <+: p ∧ q ≠ p ++ [.field "attributes"]) →
      pass.tree.at? q = some u) ∧
    (∀ s, Spot.Within (.root pass.tree) s → s.isMarkedTag c = true →
      s.tree.carries name = true) ∧
    inject c name pass.tree [] = (⟨pass.tree, 0⟩, none) := by
  intro places added
  have hsuccess : (inject c name t []).2 = none := by rw [h]
  have hshape := isAppendable_of_inject hsuccess
  obtain ⟨htree, hcount⟩ : pass.tree = t.withAttributes added [] ∧ pass.added = places.length := by
    have heq := h.symm.trans (inject_eq_of_success ht hsuccess)
    exact ⟨congrArg (·.1.tree) heq, congrArg (·.1.added) heq⟩
  have hnew : ∀ s, Spot.Within (.root pass.tree) s → s.isMarkedTag c = true →
      s.tree.isAppendable = true ∧ s.tree.carries name = true := by
    rw [htree]
    exact fun s => carries_of_isMarkedTag ht c.filePath fun x hx => (hshape x hx).2
  refine ⟨?_, htree, ?_, ?_, ?_, fun s hs hmark => (hnew s hs hmark).2, ?_⟩
  · rw [hcount, List.countP_eq_length_filter]
    simp [places, targetPlaces, List.filter_map, Function.comp_def]
  · rw [htree, appendAt_targetPlaces ht]
  · intro s hs htarget
    rw [htree]
    have hmark := (Bool.and_eq_true_iff.mp htarget).1
    exact attributeItems_of_isTarget ht c.filePath hs htarget ((hshape s hs).2 hmark) rfl
  · intro q u hq hplaces
    rw [htree]
    apply Tree.at?_withAttributes_of_apart hq
    · exact fun p hp => if_neg fun hmem => (hplaces p hmem).1 hp
    · exact fun p hp => if_neg fun hmem => (hplaces p hmem).2 hp
  · apply inject_of_carries _ _ hnew
    · rw [htree]
      exact Tree.hasDistinctKeys_withAttributes added [] ht
    · rw [htree, Tree.isNode_withAttributes]
      exact (hshape _ .refl).1

/-- A tag with an element in the value of its attribute. -/
def tagInTag : Tree :=
  .object [("type", .text "JSXOpeningElement"), ("attributes", .list
    [.object [("type", .text "JSXAttribute"),
      ("name", .object [("type", .text "JSXIdentifier"), ("name", .text "icon")]),
      ("value", .object [("type", .text "JSXElement"),
        ("openingElement", .object [("type", .text "JSXOpeningElement")])])]])]

/-- Marks both tags, and the place to which the new attribute of the outer one comes. -/
def looseMarks : FileContext :=
  ⟨"src/App.tsx", [.place [],
    .place [.field "attributes", .item 0, .field "value", .field "openingElement"],
    .place [.field "attributes", .item 1]]⟩

theorem inject_collected_tagInTag :
    tagInTag.hasDistinctKeys = true ∧
    ∃ pass, inject looseMarks "data-path" tagInTag [] = (pass, none) ∧ pass.added = 2 ∧
      pass.tree = tagInTag.appendAt ("data-path", "src/App.tsx") [[],
        [.field "attributes", .item 0, .field "value", .field "openingElement"]] ∧
      (∃ tag items, pass.tree.at? [] = some tag ∧
        tag.attributeItems = items ++ [.stringAttribute "data-path" "src/App.tsx"]) ∧
      pass.tree.at? [.field "attributes", .item 0, .field "name"] =
        tagInTag.at? [.field "attributes", .item 0, .field "name"] ∧
      inject looseMarks "data-path" pass.tree [] = (⟨pass.tree, 0⟩, none) := by
  have hkeys : tagInTag.hasDistinctKeys = true := by decide +kernel
  have hplaces : targetPlaces looseMarks "data-path" tagInTag = [[],
      [.field "attributes", .item 0, .field "value", .field "openingElement"]] := by decide +kernel
  have hcount : (walk (.root tagInTag)).countP (·.spot.isTarget looseMarks "data-path") = 2 := by
    decide +kernel
  have hroot : (Spot.root tagInTag).isTarget looseMarks "data-path" = true := by decide +kernel
  cases hpass : inject looseMarks "data-path" tagInTag [] with
  | mk pass fault =>
    have hnone : fault = none := by
      have hsnd : (inject looseMarks "data-path" tagInTag []).2 = none :=
        Option.isNone_iff_eq_none.mp (by decide +kernel)
      rwa [hpass] at hsnd
    subst hnone
    obtain ⟨hadded, -, htree, hlists, hframe, -, hsecond⟩ :=
      inject_eq_collected looseMarks "data-path" tagInTag hkeys pass hpass
    rw [hplaces] at htree hframe
    obtain ⟨tag, hat, hitems⟩ := hlists (.root tagInTag) .refl hroot
    refine ⟨hkeys, pass, rfl, hadded.trans hcount, htree, ⟨tag, _, hat, hitems⟩, ?_, hsecond⟩
    exact hframe _ _ rfl (by decide)

end TopTag
