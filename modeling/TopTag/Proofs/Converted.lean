import TopTag.Proofs.Sources

/-!
# Tags of converted trees

The opening tags of a converted tree are made from tags of the concrete tree. Each node of the tree
is made from the sources of its recipe, which lie in the range of its concrete node and apart from
one another; so the tags below it end their last parts there, at different bytes. Over all nodes
this is `file_tagsFrom`.
-/

namespace TopTag

variable {source : String} {role : Role} {n : Concrete} {t : Tree}

/-- A node that is no file has the offsets of its concrete node, counted in characters. -/
theorem Grown.spans (h : Grown (.ofString source) role n t) (hrole : role ≠ .file)
    (hn : n.Fits source) : Spans source t n := by
  obtain ⟨start, stop, hstart, hstop, hfields⟩ := h.offsets hrole
  obtain ⟨i, hi, hbyte⟩ := SourceText.mem_boundaries.mp hn.start_boundary
  obtain ⟨j, hj, hbyte'⟩ := SourceText.mem_boundaries.mp hn.stop_boundary
  rw [← hbyte, SourceText.charOffset_byteAt source hi] at hstart
  rw [← hbyte', SourceText.charOffset_byteAt source hj] at hstop
  cases hstart
  cases hstop
  exact ⟨start, stop, hi, hj, hbyte, hbyte', hfields⟩

theorem GrownItems.spans {cs : List Concrete} {items : List Tree}
    (h : GrownItems (.ofString source) (cs.map Recipe.attributeRole) items)
    (hcs : ∀ c ∈ cs, c.Fits source) : List.Forall₂ (Spans source) items cs := by
  induction cs generalizing items with
  | nil =>
    cases h
    exact .nil
  | cons c rest ih =>
    obtain ⟨hc, hcs⟩ := List.forall_mem_cons.mp hcs
    cases h with
    | cons ht hitems =>
      exact .cons (ht.spans (Recipe.attributeRole_ne_file c) hc) (ih hitems hcs)

/-- An opening tag depicts the tag it is grown from. -/
theorem Grown.depicts {selfClosing : Bool}
    (h : Grown (.ofString source) (.openingTag selfClosing) n t) (hn : n.Orderly source) :
    Depicts source t n := by
  obtain ⟨v, hv, hattributes⟩ := h.exists_field rfl (show "attributes" ∉ baseKeys by decide) rfl
  obtain ⟨items, hitems, rfl⟩ := grownPart_many_iff.mp hattributes
  obtain ⟨name, hget, hname⟩ := h.exists_field rfl (show "name" ∉ baseKeys by decide) rfl
  have hget : t.get "name" = name := by rw [Tree.get, hget, Option.getD_some]
  refine ⟨h.isA_openingElement, h.spans (by simp) hn.fits, ⟨items, hv, ?_⟩, ?_, ?_⟩
  · exact hitems.spans fun c hc => (hn.child (Concrete.mem_of_mem_attributeParts hc)).fits
  · intro c hc
    rw [hc, Part.ofOption, grownPart_one_iff] at hname
    rw [hget]
    exact hname.spans (by decide) (hn.child (Concrete.child?_eq_some hc).1).fits
  · intro hnone
    rw [hnone, Part.ofOption, grownPart_null_iff] at hname
    rw [hget, hname]

/-- One node: the tags below it come from the sources of its recipe, and it is a tag only in the
role of one. -/
theorem Grown.exists_tagsFrom {r : Recipe} {tags : List Concrete}
    (h : Grown (.ofString source) role n t) (hr : recipe (.ofString source) role n = some r)
    (hn : n.Orderly source) (htag : ∀ selfClosing, role = .openingTag selfClosing → n.isTag = true)
    (hfrom : TagsFrom source (r.fields.flatMap fun f => bearers f.2.sources) t.nodesBelow tags) :
    ∃ tags', TagsFrom source (bearers [(role, n)]) t.nodes tags' := by
  rw [Tree.nodes_of_isNode h.isNode]
  by_cases hrole : ∃ selfClosing, role = .openingTag selfClosing
  · obtain ⟨selfClosing, rfl⟩ := hrole
    obtain rfl := Option.some.inj hr
    rw [Recipe.flatMap_bearers_openingTag] at hfrom
    exact ⟨_, hfrom.cons_tag hn (htag _ rfl) (h.depicts hn) h.isOpeningTag⟩
  · have hother : t.isOpeningTag = false :=
      Bool.eq_false_iff.mpr fun ht => hrole (h.role_of_isOpeningTag ht)
    have hnameless : t.isA "JSXOpeningElement" = true → t.get "name" = .null := by
      intro hkind
      rcases h.tag_cases hkind with htag | ⟨-, hnone⟩
      · exact absurd htag hrole
      · rw [Tree.get, hnone, Option.getD_none]
    refine ⟨tags, (hfrom.cons_other hother hnameless).widen fun c hc => ?_⟩
    obtain ⟨f, hf, hc⟩ := List.mem_flatMap.mp hc
    cases hbears : role.bears with
    | true =>
      obtain ⟨p, hp, rfl⟩ := exists_of_mem_bearers hc
      rw [bearers_of_bears hbears]
      exact ⟨n, List.mem_singleton_self n, (Recipe.liesIn hr hn.nested f hf p hp).2⟩
    | false =>
      rw [Recipe.bearers_eq_nil hr hbears f hf] at hc
      cases hc

/-- The nodes are orderly, and those that are taken for opening tags are tags. -/
def AllOrderly (source : String) (nodes : List (Role × Concrete)) : Prop :=
  ∀ p ∈ nodes, p.2.Orderly source ∧ ∀ selfClosing, p.1 = .openingTag selfClosing → p.2.isTag = true

mutual

/-- The opening tags of a grown tree come from its concrete node, if that may have some. -/
theorem Grown.tagsFrom {role : Role} {n : Concrete} {t : Tree} :
    Grown (.ofString source) role n t → AllOrderly source [(role, n)] →
      ∃ tags, TagsFrom source (bearers [(role, n)]) t.nodes tags
  | .node hrecipe hextends hfields, h => by
    obtain ⟨hn, htag⟩ := List.forall_mem_singleton.mp h
    have hlies := Recipe.liesIn hrecipe hn.nested
    obtain ⟨htidy, hapart⟩ := Recipe.tidy hrecipe hn
    obtain ⟨tags, hfrom⟩ := hfields.tagsFrom hapart fun f hf =>
      ⟨(htidy f hf).apart, fun p hp => ⟨hn.of_subset (hlies f hf p hp).2.nodes,
        (htidy f hf).tags p hp⟩⟩
    exact (Grown.node hrecipe hextends hfields).exists_tagsFrom hrecipe hn htag hfrom

theorem GrownFields.tagsFrom {parts : List (String × Part)} {fields : List (String × Tree)} :
    GrownFields (.ofString source) parts fields → parts.Pairwise Recipe.ApartFields →
      (∀ f ∈ parts, (bearers f.2.sources).Pairwise Concrete.Apart ∧
        AllOrderly source f.2.sources) →
      ∃ tags, TagsFrom source (parts.flatMap fun f => bearers f.2.sources)
        (Tree.nodesOfFields fields) tags
  | .nil, _, _ => ⟨[], .nil⟩
  | .cons hvalue hfields, hapart, h => by
    obtain ⟨hfirst, hapart⟩ := List.pairwise_cons.mp hapart
    obtain ⟨hpart, h⟩ := List.forall_mem_cons.mp h
    obtain ⟨tags, hfrom⟩ := hvalue.tagsFrom hpart.1 hpart.2
    obtain ⟨tags', hfrom'⟩ := hfields.tagsFrom hapart h
    have happend : ∀ c ∈ bearers _, ∀ d ∈ _, c.Apart d := fun c hc d hd => by
      obtain ⟨g, hg, hd⟩ := List.mem_flatMap.mp hd
      exact hfirst g hg c hc d hd
    rw [List.flatMap_cons, Tree.nodesOfFields]
    split
    · exact ⟨_, TagsFrom.nil.append hfrom' happend⟩
    · exact ⟨_, hfrom.append hfrom' happend⟩

theorem GrownPart.tagsFrom {part : Part} {v : Tree} :
    GrownPart (.ofString source) part v → (bearers part.sources).Pairwise Concrete.Apart →
      AllOrderly source part.sources →
      ∃ tags, TagsFrom source (bearers part.sources) v.nodesOfValue tags
  | .null, _, _ => ⟨[], .nil⟩
  | .text _, _, _ => ⟨[], .nil⟩
  | .bool _, _, _ => ⟨[], .nil⟩
  | .one ht, _, h => by
    rw [Tree.nodesOfValue_of_isNode ht.isNode]
    exact ht.tagsFrom h
  | .many hitems, hapart, h => hitems.tagsFrom hapart h

theorem GrownItems.tagsFrom {nodes : List (Role × Concrete)} {items : List Tree} :
    GrownItems (.ofString source) nodes items → (bearers nodes).Pairwise Concrete.Apart →
      AllOrderly source nodes →
      ∃ tags, TagsFrom source (bearers nodes) (Tree.nodesOfItems items) tags
  | .nil, _, _ => ⟨[], .nil⟩
  | .cons ht hitems, hapart, h => by
    obtain ⟨hfirst, h⟩ := List.forall_mem_cons.mp h
    rw [bearers_cons] at hapart ⊢
    obtain ⟨-, hrest, hbetween⟩ := List.pairwise_append.mp hapart
    obtain ⟨tags, hfrom⟩ := ht.tagsFrom (List.forall_mem_singleton.mpr hfirst)
    obtain ⟨tags', hfrom'⟩ := hitems.tagsFrom hrest h
    exact ⟨_, hfrom.append hfrom' hbetween⟩

end

/-- The opening tags of a file were made from tags of the concrete tree, which end their last parts
at different bytes. -/
theorem file_tagsFrom {source : String} {root : Concrete} (hroot : root.Orderly source) {t : Tree}
    (h : fileOfConcrete source root = .ok t) : ∃ tags, TagsFrom source [root] t.nodes tags :=
  (fileOfConcrete_eq_ok_iff.mp h).2.tagsFrom (List.forall_mem_singleton.mpr ⟨hroot, by simp⟩)

end TopTag
