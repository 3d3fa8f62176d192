import TopTag.Proofs.Converted
import TopTag.TaggedText

/-!
# The text after tagging

From a text and an orderly concrete tree to the text with the attributes written in. The output is
the source with one and the same text woven in, once for each tag that took an attribute, behind the
last part of that tag.
-/

namespace TopTag

/-- The site belongs to a tag of the concrete tree. Its offset is where the last attribute of the
tag ends, or its name when it has none; it lies in the range of the tag, before the end, and no
attribute of the tag reaches beyond it. -/
structure Site.Sits (source : String) (root : Concrete) (t : Tree) (site : Site) : Prop where
  mem : site.tag ∈ root.nodes
  isTag : site.tag.isTag = true
  depicts : ∃ tag, t.at? site.place = some tag ∧ Depicts source tag site.tag
  last : ∃ last, site.tag.lastPart? = some last ∧
    (SourceText.ofString source).charOffset last.head.stop = .ok site.offset
  inside : ∃ start stop, (SourceText.ofString source).charOffset site.tag.head.start = .ok start ∧
    (SourceText.ofString source).charOffset site.tag.head.stop = .ok stop ∧
    start ≤ site.offset ∧ site.offset < stop
  clear : ∀ a ∈ site.tag.attributeParts, ∃ stop,
    (SourceText.ofString source).charOffset a.head.stop = .ok stop ∧ stop ≤ site.offset

section

variable {source : String} {n : Concrete} {offset : Nat}

theorem Concrete.Fits.charOffset_start (h : n.Fits source) :
    ∃ k, k ≤ source.toList.length ∧ SourceText.byteAt source.toList k = n.head.start ∧
      (SourceText.ofString source).charOffset n.head.start = .ok k := by
  obtain ⟨k, hk, hbyte⟩ := SourceText.mem_boundaries.mp h.start_boundary
  exact ⟨k, hk, hbyte, hbyte ▸ SourceText.charOffset_byteAt source hk⟩

theorem Concrete.Fits.charOffset_stop (h : n.Fits source) :
    ∃ k, k ≤ source.toList.length ∧ SourceText.byteAt source.toList k = n.head.stop ∧
      (SourceText.ofString source).charOffset n.head.stop = .ok k := by
  obtain ⟨k, hk, hbyte⟩ := SourceText.mem_boundaries.mp h.stop_boundary
  exact ⟨k, hk, hbyte, hbyte ▸ SourceText.charOffset_byteAt source hk⟩

theorem Behind.inside (h : Behind source n offset) (hn : n.Orderly source)
    (htag : n.isTag = true) : ∃ start stop,
      (SourceText.ofString source).charOffset n.head.start = .ok start ∧
      (SourceText.ofString source).charOffset n.head.stop = .ok stop ∧
      start ≤ offset ∧ offset < stop := by
  obtain ⟨last, hlast, hoffset, hbyte⟩ := h
  obtain ⟨start, hstart, hbyteStart, hcharStart⟩ := hn.fits.charOffset_start
  obtain ⟨stop, hstop, hbyteStop, hcharStop⟩ := hn.fits.charOffset_stop
  obtain ⟨hbefore, hafter⟩ := hn.lastPart htag hlast
  refine ⟨start, stop, hcharStart, hcharStop, ?_, ?_⟩
  · rw [← SourceText.byteAt_le_iff hstart hoffset, hbyte, hbyteStart]
    exact hbefore
  · refine Nat.lt_of_not_le fun hle => ?_
    rw [← SourceText.byteAt_le_iff hstop hoffset, hbyte, hbyteStop] at hle
    omega

theorem Behind.clear (h : Behind source n offset) (hn : n.Orderly source) :
    ∀ a ∈ n.attributeParts, ∃ stop,
      (SourceText.ofString source).charOffset a.head.stop = .ok stop ∧ stop ≤ offset := by
  intro a ha
  obtain ⟨last, hlast, hoffset, hbyte⟩ := h
  have ha' := hn.child (Concrete.mem_of_mem_attributeParts ha)
  obtain ⟨stop, hstop, hbyteStop, hcharStop⟩ := ha'.fits.charOffset_stop
  refine ⟨stop, hcharStop, ?_⟩
  rw [← SourceText.byteAt_le_iff hstop hoffset, hbyte, hbyteStop]
  exact hn.stop_le_lastPart ha hlast

end

/-! ## The sites of a tree -/

section

variable {source : String} {root : Concrete} {t : Tree} {tags : List Concrete}
  {sites : List Site} {spots : List Spot}

theorem Site.place_eq_of_fills (h : List.Forall₂ (Site.Fills source) sites spots) :
    sites.map Site.place = spots.map Spot.place := by
  induction h with
  | nil => rfl
  | cons hfill _ ih => rw [List.map_cons, List.map_cons, ih, hfill.1]

theorem Site.exists_of_fills (h : List.Forall₂ (Site.Fills source) sites spots) :
    ∀ site ∈ sites, ∃ s ∈ spots, site.Fills source s := by
  induction h with
  | nil => simp
  | cons hfill _ ih =>
    intro site hsite
    rcases List.mem_cons.mp hsite with rfl | hsite
    · exact ⟨_, List.mem_cons_self, hfill⟩
    · obtain ⟨s, hs, hfill⟩ := ih site hsite
      exact ⟨s, List.mem_cons_of_mem _ hs, hfill⟩

theorem Site.sits_of_fills (hroot : root.Orderly source)
    (hfrom : TagsFrom source [root] t.nodes tags) {site : Site} {s : Spot}
    (hfill : site.Fills source s) (htag : site.tag ∈ tags) (hs : Spot.At t s) :
    site.Sits source root t := by
  obtain ⟨hplace, hdepicts, hbehind⟩ := hfill
  obtain ⟨r, hr, hmem, hisTag, -⟩ := hfrom.inside _ htag
  obtain rfl := List.mem_singleton.mp hr
  have hsub : site.tag.Orderly source := hroot.of_subset (Concrete.nodes_subset_of_mem_nodes _ hmem)
  refine ⟨hmem, hisTag, ⟨s.tree, hplace ▸ hs, hdepicts⟩, ?_, hbehind.inside hsub hisTag,
    hbehind.clear hsub⟩
  obtain ⟨last, hlast, hoffset, hbyte⟩ := hbehind
  exact ⟨last, hlast, hbyte ▸ SourceText.charOffset_byteAt source hoffset⟩

/-- Different tags end their last parts at different offsets. -/
theorem Site.nodup_offsets (hfrom : TagsFrom source [root] t.nodes tags)
    (hsub : (sites.map Site.tag).Sublist tags)
    (hbehind : ∀ site ∈ sites, Behind source site.tag site.offset) :
    (sites.map Site.offset).Nodup := by
  have hapart := List.pairwise_map.mp (hfrom.apart.sublist hsub)
  refine List.pairwise_map.mpr (hapart.imp_of_mem fun {a b} ha hb hne heq => ?_)
  obtain ⟨last, hlast, -, hbyte⟩ := hbehind a ha
  obtain ⟨last', hlast', -, hbyte'⟩ := hbehind b hb
  exact hne last last' hlast hlast' (by rw [← hbyte, ← hbyte', heq])

end

/-- A text came out: the tree was read, the enabled call met no fault, and the new attributes were
spliced in. -/
theorem of_tagConcrete_ok {source : String} {root : Concrete} {call : TagCall} {output : String}
    (h : (tagConcrete source root call.path call.settings).result = .ok output) :
    ∃ t, fileOfConcrete source root = .ok t ∧ (call.run t).fault = none ∧
      render source (call.run t).tree = .ok output := by
  rw [tagConcrete] at h
  split at h
  · cases h
  · rename_i t ht
    rw [tagParsed] at h
    refine ⟨t, ht, ?_⟩
    rw [TagCall.run]
    split at h
    · cases h
    · rename_i heq
      rw [heq]
      refine ⟨rfl, ?_⟩
      cases hrender : render source _ with
      | error fault =>
        rw [hrender] at h
        cases h
      | ok text =>
        rw [hrender] at h
        cases h
        rfl

/-- An enabled call that met no fault has injected its attribute at the targets, and no fault came
up there either. -/
theorem of_run_ok {call : TagCall} (henabled : call.enabled = true) {t : Tree}
    (ht : t.hasDistinctKeys = true) (h : (call.run t).fault = none) :
    inject (locateTopmost (.root t) ⟨call.display, []⟩).2 call.name t [] =
      (⟨(call.run t).tree,
        (targetPlaces (locateTopmost (.root t) ⟨call.display, []⟩).2 call.name t).length⟩, none) ∧
      (call.run t).tree = t.withAttributes
        (.across (targetPlaces (locateTopmost (.root t) ⟨call.display, []⟩).2 call.name t)
          (call.name, call.display)) [] := by
  obtain ⟨n, log, htaggable⟩ := taggable_of_run ht henabled h
  obtain ⟨htree, hfault⟩ := run_of_enabled henabled htaggable.located
  have hinject := inject_eq_of_success ht (hfault.symm.trans h)
  rw [FileContext.filePath_ofLog] at hinject
  rw [locateTopmost_eq htaggable.located, htree, hinject]
  exact ⟨rfl, rfl⟩

/-- The text of a file after an enabled call. Wherever the concrete tree is orderly and a text comes
out, it is the source with the one text of the new attribute woven in at different offsets: one for
each tag that took an attribute, behind the tag's last attribute or its name, inside the tag and
inside none of its attributes. -/
theorem tagConcrete_eq_weave (source : String) (root : Concrete) (hroot : root.Orderly source)
    (call : TagCall) (henabled : call.enabled = true) (output : String)
    (h : (tagConcrete source root call.path call.settings).result = .ok output) :
    ∃ (t : Tree) (sites : List Site), fileOfConcrete source root = .ok t ∧
      inject (locateTopmost (.root t) ⟨call.display, []⟩).2 call.name t [] =
        (⟨t.withAttributes (.across (sites.map Site.place) (call.name, call.display)) [],
          sites.length⟩, none) ∧
      (sites.map Site.place).Nodup ∧ (sites.map Site.offset).Nodup ∧
      (∀ site ∈ sites, site.Sits source root t) ∧
      output = String.ofList (Splice.weave (fun i => if i ∈ sites.map Site.offset
        then (writtenAttribute (call.name, call.display)).toList else []) 0 source.toList) := by
  obtain ⟨t, hfile, hfault, hrender⟩ := of_tagConcrete_ok h
  have hgrown := (fileOfConcrete_eq_ok_iff.mp hfile).2
  have hnode := hgrown.isNode
  have hkeys := hgrown.hasDistinctKeys
  obtain ⟨tags, hfrom⟩ := file_tagsFrom hroot hfile
  obtain ⟨hinject, htree⟩ := of_run_ok henabled hkeys hfault
  rw [htree] at hrender hinject
  obtain ⟨is, his, happly⟩ := exists_of_bind_ok hrender
  obtain ⟨sites, hfills, rfl, hsub⟩ := of_insertions_ok hnode hkeys hfrom _ his
  have hplaces : sites.map Site.place = targetPlaces _ call.name t := Site.place_eq_of_fills hfills
  have hexists := Site.exists_of_fills hfills
  have hbehind : ∀ site ∈ sites, Behind source site.tag site.offset := fun site hsite =>
    (hexists site hsite).elim fun _ hs => hs.2.2.2
  have hoffsets := Site.nodup_offsets hfrom hsub hbehind
  refine ⟨t, sites, hfile, ?_, ?_, hoffsets, fun site hsite => ?_, ?_⟩
  · rw [hinject, ← hplaces, List.length_map]
  · rw [hplaces]
    exact nodup_targetPlaces hkeys
  · obtain ⟨s, hs, hfill⟩ := hexists site hsite
    have hwithin := exists_mem_walk.mp (List.mem_map.mp (List.mem_filter.mp hs).1)
    exact Site.sits_of_fills hroot hfrom hfill (hsub.subset (List.mem_map.mpr ⟨site, hsite, rfl⟩))
      ((Spot.at_root t).within hkeys hwithin)
  · have hrange : ∀ n ∈ sites.map Site.offset, n ≤ source.toList.length := by
      intro n hn
      obtain ⟨site, hsite, rfl⟩ := List.mem_map.mp hn
      obtain ⟨last, -, hle, -⟩ := hbehind site hsite
      exact hle
    have hspliced :=
      Splice.apply_of_nodup hoffsets hrange (writtenAttribute (call.name, call.display))
    rw [List.map_map] at hspliced
    exact Except.ok.inj (happly.symm.trans hspliced)

/-- A component that returns one of two elements, the first with another in its attribute. The
source is not ASCII, so its bytes and characters differ. -/
def choiceSource : String := "const Ä = () => ok ? <A é={<i />} /> : <p>x</p>;"

/-- The tag inside the attribute of the first element. -/
def choiceInnerTag : Concrete :=
  .node ⟨"jsx_self_closing_element", 29, 34, true, none, false, false⟩
    [.node ⟨"identifier", 30, 31, true, some "name", false, false⟩ []]

def choiceOuterTag : Concrete :=
  .node ⟨"jsx_self_closing_element", 22, 38, true, some "consequence", false, false⟩
    [.node ⟨"identifier", 23, 24, true, some "name", false, false⟩ [],
      .node ⟨"jsx_attribute", 25, 35, true, some "attribute", false, false⟩
        [.node ⟨"property_identifier", 25, 27, true, none, false, false⟩ [],
          .node ⟨"jsx_expression", 28, 35, true, none, false, false⟩ [choiceInnerTag]]]

def choiceElement : Concrete :=
  .node ⟨"jsx_element", 41, 49, true, some "alternative", false, false⟩
    [.node ⟨"jsx_opening_element", 41, 44, true, some "open_tag", false, false⟩
        [.node ⟨"identifier", 42, 43, true, some "name", false, false⟩ []],
      .node ⟨"jsx_text", 44, 45, true, none, false, false⟩ [],
      .node ⟨"jsx_closing_element", 45, 49, true, some "close_tag", false, false⟩
        [.node ⟨"identifier", 47, 48, true, some "name", false, false⟩ []]]

def choiceProgram : Concrete :=
  .node ⟨"program", 0, 50, true, none, false, false⟩
    [.node ⟨"lexical_declaration", 0, 50, true, none, false, false⟩
      [.node ⟨"const", 0, 5, false, some "kind", false, false⟩ [],
        .node ⟨"variable_declarator", 6, 49, true, none, false, false⟩
          [.node ⟨"identifier", 6, 8, true, some "name", false, false⟩ [],
            .node ⟨"arrow_function", 11, 49, true, some "value", false, false⟩
              [.node ⟨"formal_parameters", 11, 13, true, some "parameters", false, false⟩ [],
                .node ⟨"ternary_expression", 17, 49, true, some "body", false, false⟩
                  [.node ⟨"identifier", 17, 19, true, some "condition", false, false⟩ [],
                    choiceOuterTag, choiceElement]]]]]

def choiceCall : TagCall := ⟨.text "home/src/\"A\".tsx", ⟨"src/", "data-path", true⟩⟩

theorem tagConcrete_choiceProgram :
    choiceProgram.Orderly choiceSource ∧ ∃ (output : String) (t : Tree) (sites : List Site),
      (tagConcrete choiceSource choiceProgram choiceCall.path choiceCall.settings).result =
        .ok output ∧
      fileOfConcrete choiceSource choiceProgram = .ok t ∧ sites.length = 3 ∧
      (sites.map Site.offset).Nodup ∧
      (∀ site ∈ sites, site.Sits choiceSource choiceProgram t) ∧
      output = String.ofList (Splice.weave (fun i => if i ∈ sites.map Site.offset
        then " data-path=\"src/&quot;A&quot;.tsx\"".toList else []) 0 choiceSource.toList) := by
  have horderly : choiceProgram.Orderly choiceSource := by decide +kernel
  have hok : (tagConcrete choiceSource choiceProgram choiceCall.path
      choiceCall.settings).result.isOk = true := by decide +kernel
  have hadded : (fileOfConcrete choiceSource choiceProgram).toOption.map (fun t =>
      (inject (locateTopmost (.root t) ⟨choiceCall.display, []⟩).2 choiceCall.name t []).1.added) =
        some 3 := by decide +kernel
  have htext : writtenAttribute (choiceCall.name, choiceCall.display) =
      " data-path=\"src/&quot;A&quot;.tsx\"" := by decide +kernel
  cases hresult : (tagConcrete choiceSource choiceProgram choiceCall.path
      choiceCall.settings).result with
  | error e =>
    rw [hresult] at hok
    cases hok
  | ok output =>
    obtain ⟨t, sites, hfile, hinject, -, hnodup, hsits, hweave⟩ :=
      tagConcrete_eq_weave choiceSource choiceProgram horderly choiceCall rfl output hresult
    rw [hfile] at hadded
    have hlength : some sites.length = some 3 := by
      rw [← hadded]
      exact congrArg (fun r => some r.1.added) hinject.symm
    rw [htext] at hweave
    exact ⟨horderly, output, t, sites, rfl, hfile, Option.some.inj hlength, hnodup, hsits, hweave⟩

end TopTag
