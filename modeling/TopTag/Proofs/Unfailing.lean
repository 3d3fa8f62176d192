import TopTag.Proofs.Anchors
import TopTag.Proofs.TaggedSource

/-!
# Nothing fails after conversion

A tree that conversion has made is of a shape that no later step stumbles over: the search for
topmost elements goes through, every tag it marks can take an attribute, and the anchors of the
tagged tags end at whole numbers. So tagging and writing have a result for every path and all
settings (`exists_render_tagTree`).
-/

namespace TopTag

open Spot Relation

/-! ## The search goes through -/

section

variable {s : SourceText} {root : Concrete} {t : Tree} {x e : Spot}

/-- The kind of a grown node is a text, so it can be looked up among the kinds of functions. -/
theorem Grown.plainInit (h : Grown s .file root t) (hx : Within (.root t) x) :
    x.tree.PlainInit := by
  intro _ hinit
  obtain ⟨role, n, -, hgrown⟩ := h.within (hx.tail (child_get (by decide) hinit))
  obtain ⟨r, _, _, _, -, -, -, htree⟩ := hgrown.exists_recipe
  have htree : x.tree.get "init" = _ := htree
  rw [htree]
  exact ⟨_, rfl⟩

/-- Every fragment that a node returns can be gone through. -/
theorem Grown.open_of_returns (h : Grown s .file root t) (hx : Within (.root t) x)
    (he : Returns x e) : e.Open := by
  intro f hf hfragment
  obtain ⟨hnode, hpasses⟩ := leads_of_reveals hf (Tree.isNode_of_isA hfragment)
  have hchild : Child x e := by
    cases he with
    | statement => exact child_get (by decide) hnode
    | arrow => exact child_get (by decide) hnode
  have hwithin : Within e f := ReflTransGen.mono (fun _ _ hstep => hstep.2) _ _ hpasses
  obtain ⟨role, n, -, hgrown⟩ := h.within ((hx.tail hchild).trans hwithin)
  obtain ⟨items, hitems⟩ := hgrown.fragment hfragment
  exact ⟨items, by rw [Tree.get, hitems, Option.getD_some, Tree.entries_list]⟩

theorem Grown.scannable (h : Grown s .file root t) (hx : Within (.root t) x) : Scannable x := by
  refine ⟨⟨isNode_of_within h.isNode hx, h.plainInit hx⟩, ?_⟩
  rintro e ⟨-, site, hsite, hreturns⟩
  exact h.open_of_returns (hx.trans hsite.within) hreturns

/-- A topmost element has the opening tag of its concrete element, unless something else goes by
the kind of an element. -/
theorem Grown.hasTag (h : Grown s .file root t) (hkinds : ∀ n ∈ root.nodes, n.kind ≠ "JSXElement")
    (hx : Topmost (.root t) x) : x.HasTag := by
  obtain ⟨role, n, hn, hgrown⟩ := h.within hx.within
  rcases hgrown.element hx.isElement with ⟨_, _, u, -, hu, -⟩ | ⟨hkind, -⟩
  · rw [HasTag, hu]
    rfl
  · exact absurd hkind (hkinds n hn)

/-! ## The marked tags -/

theorem at_get (hx : At t x) {key : String} (hkey : (x.tree.field? key).isSome = true) :
    At t (x.get key) := by
  have hx : t.at? x.place = some x.tree := hx
  obtain ⟨u, hu⟩ := Option.isSome_iff_exists.mp hkey
  rw [At, Spot.get, Tree.at?_append, hx, Option.bind_some, Tree.at?_field, Tree.get, hu,
    Option.bind_some, Tree.at?_nil, Option.getD_some]

/-- The marked opening tags are the opening tags of the topmost elements. -/
theorem isMarkedTag_ofLog_iff (hkeys : t.hasDistinctKeys = true) {k : Nat} {log : List Identity}
    (hloc : (locate (.root t)).Leaves (.ok k) log) (display : String)
    (hx : Within (.root t) x) :
    x.isMarkedTag (.ofLog display log) = true ↔ x.tree.isA "JSXOpeningElement" = true ∧
      ∃ y, Topmost (.root t) y ∧ y.HasTag ∧ x = y.get "openingElement" := by
  obtain ⟨htags, hmarks⟩ := locate_exec (hloc ⟨"", []⟩)
  have hlog : ∀ i, i ∈ log ↔ ∃ y, Topmost (.root t) y ∧ y.tagIdentity = i := by
    intro i
    have hi := hmarks i
    rw [FileContext.mem_marked_markAll] at hi
    simpa using hi
  rw [isMarkedTag, Bool.and_eq_true, FileContext.isMarked_ofLog, hlog]
  refine and_congr_right fun hkind => ?_
  obtain ⟨fields, hobject⟩ := Tree.isObject_of_isA hkind
  rw [identity_of_isObject (by rw [hobject]; rfl)]
  constructor
  · rintro ⟨y, hy, hid⟩
    have htag := at_get ((at_root t).within hkeys hy.within) (htags y hy)
    exact ⟨y, hy, htags y hy,
      ((at_root t).within hkeys hx).unique htag (place_of_identity hid).symm⟩
  · rintro ⟨y, hy, -, rfl⟩
    exact ⟨y, hy, identity_of_isObject (by rw [hobject]; rfl)⟩

/-- A marked tag is grown from the tag of a concrete element. -/
theorem Grown.exists_tag (h : Grown s .file root t) {k : Nat} {log : List Identity}
    (hloc : (locate (.root t)).Leaves (.ok k) log) {display : String} (hx : Within (.root t) x)
    (hmark : x.isMarkedTag (.ofLog display log) = true) :
    ∃ n ∈ root.nodes, ∃ tag selfClosing, n.OpenedBy tag selfClosing ∧
      Grown s (.openingTag selfClosing) tag x.tree := by
  obtain ⟨-, y, hy, htag, rfl⟩ := (isMarkedTag_ofLog_iff h.hasDistinctKeys hloc display hx).mp hmark
  obtain ⟨role, n, hn, hgrown⟩ := h.within hy.within
  rcases hgrown.element hy.isElement with ⟨tag, selfClosing, u, hopened, hu, htree⟩ | ⟨-, hnone⟩
  · refine ⟨n, hn, tag, selfClosing, hopened, ?_⟩
    rwa [Spot.get, Tree.get, hu, Option.getD_some]
  · rw [HasTag, hnone] at htag
    cases htag

theorem Grown.isRead_of_within (h : Grown s .file root t) (hx : Within (.root t) x)
    (hkind : x.tree.isA "JSXOpeningElement" = true) : x.tree.IsRead := by
  obtain ⟨role, n, -, hgrown⟩ := h.within hx
  exact hgrown.isRead hkind

/-- Tagging a grown tree meets no fault where its search goes through. -/
theorem Grown.taggable (h : Grown s .file root t) {k : Nat} {log : List Identity}
    (hloc : (locate (.root t)).Leaves (.ok k) log) : Taggable t k log := by
  refine ⟨h.hasDistinctKeys, h.isNode, hloc, fun p hp tag hat => ?_⟩
  obtain ⟨hmark, _, hat', hkind⟩ := (mem_topmostTags hloc).mp hp
  cases hat.symm.trans hat'
  obtain ⟨y, u, hy, -, rfl, hu, hatu⟩ := exists_element_of_mem_log h.hasDistinctKeys hloc hmark
  cases hat.symm.trans hatu
  have htag : (y.get "openingElement").tree = tag := by rw [Spot.get, Tree.get, hu]; rfl
  have hchild : Child y (y.get "openingElement") := by
    refine child_get (by decide) ?_
    rw [htag]
    exact Tree.isNode_of_isA hkind
  have hread := h.isRead_of_within (hy.tail hchild)
  rw [htag] at hread
  exact (hread hkind).1

theorem Grown.exists_taggable (h : Grown s .file root t)
    (hkinds : ∀ n ∈ root.nodes, n.kind ≠ "JSXElement") : ∃ k log, Taggable t k log := by
  obtain ⟨r, log, hleaves, hok, -⟩ := locate_marks (.root t)
  obtain ⟨k, rfl⟩ := hok.mpr ⟨fun _ => h.scannable, fun _ => h.hasTag hkinds⟩
  exact ⟨k, log, h.taggable hleaves⟩

end

/-! ## The text is written -/

theorem Splice.exists_positioned {is : List Insertion} (h : ∀ i ∈ is, ∃ n, i.offset = .int n) :
    ∃ placed, positioned is = .ok placed := by
  induction is with
  | nil => exact ⟨[], rfl⟩
  | cons i rest ih =>
    obtain ⟨⟨n, hn⟩, hrest⟩ := List.forall_mem_cons.mp h
    obtain ⟨placed, hplaced⟩ := ih hrest
    rw [positioned, hn, hplaced]
    exact ⟨_, rfl⟩

/-- Insertions at whole numbers can be carried out. -/
theorem Splice.exists_apply (source : String) {is : List Insertion}
    (h : ∀ i ∈ is, ∃ n, i.offset = .int n) : ∃ text, apply source is = .ok text := by
  obtain ⟨placed, hplaced⟩ := exists_positioned h
  unfold apply
  split
  · exact ⟨_, rfl⟩
  · rw [hplaced]
    exact ⟨_, rfl⟩

/-- A tag that opens an element has something to put new attributes behind. -/
theorem Concrete.OpenedBy.exists_lastPart {n tag : Concrete} {selfClosing : Bool}
    (h : n.OpenedBy tag selfClosing) (hself : n.kind = "jsx_self_closing_element" →
      (n.child? "name").isSome = true ∨ n.attributeParts ≠ []) :
    ∃ last, tag.lastPart? = some last := by
  have hparts : (tag.child? "name").isSome = true ∨ tag.attributeParts ≠ [] := by
    rcases h with ⟨-, -, hname, -⟩ | ⟨hkind, rfl, -⟩
    · exact .inl hname
    · exact hself hkind
  rw [lastPart?]
  rcases hparts with hname | hattr
  · obtain ⟨c, hc⟩ := Option.isSome_iff_exists.mp hname
    cases tag.attributeParts.getLast? with
    | none => exact ⟨c, by simpa using hc⟩
    | some a => exact ⟨a, rfl⟩
  · rw [List.getLast?_eq_some_getLast hattr]
    exact ⟨_, rfl⟩

/-- A tree without new attributes is written as its source. -/
theorem render_of_isRead {t : Tree} (hkeys : t.hasDistinctKeys = true) (hnode : t.isNode = true)
    (hread : ∀ x, Within (.root t) x → x.tree.isA "JSXOpeningElement" = true → x.tree.IsRead)
    (source : String) : render source t = .ok source := by
  have hnone : targets ⟨"", []⟩ "" t = [] := by
    refine List.filter_eq_nil_iff.mpr fun x _ htarget => ?_
    have hmark := (Bool.and_eq_true_iff.mp (Bool.and_eq_true_iff.mp htarget).1).2
    simp [FileContext.isMarked] at hmark
  have hsame : t.withAttributes (.across (targetPlaces ⟨"", []⟩ "" t) ("", "")) [] = t := by
    rw [← map_place_targets, hnone]
    exact Tree.withAttributes_of_nil fun _ _ => rfl
  have hinsertions : Splice.insertions (t.withAttributes
      (.across (targetPlaces ⟨"", []⟩ "" t) ("", "")) []) = _ :=
    insertions_withAttributes hkeys hnode hread (by simp [hnone]) ("", "")
  rw [hsame, hnone, List.filterMap_nil] at hinsertions
  rw [render, hinsertions]
  change Splice.apply source [] = .ok source
  simp [Splice.apply, Splice.positioned, Splice.rearFirst, Splice.applyAll]

/-- Where the anchors end at whole numbers the tree with the new attributes can be written. -/
theorem exists_render_withAttributes {t : Tree} (hkeys : t.hasDistinctKeys = true)
    (hnode : t.isNode = true)
    (hread : ∀ x, Within (.root t) x → x.tree.isA "JSXOpeningElement" = true → x.tree.IsRead)
    {c : FileContext} {name : String}
    (hstop : ∀ x ∈ targets c name t, (x.tree.anchor.stop?).isSome = true) (a : String × String)
    (source : String) :
    ∃ text, render source (t.withAttributes (.across (targetPlaces c name t) a) []) = .ok text := by
  rw [render, insertions_withAttributes hkeys hnode hread hstop a]
  refine Splice.exists_apply source fun i hi => ?_
  obtain ⟨x, -, hx⟩ := List.mem_filterMap.mp hi
  obtain ⟨n, -, rfl⟩ := Option.map_eq_some_iff.mp hx
  exact ⟨n, rfl⟩

/-- Once a text was read nothing later fails. Provided that no concrete node goes by the kind of an
element, and that an element in one tag has a name or an attribute, tagging the tree meets no fault
and the tagged tree can be written, whatever is given for the path and in the settings. -/
theorem exists_render_tagTree (source : String) (root : Concrete) (t : Tree)
    (h : fileOfConcrete source root = .ok t)
    (hkinds : ∀ n ∈ root.nodes, n.kind ≠ "JSXElement")
    (hparts : ∀ n ∈ root.nodes, n.kind = "jsx_self_closing_element" →
      (n.child? "name").isSome = true ∨ n.attributeParts ≠ [])
    (path : PathInput) (settings : Settings) :
    (tagTree t path settings).fault = none ∧
      ∃ text, render source (tagTree t path settings).tree = .ok text := by
  obtain ⟨-, hgrown⟩ := fileOfConcrete_eq_ok_iff.mp h
  obtain ⟨k, log, htaggable⟩ := hgrown.exists_taggable hkinds
  have hkeys := hgrown.hasDistinctKeys
  have hread := fun x => hgrown.isRead_of_within (x := x)
  obtain ⟨call, hcall⟩ : ∃ call : TagCall, call = ⟨path, settings⟩ := ⟨_, rfl⟩
  have hrun : tagTree t path settings = call.run t := by rw [hcall]; rfl
  have hfault : (call.run t).fault = none := by
    have hstep := htaggable.run_step call []
    rw [Tree.withAttributes_lackingAt_nil] at hstep
    exact hstep.2
  rw [hrun]
  refine ⟨hfault, ?_⟩
  cases henabled : call.enabled with
  | false =>
    rw [(run_of_disabled henabled t).1]
    exact ⟨source, render_of_isRead hkeys hgrown.isNode hread source⟩
  | true =>
    rw [(of_run_ok henabled hkeys hfault).2, locateTopmost_eq htaggable.located]
    refine exists_render_withAttributes hkeys hgrown.isNode hread (fun x hx => ?_) _ source
    -- a target is grown from the tag of an element, and such a tag has a last part
    obtain ⟨hwithin, htarget⟩ := mem_targets.mp hx
    obtain ⟨n, hn, tag, selfClosing, hopened, htag⟩ :=
      hgrown.exists_tag htaggable.located hwithin (Bool.and_eq_true_iff.mp htarget).1
    obtain ⟨last, hlast⟩ := hopened.exists_lastPart (hparts n hn)
    obtain ⟨stop, -, hstop⟩ := htag.stop?_anchor hlast
    rw [hstop]
    rfl

/-- A list is given where a path belongs. -/
theorem exists_render_choiceProgram :
    (∀ n ∈ choiceProgram.nodes, n.kind ≠ "JSXElement") ∧
      (∀ n ∈ choiceProgram.nodes, n.kind = "jsx_self_closing_element" →
        (n.child? "name").isSome = true ∨ n.attributeParts ≠ []) ∧
      ∃ t, fileOfConcrete choiceSource choiceProgram = .ok t ∧
        (tagTree t (.other (.list [.null])) choiceCall.settings).fault = none ∧
        ∃ text, render choiceSource (tagTree t (.other (.list [.null])) choiceCall.settings).tree =
          .ok text := by
  have hkinds : ∀ n ∈ choiceProgram.nodes, n.kind ≠ "JSXElement" := by decide +kernel
  have hparts : ∀ n ∈ choiceProgram.nodes, n.kind = "jsx_self_closing_element" →
      (n.child? "name").isSome = true ∨ n.attributeParts ≠ [] := by decide +kernel
  have hok : (fileOfConcrete choiceSource choiceProgram).isOk = true := by decide +kernel
  cases hfile : fileOfConcrete choiceSource choiceProgram with
  | error e =>
    rw [hfile] at hok
    cases hok
  | ok t =>
    exact ⟨hkinds, hparts, t, rfl,
      exists_render_tagTree choiceSource choiceProgram t hfile hkinds hparts _ _⟩

end TopTag
