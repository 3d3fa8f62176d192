import TopTag.Proofs.Unfailing

/-!
# Numbering concrete nodes

Which concrete node a place in a tree comes from. Number the nodes of the concrete tree and put the
numbers in the place of its offsets: conversion then gives a tree of the same shape, the *trace*,
whose offsets are the numbers. So the tags that take an attribute can be told by their numbers
(`takers`), and the text that comes out is the source with one text inserted for each of them
(`exists_stamps`).
-/

namespace TopTag

namespace Concrete

mutual

/-- The tree with its nodes numbered from `k` on, in the order of `nodes`. -/
def numbered (k : Nat) : Concrete → Concrete
  | .node h cs => .node { h with start := k, stop := k } (numberedAll (k + 1) cs)

def numberedAll (k : Nat) : List Concrete → List Concrete
  | [] => []
  | c :: rest => numbered k c :: numberedAll (k + c.nodes.length) rest

end

mutual

/-- The nodes in the order of `nodes`, each with its use. -/
def listing (u : Use) : Concrete → List (Use × Concrete)
  | .node h cs => (u, .node h cs) :: listingAll u (.node h cs) cs

def listingAll (u : Use) (n : Concrete) : List Concrete → List (Use × Concrete)
  | [] => []
  | c :: rest => listing (useOf u n c) c ++ listingAll u n rest

end

mutual

theorem map_snd_listing (u : Use) (n : Concrete) : (n.listing u).map Prod.snd = n.nodes := by
  cases n with
  | node h cs => rw [listing, nodes, List.map_cons, map_snd_listingAll]

theorem map_snd_listingAll (u : Use) (n : Concrete) (cs : List Concrete) :
    (listingAll u n cs).map Prod.snd = nodesAll cs := by
  cases cs with
  | nil => rfl
  | cons c rest =>
    rw [listingAll, nodesAll, List.map_append, map_snd_listing, map_snd_listingAll]

end

/-- The node stands in the tree under the number and is used so, with all that is below it. -/
def Numbers (root : Concrete) (k : Nat) (u : Use) (n : Concrete) : Prop :=
  n.listing u <+: (root.listing .plain).drop k

theorem numbers_root (root : Concrete) : root.Numbers 0 .plain root := List.prefix_refl _

theorem Numbers.listing_getElem? {root n : Concrete} {k : Nat} {u : Use} (h : root.Numbers k u n) :
    (root.listing .plain)[k]? = some (u, n) := by
  obtain ⟨rest, hrest⟩ := h
  have hhead : ((root.listing .plain).drop k).head? = some (u, n) := by
    cases n
    rw [← hrest, listing]
    rfl
  rwa [List.head?_drop] at hhead

theorem Numbers.getElem? {root n : Concrete} {k : Nat} {u : Use} (h : root.Numbers k u n) :
    root.nodes[k]? = some n := by
  rw [← root.map_snd_listing .plain, List.getElem?_map, h.listing_getElem?]
  rfl

/-- Under one number stands one node, and it has one use. -/
theorem Numbers.unique {root n m : Concrete} {k : Nat} {u v : Use} (h : root.Numbers k u n)
    (h' : root.Numbers k v m) : u = v ∧ n = m := by
  have hsame := h.listing_getElem?.symm.trans h'.listing_getElem?
  simpa using hsame

/-- The listings of children follow one another. -/
theorem listingAll_cons {l : List (Use × Concrete)} {u : Use} {n c : Concrete}
    {rest : List Concrete} {k : Nat} (h : listingAll u n (c :: rest) <+: l.drop k) :
    c.listing (useOf u n c) <+: l.drop k ∧
      listingAll u n rest <+: l.drop (k + c.nodes.length) := by
  rw [listingAll] at h
  refine ⟨(List.prefix_append _ _).trans h, ?_⟩
  obtain ⟨more, hmore⟩ := h
  refine ⟨more, ?_⟩
  rw [← List.drop_drop, ← hmore, ← c.map_snd_listing (useOf u n c), List.length_map,
    List.append_assoc, List.drop_left]

theorem Numbers.listingAll {root : Concrete} {k : Nat} {u : Use} {head : Head}
    {cs : List Concrete} (h : root.Numbers k u (.node head cs)) :
    Concrete.listingAll u (.node head cs) cs <+: (root.listing .plain).drop (k + 1) := by
  obtain ⟨more, hmore⟩ := h
  rw [listing, List.cons_append] at hmore
  exact ⟨more, by rw [← List.drop_drop, ← hmore]; rfl⟩

/-- The children of a node in the numbered tree are its children with their numbers. -/
theorem forall₂_numberedAll {l : List (Use × Concrete)} {u : Use} {n : Concrete}
    {cs : List Concrete} {k : Nat} (h : listingAll u n cs <+: l.drop k) :
    List.Forall₂ (fun c m => ∃ i, c.listing (useOf u n c) <+: l.drop i ∧ m = c.numbered i) cs
      (numberedAll k cs) := by
  induction cs generalizing k with
  | nil => exact .nil
  | cons c rest ih =>
    obtain ⟨hc, hrest⟩ := listingAll_cons h
    exact .cons ⟨k, hc, rfl⟩ (ih hrest)

theorem Numbers.children {root n : Concrete} {k : Nat} {u : Use} (h : root.Numbers k u n) :
    List.Forall₂ (fun c m => ∃ i, root.Numbers i (useOf u n c) c ∧ m = c.numbered i) n.children
      (n.numbered k).children := by
  cases n
  exact forall₂_numberedAll h.listingAll

@[simp] theorem kind_numbered (k : Nat) (n : Concrete) : (n.numbered k).kind = n.kind := by
  cases n
  rfl

@[simp] theorem named_numbered (k : Nat) (n : Concrete) :
    (n.numbered k).head.named = n.head.named := by
  cases n
  rfl

@[simp] theorem field_numbered (k : Nat) (n : Concrete) :
    (n.numbered k).head.field = n.head.field := by
  cases n
  rfl

@[simp] theorem hasError_numbered (k : Nat) (n : Concrete) :
    (n.numbered k).head.hasError = n.head.hasError := by
  cases n
  rfl

@[simp] theorem start_numbered (k : Nat) (n : Concrete) : (n.numbered k).head.start = k := by
  cases n
  rfl

theorem useOf_numbered (u : Use) (n c : Concrete) (k i : Nat) :
    useOf u (n.numbered k) (c.numbered i) = useOf u n c := by
  rw [useOf, useOf, kind_numbered, field_numbered]

end Concrete

/-! ## The trace -/

/-- The second node is the first with its numbers. -/
def Concrete.NumberedAs (root : Concrete) (u : Use) (n m : Concrete) : Prop :=
  ∃ k, root.Numbers k u n ∧ m = n.numbered k

/-- The nodes of a tree and the numbered ones are counterparts. -/
theorem Bridge.numbered (root : Concrete) : Bridge root.NumberedAs fun _ => False := by
  refine .of_children ?_ ?_
  · rintro u n _ ⟨k, -, rfl⟩
    simp
  · rintro u n _ ⟨k, hk, rfl⟩
    exact hk.children

/-- The same the other way round. -/
theorem Bridge.unnumbered (root : Concrete) :
    Bridge (fun u m n => root.NumberedAs u n m) fun _ => False := by
  have hchildren {k : Nat} {u : Concrete.Use} {n : Concrete} (h : root.Numbers k u n) :
      List.Forall₂ (Under (fun u m n => root.NumberedAs u n m) u (n.numbered k))
        (n.numbered k).children n.children := by
    refine h.children.flip.imp ?_
    rintro _ c ⟨i, hi, rfl⟩
    exact ⟨i, by rwa [Concrete.useOf_numbered], rfl⟩
  refine .of_children ?_ ?_
  · rintro u _ n ⟨k, -, rfl⟩
    simp
  · rintro u _ n ⟨k, hk, rfl⟩
    exact hchildren hk

/-- Where a tree can be made, the trace can. -/
theorem exists_trace {source : String} {root : Concrete} {t : Tree}
    (h : fileOfConcrete source root = .ok t) :
    ∃ trace, fileOfConcrete "" (root.numbered 0) = .ok trace := by
  obtain ⟨herror, hgrown⟩ := fileOfConcrete_eq_ok_iff.mp h
  have hfertile : Fertile root.NumberedAs (fun _ => False) (.ofString "") := by
    exact ⟨fun _ _ m _ => ⟨m.head.start, m.head.stop, rfl, rfl⟩, nofun, nofun⟩
  obtain ⟨trace, htrace⟩ := hgrown.exists_counterpart (Bridge.numbered root) hfertile
    (.file ⟨0, root.numbers_root, rfl⟩)
  exact ⟨trace, fileOfConcrete_eq_ok_iff.mpr ⟨by simpa using herror, htrace⟩⟩

/-- The number that a trace has at a place. -/
def Tree.numberAt? (trace : Tree) (p : Place) : Option Nat :=
  match (trace.at? p).bind (·.field? "start") with
  | some (.int k) => some k.toNat
  | _ => none

section

open Spot

variable {s : SourceText} {root : Concrete} {t trace : Tree} {x : Spot}

theorem Grown.numberAt? (h : Grown (.ofString "") .file (root.numbered 0) trace)
    (hx : Within (.root trace) x) {role : Role} {n : Concrete} {k : Nat}
    (hgrown : Grown (.ofString "") role (n.numbered k) x.tree) (hrole : role ≠ .file) :
    trace.numberAt? x.place = some k := by
  have hat : trace.at? x.place = some x.tree := (at_root trace).within h.hasDistinctKeys hx
  obtain ⟨start, -, hstart, -, hfield, -⟩ := hgrown.offsets hrole
  rw [Concrete.start_numbered] at hstart
  cases hstart
  rw [Tree.numberAt?, hat, Option.bind_some, hfield]
  rfl

/-- An opening tag is grown from the concrete tag whose number the trace has at its place. -/
theorem Grown.exists_number (h : Grown s .file root t)
    (htrace : Grown (.ofString "") .file (root.numbered 0) trace) (hx : Within (.root t) x)
    (htag : x.tree.isOpeningTag = true) : ∃ k u n selfClosing, root.Numbers k u n ∧
      (n.kind ∈ Concrete.openingKinds → n.MayGrow u) ∧ Grown s (.openingTag selfClosing) n x.tree ∧
      trace.numberAt? x.place = some k := by
  have htwin : Twin (fun u m n => root.NumberedAs u n m) (fun _ => False)
      (.ofString "") s (.root trace) (.root t) :=
    ⟨⟨.file, _, root, .file ⟨0, root.numbers_root, rfl⟩, htrace, h⟩, fun _ => rfl⟩
  rcases htwin.within (Bridge.unnumbered root) hx with ⟨_, ⟨_, hfalse, -⟩, -⟩ | ⟨y, hy, hyx⟩
  · exact hfalse.elim
  · obtain ⟨role, _, n, ⟨u, ⟨k, hk, rfl⟩, hsuits⟩, hgrown, hgrown'⟩ := hyx.grown
    obtain ⟨selfClosing, rfl⟩ := hgrown'.role_of_isOpeningTag htag
    have hgrow : n.kind ∈ Concrete.openingKinds → n.MayGrow u := by
      simpa [Role.Suits, Concrete.MayGrow] using hsuits
    refine ⟨k, u, n, selfClosing, hk, hgrow, hgrown', ?_⟩
    rw [← hyx.place fun _ => id]
    exact htrace.numberAt? hy hgrown (by simp)

end

/-! ## The tags that take an attribute -/

/-- The numbers of the concrete nodes that some places of a tree come from. -/
def numbersOf (source : String) (root : Concrete) (places : Tree → List Place) : List Nat :=
  match fileOfConcrete source root, fileOfConcrete "" (root.numbered 0) with
  | .ok t, .ok trace => (places t).filterMap trace.numberAt?
  | _, _ => []

/-- The concrete tags of the topmost elements, by their numbers. -/
def topmostNumbers (source : String) (root : Concrete) : List Nat :=
  numbersOf source root Tree.topmostTags

/-- The concrete tags that a call gives an attribute, by their numbers. -/
def takers (source : String) (root : Concrete) (call : TagCall) : List Nat :=
  numbersOf source root fun t =>
    targetPlaces (locateTopmost (.root t) ⟨call.display, []⟩).2 call.name t

/-- Where one text goes: the number of a concrete tag, and an offset in characters. -/
structure Stamp where
  number : Nat
  offset : Nat

/-- The offset is where the last part of the tag of that number ends. -/
def Stamp.Fits (source : String) (root : Concrete) (stamp : Stamp) : Prop :=
  ∃ tag last, root.nodes[stamp.number]? = some tag ∧ tag.lastPart? = some last ∧
    (SourceText.ofString source).charOffset last.head.stop = .ok stamp.offset

theorem exists_forall₂ {α β : Type} {R : α → β → Prop} {as : List α}
    (h : ∀ a ∈ as, ∃ b, R a b) : ∃ bs, List.Forall₂ R as bs := by
  induction as with
  | nil => exact ⟨[], .nil⟩
  | cons a as ih =>
    obtain ⟨⟨b, hb⟩, hrest⟩ := List.forall_mem_cons.mp h
    obtain ⟨bs, hbs⟩ := ih hrest
    exact ⟨b :: bs, .cons hb hbs⟩

theorem filterMap_eq_map_of_forall₂ {α β γ : Type} {R : α → β → Prop} {f : α → Option γ}
    {g : β → γ} {as : List α} {bs : List β} (h : List.Forall₂ R as bs)
    (hfg : ∀ a b, R a b → f a = some (g b)) : as.filterMap f = bs.map g := by
  induction h with
  | nil => rfl
  | cons hab _ ih => rw [List.filterMap_cons_some (hfg _ _ hab), ih, List.map_cons]

section

open Spot

variable {source output : String} {root : Concrete} {call : TagCall} {t trace : Tree}

theorem numbersOf_eq (ht : fileOfConcrete source root = .ok t)
    (htrace : fileOfConcrete "" (root.numbered 0) = .ok trace) (places : Tree → List Place) :
    numbersOf source root places = (places t).filterMap trace.numberAt? := by
  rw [numbersOf, ht, htrace]

/-- The marked tags are met at the topmost places. -/
theorem Taggable.mem_topmostTags_iff {k : Nat} {log : List Identity} (h : Taggable t k log)
    (display : String) {p : Place} : p ∈ t.topmostTags ↔
      ∃ x, Within (.root t) x ∧ x.isMarkedTag (.ofLog display log) = true ∧ x.place = p := by
  have hiff {x : Spot} (hx : Within (.root t) x) := isMarkedTag_iff h.keys h.located (fun _ => [])
    display (s := x) (by rwa [Tree.withAttributes_nil])
  constructor
  · intro hp
    obtain ⟨-, tag, hat, -⟩ := (mem_topmostTags h.located).mp hp
    have hwithin := exists_within_of_mem_topmostTags h.keys h.located (fun _ => []) hp hat
    rw [Tree.withAttributes_nil, Tree.withAttributes_nil] at hwithin
    exact ⟨_, hwithin, (hiff hwithin).mpr ⟨hp, tag, hat, by rw [Tree.withAttributes_nil]⟩, rfl⟩
  · rintro ⟨x, hx, hmark, rfl⟩
    exact ((hiff hx).mp hmark).1

/-- A text whose tree can be tagged: the tree, the trace of its concrete tree, and what the search
for topmost elements leaves. -/
structure Traced (source : String) (root : Concrete) (t trace : Tree) (count : Nat)
    (log : List Identity) : Prop where
  file : fileOfConcrete source root = .ok t
  number : fileOfConcrete "" (root.numbered 0) = .ok trace
  taggable : Taggable t count log

theorem exists_traced (henabled : call.enabled = true)
    (h : (tagConcrete source root call.path call.settings).result = .ok output) :
    ∃ t trace count log, Traced source root t trace count log ∧ render source (t.withAttributes
      (.across (targetPlaces (.ofLog call.display log) call.name t) (call.name, call.display)) []) =
        .ok output := by
  obtain ⟨t, hfile, hfault, hrender⟩ := of_tagConcrete_ok h
  obtain ⟨trace, hfile'⟩ := exists_trace hfile
  have hkeys := (fileOfConcrete_eq_ok_iff.mp hfile).2.hasDistinctKeys
  obtain ⟨count, log, htaggable⟩ := taggable_of_run hkeys henabled hfault
  rw [(of_run_ok henabled hkeys hfault).2, locateTopmost_eq htaggable.located] at hrender
  exact ⟨t, trace, count, log, ⟨hfile, hfile', htaggable⟩, hrender⟩

namespace Traced

variable {count : Nat} {log : List Identity} (h : Traced source root t trace count log)
include h

theorem grown : Grown (.ofString source) .file root t := (fileOfConcrete_eq_ok_iff.mp h.file).2

theorem grownTrace : Grown (.ofString "") .file (root.numbered 0) trace :=
  (fileOfConcrete_eq_ok_iff.mp h.number).2

/-- A marked tag comes from the concrete tag that the trace has the number of. -/
theorem exists_number {display : String} {x : Spot} (hx : Within (.root t) x)
    (hmark : x.isMarkedTag (.ofLog display log) = true) :
    ∃ k u n selfClosing, root.Numbers k u n ∧ (n.kind ∈ Concrete.openingKinds → n.MayGrow u) ∧
      Grown (.ofString source) (.openingTag selfClosing) n x.tree ∧
      trace.numberAt? x.place = some k := by
  obtain ⟨-, -, tag, selfClosing, -, htag⟩ := h.grown.exists_tag h.taggable.located hx hmark
  exact h.grown.exists_number h.grownTrace hx htag.isOpeningTag

theorem mem_takers (k : Nat) : k ∈ takers source root call ↔
    ∃ x, Within (.root t) x ∧ x.isTarget (.ofLog call.display log) call.name = true ∧
      trace.numberAt? x.place = some k := by
  rw [takers, numbersOf_eq h.file h.number, locateTopmost_eq h.taggable.located, List.mem_filterMap]
  constructor
  · rintro ⟨p, hp, hnumber⟩
    obtain ⟨x, hx, htarget, rfl⟩ := mem_targetPlaces.mp hp
    exact ⟨x, hx, htarget, hnumber⟩
  · rintro ⟨x, hx, htarget, hnumber⟩
    exact ⟨_, mem_targetPlaces.mpr ⟨x, hx, htarget, rfl⟩, hnumber⟩

theorem mem_topmostNumbers (display : String) (k : Nat) : k ∈ topmostNumbers source root ↔
    ∃ x, Within (.root t) x ∧ x.isMarkedTag (.ofLog display log) = true ∧
      trace.numberAt? x.place = some k := by
  rw [topmostNumbers, numbersOf_eq h.file h.number, List.mem_filterMap]
  constructor
  · rintro ⟨p, hp, hnumber⟩
    obtain ⟨x, hx, hmark, rfl⟩ := (h.taggable.mem_topmostTags_iff display).mp hp
    exact ⟨x, hx, hmark, hnumber⟩
  · rintro ⟨x, hx, hmark, hnumber⟩
    exact ⟨_, (h.taggable.mem_topmostTags_iff display).mpr ⟨x, hx, hmark, rfl⟩, hnumber⟩

/-- The takers are the topmost tags that have no plain attribute of the name. -/
theorem mem_takers_iff (call : TagCall) {k : Nat} {tag : Concrete}
    (hk : root.nodes[k]? = some tag) :
    k ∈ takers source root call ↔ k ∈ topmostNumbers source root ∧
      tag.carries (.ofString source) call.name = false := by
  -- the tag of that number is the one that a marked tag at the place is grown from
  have hcarries {x : Spot} (hx : Within (.root t) x)
      (hmark : x.isMarkedTag (.ofLog call.display log) = true)
      (hnumber : trace.numberAt? x.place = some k) :
      x.tree.carries call.name = tag.carries (.ofString source) call.name := by
    obtain ⟨k', _, n, selfClosing, hn, -, htag, hk'⟩ := h.exists_number hx hmark
    cases hnumber.symm.trans hk'
    cases hk.symm.trans hn.getElem?
    exact htag.carries_eq call.name
  rw [h.mem_takers, h.mem_topmostNumbers call.display]
  constructor
  · rintro ⟨x, hx, htarget, hnumber⟩
    obtain ⟨hmark, hlacks⟩ := Bool.and_eq_true_iff.mp htarget
    refine ⟨⟨x, hx, hmark, hnumber⟩, ?_⟩
    rw [← hcarries hx hmark hnumber]
    simpa using hlacks
  · rintro ⟨⟨x, hx, hmark, hnumber⟩, hlacks⟩
    refine ⟨x, hx, ?_, hnumber⟩
    rw [isTarget, hmark, hcarries hx hmark hnumber, hlacks]
    rfl

/-- A taker of the kind of a tag stands where a tag can have attributes. -/
theorem mayGrow {k : Nat} (hk : k ∈ takers source root call) {u : Concrete.Use} {n : Concrete}
    (hn : root.Numbers k u n) (hkind : n.kind ∈ Concrete.openingKinds) : n.MayGrow u := by
  obtain ⟨x, hx, htarget, hnumber⟩ := (h.mem_takers k).mp hk
  obtain ⟨k', v, m, _, hm, hgrow, -, hk'⟩ :=
    h.exists_number hx (Bool.and_eq_true_iff.mp htarget).1
  cases hnumber.symm.trans hk'
  obtain ⟨rfl, rfl⟩ := hn.unique hm
  exact hgrow hkind

end Traced

/-- The text that comes out of an enabled call is the source with one text inserted for each of the
takers, where the last part of its tag ends. -/
theorem exists_stamps (henabled : call.enabled = true)
    (h : (tagConcrete source root call.path call.settings).result = .ok output) :
    ∃ stamps : List Stamp, stamps.map Stamp.number = takers source root call ∧
      Splice.apply source (stamps.map fun stamp =>
        ⟨.int stamp.offset, writtenAttribute (call.name, call.display)⟩) = .ok output ∧
      ∀ stamp ∈ stamps, stamp.Fits source root := by
  obtain ⟨t, trace, count, log, htraced, hrender⟩ := exists_traced henabled h
  have hkeys := htraced.grown.hasDistinctKeys
  have hread := fun x => htraced.grown.isRead_of_within (x := x)
  obtain ⟨is, his, happly⟩ := exists_of_bind_ok hrender
  have hends := isSome_end_of_insertions hkeys hread his
  have hstamp : ∀ x ∈ targets (.ofLog call.display log) call.name t, ∃ stamp : Stamp,
      trace.numberAt? x.place = some stamp.number ∧
        x.tree.anchor.stop? = some (stamp.offset : Int) ∧ stamp.Fits source root := by
    intro x hx
    obtain ⟨hwithin, htarget⟩ := mem_targets.mp hx
    obtain ⟨k, _, tag, selfClosing, hk, -, htag, hnumber⟩ :=
      htraced.exists_number hwithin (Bool.and_eq_true_iff.mp htarget).1
    obtain ⟨last, hlast⟩ := htag.exists_lastPart (hends x hx)
    obtain ⟨offset, hoffset, hstop⟩ := htag.stop?_anchor hlast
    exact ⟨⟨k, offset⟩, hnumber, hstop, tag, last, hk.getElem?, hlast, hoffset⟩
  obtain ⟨stamps, hstamps⟩ := exists_forall₂ hstamp
  refine ⟨stamps, ?_, ?_, fun stamp hmem => ?_⟩
  · rw [takers, numbersOf_eq htraced.file htraced.number,
      locateTopmost_eq htraced.taggable.located, ← map_place_targets, List.filterMap_map]
    exact (filterMap_eq_map_of_forall₂ hstamps fun x stamp hx => hx.1).symm
  · have hstops : ∀ x ∈ targets (.ofLog call.display log) call.name t,
        (x.tree.anchor.stop?).isSome = true := by
      intro x hx
      obtain ⟨stamp, -, hstop, -⟩ := hstamp x hx
      rw [hstop]
      rfl
    rw [insertions_withAttributes hkeys htraced.grown.isNode hread hstops] at his
    rw [← happly, ← Except.ok.inj his]
    congr 1
    exact (filterMap_eq_map_of_forall₂ hstamps fun x stamp hx => by rw [hx.2.1]; rfl).symm
  · obtain ⟨x, -, hx⟩ := exists_of_mem_right hstamps hmem
    exact hx.2.2

end

end TopTag
