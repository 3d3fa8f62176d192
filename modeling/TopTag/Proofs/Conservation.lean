import Mathlib.Data.Set.Function
import TopTag.Proofs.Census

/-!
# Conversion keeps all markup

The elements and fragments of a tree are those of the concrete one: each comes from one of them, and
none is lost or comes twice. Which comes from which is read off the trace, where every node has the
number of its concrete node. There the census says that the numbers of the markup are those of the
concrete markup, once each, for the whole tree and for every part of it (`Grown.census`).
-/

namespace TopTag

/-! ## Numbered trees -/

namespace Concrete

mutual

theorem nodes_numbered (k : Nat) (n : Concrete) :
    (n.numbered k).nodes = n.nodes.mapIdx fun i m => m.numbered (k + i) := by
  cases n with
  | node h cs =>
    rw [numbered, nodes, nodes, List.mapIdx_cons, nodesAll_numberedAll (k + 1) cs]
    simp only [numbered, Nat.add_zero, Nat.add_assoc, Nat.add_comm 1]

theorem nodesAll_numberedAll (k : Nat) (cs : List Concrete) :
    nodesAll (numberedAll k cs) = (nodesAll cs).mapIdx fun i m => m.numbered (k + i) := by
  cases cs with
  | nil => rfl
  | cons c rest =>
    rw [numberedAll, nodesAll, nodesAll, List.mapIdx_append, nodes_numbered k c,
      nodesAll_numberedAll _ rest]
    simp only [Nat.add_assoc, Nat.add_comm c.nodes.length]

end

theorem mem_nodes_numbered {n m : Concrete} {k : Nat} : m ∈ (n.numbered k).nodes ↔
    ∃ i, ∃ m' : Concrete, n.nodes[i]? = some m' ∧ m'.numbered (k + i) = m := by
  simp only [nodes_numbered, List.mem_iff_getElem?, List.getElem?_mapIdx, Option.map_eq_some_iff]

@[simp] theorem isMarkup_numbered (k : Nat) (n : Concrete) :
    (n.numbered k).isMarkup = n.isMarkup := by
  rw [isMarkup, isMarkup, kind_numbered]

theorem mem_starts_numbered {n : Concrete} {k j : Nat} : j ∈ (n.numbered k).starts ↔
    ∃ i m, n.nodes[i]? = some m ∧ m.isMarkup = true ∧ k + i = j := by
  rw [starts, Multiset.mem_coe, List.mem_map]
  simp only [List.mem_filter, mem_nodes_numbered]
  constructor
  · rintro ⟨_, ⟨⟨i, m, hm, rfl⟩, hmarkup⟩, hj⟩
    rw [start_numbered] at hj
    rw [isMarkup_numbered] at hmarkup
    exact ⟨i, m, hm, hmarkup, hj⟩
  · rintro ⟨i, m, hm, hmarkup, hj⟩
    refine ⟨_, ⟨⟨i, m, hm, rfl⟩, ?_⟩, ?_⟩
    · rwa [isMarkup_numbered]
    · rwa [start_numbered]

theorem nodup_starts_numbered (k : Nat) (n : Concrete) : (n.numbered k).starts.Nodup := by
  have hstarts : (n.numbered k).nodes.map (fun m => m.head.start) =
      List.range' k n.nodes.length := by
    refine List.ext_getElem? fun i => ?_
    rw [nodes_numbered, List.getElem?_map, List.getElem?_mapIdx]
    by_cases hi : i < n.nodes.length
    · simp [hi]
    · simp [hi]
  refine Multiset.coe_nodup.mpr (List.Nodup.sublist (List.filter_sublist.map _) ?_)
  rw [hstarts]
  exact List.nodup_range'

theorem Sound.numbered {n : Concrete} (h : n.Sound) (k : Nat) : (n.numbered k).Sound := by
  intro m hm
  obtain ⟨i, m', hm', rfl⟩ := mem_nodes_numbered.mp hm
  rw [← grammarShaped_outline, ← regular_outline, outline_numbered, grammarShaped_outline,
    regular_outline]
  exact h m' (List.mem_of_getElem? hm')

/-- The nodes of a part of a tree stand together in the order of all nodes. -/
theorem Numbers.getElem?_add {root n : Concrete} {k i : Nat} {u : Use} (h : root.Numbers k u n)
    (hi : i < n.nodes.length) : root.nodes[k + i]? = n.nodes[i]? := by
  obtain ⟨rest, hrest⟩ := h
  have hnodes : n.nodes ++ rest.map Prod.snd = root.nodes.drop k := by
    rw [← n.map_snd_listing u, ← root.map_snd_listing .plain, ← List.map_append, hrest,
      List.map_drop]
  rw [← List.getElem?_drop, ← hnodes, List.getElem?_append_left hi]

/-- The numbers of the elements and fragments. -/
def markupNumbers (root : Concrete) : Set Nat := {k | ∃ n ∈ root.nodes[k]?, n.isMarkup = true}

/-- An element whose opening tag has no name. -/
def isFragment (n : Concrete) : Bool :=
  n.kind == "jsx_element" && !(n.child? "open_tag").any fun o => (o.child? "name").isSome

end Concrete

open Spot
open TopTag.Tree (census)

/-- The numbers of the markup in a spot, by the places in it. -/
theorem mem_census_iff {y : Spot} (h : y.tree.isNode = true) {k : Nat} :
    k ∈ census y.tree.nodes ↔
      ∃ z, Within y z ∧ z.tree.isMarkup = true ∧ z.tree.number = k := by
  simp only [census, ← walk_map_tree_of_isNode h, Multiset.mem_coe, List.mem_map, List.mem_filter,
    ← exists_mem_walk]
  constructor
  · rintro ⟨_, ⟨⟨v, hv, rfl⟩, hmarkup⟩, hk⟩
    exact ⟨v.spot, ⟨v, hv, rfl⟩, hmarkup, hk⟩
  · rintro ⟨_, ⟨v, hv, rfl⟩, hmarkup, hk⟩
    exact ⟨_, ⟨⟨v, hv, rfl⟩, hmarkup⟩, hk⟩

/-- Where no number comes twice, a number has one place. -/
theorem eq_of_nodup_census {y z z' : Spot} (h : y.tree.isNode = true)
    (hnodup : (census y.tree.nodes).Nodup) (hz : Within y z) (hz' : Within y z')
    (hmarkup : z.tree.isMarkup = true) (hmarkup' : z'.tree.isMarkup = true)
    (hnumber : z.tree.number = z'.tree.number) : z = z' := by
  rw [census, ← walk_map_tree_of_isNode h, List.filter_map, List.map_map,
    Multiset.coe_nodup] at hnodup
  obtain ⟨v, hv, rfl⟩ := exists_mem_walk.mpr hz
  obtain ⟨v', hv', rfl⟩ := exists_mem_walk.mpr hz'
  have heq : v = v' := List.inj_on_of_nodup_map hnodup (List.mem_filter.mpr ⟨hv, hmarkup⟩)
    (List.mem_filter.mpr ⟨hv', hmarkup'⟩) hnumber
  rw [heq]

theorem Grown.number_eq {n : Concrete} {k : Nat} {t : Tree}
    (h : Grown (.ofString "") .expression (n.numbered k) t) : t.number = k := by
  obtain ⟨start, -, hstart, -, hfield, -⟩ := h.offsets (by decide)
  rw [Concrete.start_numbered] at hstart
  cases hstart
  rw [Tree.number, hfield]
  rfl

/-- A fragment is grown from an element whose opening tag has no name. -/
theorem Grown.isFragment_eq {s : SourceText} {n : Concrete} {t : Tree}
    (h : Grown s .expression n t) (hmarkup : n.isMarkup = true) :
    t.isFragment = n.isFragment := by
  obtain ⟨r, _, _, _, hr, -, -, -⟩ := h.exists_recipe
  have hkind {b : Bool} (hb : r.kind = "JSXFragment" ↔ b = true) : t.isFragment = b :=
    Bool.eq_iff_iff.mpr ((h.isA_iff hr).trans hb)
  rcases Bool.or_eq_true_iff.mp hmarkup with helement | hself
  · rw [beq_iff_eq] at helement
    simp only [recipe, Recipe.expression, helement] at hr
    obtain ⟨o, ho, ⟨hname, rfl⟩ | ⟨hname, rfl⟩⟩ := Recipe.element_cases hr
    · exact hkind (by simp [Concrete.isFragment, helement, ho, hname])
    · exact hkind (by simp [Concrete.isFragment, helement, ho, hname])
  · rw [beq_iff_eq] at hself
    simp only [recipe, Recipe.expression, hself] at hr
    cases hr
    exact hkind (by simp [Concrete.isFragment, hself, Recipe.selfClosingElement])

/-! ## Echoes -/

theorem Role.suits_numbered {role : Role} {u : Concrete.Use} {n : Concrete} {k : Nat} :
    role.Suits u (n.numbered k) ↔ role.Suits u n := by
  cases role <;> simp [Role.Suits, Concrete.MayGrow]

/-- The second spot, one of the trace, is grown from the numbered node of the first. -/
def Echo (root : Concrete) (s : SourceText) (x y : Spot) : Prop :=
  Twin root.NumberedAs (fun _ => False) s (.ofString "") x y

namespace Echo

variable {root : Concrete} {s : SourceText} {x x' y y' : Spot} {file trace : Tree}

theorem root_of_grown (h : Grown s .file root file)
    (htrace : Grown (.ofString "") .file (root.numbered 0) trace) :
    Echo root s (.root file) (.root trace) :=
  ⟨⟨.file, root, _, .file ⟨0, root.numbers_root, rfl⟩, h, htrace⟩, fun _ => rfl⟩

theorem flip (h : Echo root s x y) : Twin (fun u m n => root.NumberedAs u n m) (fun _ => False)
    (.ofString "") s y x := by
  obtain ⟨role, n, _, ⟨u, ⟨k, hk, rfl⟩, hsuits⟩, hx, hy⟩ := h.grown
  exact ⟨⟨role, _, n, ⟨u, ⟨k, hk, rfl⟩, Role.suits_numbered.mpr hsuits⟩, hy, hx⟩,
    fun hnone => (h.place hnone).symm⟩

theorem of_flip (h : Twin (fun u m n => root.NumberedAs u n m) (fun _ => False)
    (.ofString "") s y x) : Echo root s x y := by
  obtain ⟨role, _, n, ⟨u, ⟨k, hk, rfl⟩, hsuits⟩, hy, hx⟩ := h.grown
  exact ⟨⟨role, n, _, ⟨u, ⟨k, hk, rfl⟩, Role.suits_numbered.mp hsuits⟩, hx, hy⟩,
    fun hnone => (h.place hnone).symm⟩

theorem exists_source (h : Echo root s x y) (hy : Within y y') :
    ∃ x', Within x x' ∧ Echo root s x' y' := by
  rcases h.within (Bridge.numbered root) hy with ⟨_, ⟨_, hfalse, -⟩, -⟩ | hecho
  · exact hfalse.elim
  · exact hecho

theorem exists_echo (h : Echo root s x y) (hx : Within x x') :
    ∃ y', Within y y' ∧ Echo root s x' y' := by
  rcases h.flip.within (Bridge.unnumbered root) hx with ⟨_, ⟨_, hfalse, -⟩, -⟩ | ⟨y', hy', hecho⟩
  · exact hfalse.elim
  · exact ⟨y', hy', of_flip hecho⟩

theorem place_eq (h : Echo root s x y) : x.place = y.place := h.place fun _ => id

theorem isMarkup_eq (h : Echo root s x y) : y.tree.isMarkup = x.tree.isMarkup := by
  rw [Tree.isMarkup, Tree.isMarkup, Tree.isElement, Tree.isElement, Tree.isFragment,
    Tree.isFragment, h.isA (Bridge.numbered root), h.isA (Bridge.numbered root)]

theorem exists_node (hsound : root.Sound) (h : Echo root s x y)
    (hmarkup : x.tree.isMarkup = true) : ∃ u n, root.Numbers y.tree.number u n ∧
      n.isMarkup = true ∧ Grown s .expression n x.tree ∧
      Grown (.ofString "") .expression (n.numbered y.tree.number) y.tree ∧
      census y.tree.nodes = (n.numbered y.tree.number).starts := by
  obtain ⟨role, n, _, ⟨u, ⟨k, hk, rfl⟩, -⟩, hx, hy⟩ := h.grown
  have hn : n.Sound := fun m hm => hsound m
    (Concrete.nodes_subset_of_mem_nodes root (List.mem_of_getElem? hk.getElem?) hm)
  obtain ⟨rfl, hmarkup⟩ := (hx.isMarkup_iff hn.shaped.foreign).mp hmarkup
  rw [hy.number_eq]
  exact ⟨u, n, hk, hmarkup, hx, hy, hy.census (hn.numbered k) trivial⟩

end Echo

/-! ## Matching -/

/-- The places of the elements and fragments in a file. -/
def markupSpots (file : Tree) : Set Spot := {x | Within (.root file) x ∧ x.tree.isMarkup = true}

/-- The number that a trace has for a spot. -/
def Tree.numberOf (trace : Tree) (x : Spot) : Nat := (trace.numberAt? x.place).getD 0

/-- The numbers match the elements and fragments of a file with those of its concrete tree.
Fragments come from elements whose tags have no names, the offsets are those of the concrete nodes,
and one stands in another where the concrete one does: the nodes of a part of a concrete tree have
numbers that follow one another. -/
structure MarkupMatch (source : String) (root : Concrete) (file : Tree) (number : Spot → Nat) :
    Prop where
  bijOn : Set.BijOn number (markupSpots file) root.markupNumbers
  isFragment : ∀ x ∈ markupSpots file, ∀ n ∈ root.nodes[number x]?,
    x.tree.isFragment = n.isFragment
  range : ∀ x ∈ markupSpots file, ∀ n ∈ root.nodes[number x]?, ∃ start stop : Nat,
    (SourceText.ofString source).charOffset n.head.start = .ok start ∧
    (SourceText.ofString source).charOffset n.head.stop = .ok stop ∧
    x.tree.field? "start" = some (.int start) ∧ x.tree.field? "end" = some (.int stop)
  nested : ∀ x ∈ markupSpots file, ∀ x' ∈ markupSpots file, ∀ n ∈ root.nodes[number x]?,
    Within x x' ↔ number x ≤ number x' ∧ number x' < number x + n.nodes.length

section

variable {root : Concrete} {s : SourceText} {file trace : Tree}

theorem Echo.numberOf {x y : Spot} (hsound : root.Sound)
    (htrace : Grown (.ofString "") .file (root.numbered 0) trace) (h : Echo root s x y)
    (hy : Within (.root trace) y) (hmarkup : x.tree.isMarkup = true) :
    trace.numberOf x = y.tree.number := by
  obtain ⟨u, n, -, -, -, hgrown, -⟩ := h.exists_node hsound hmarkup
  rw [Tree.numberOf, h.place_eq, htrace.numberAt? hy hgrown (by decide), Option.getD_some]

/-- A file, the trace of its concrete tree, and that this tree is sound. -/
structure Accounted (s : SourceText) (root : Concrete) (file trace : Tree) : Prop where
  sound : root.Sound
  grown : Grown s .file root file
  traced : Grown (.ofString "") .file (root.numbered 0) trace

namespace Accounted

variable (h : Accounted s root file trace)
include h

theorem exists_echo {x : Spot} (hx : x ∈ markupSpots file) : ∃ y, Within (.root trace) y ∧
    Echo root s x y ∧ y.tree.isMarkup = true ∧ trace.numberOf x = y.tree.number := by
  obtain ⟨y, hy, hecho⟩ := (Echo.root_of_grown h.grown h.traced).exists_echo hx.1
  exact ⟨y, hy, hecho, hecho.isMarkup_eq.trans hx.2, hecho.numberOf h.sound h.traced hy hx.2⟩

/-- What the census finds in a part of the trace has its source in the same part of the file. -/
theorem exists_source {x y : Spot} (hx : Within (.root file) x) (hy : Within (.root trace) y)
    (hecho : Echo root s x y) {k : Nat} (hk : k ∈ census y.tree.nodes) :
    ∃ x' ∈ markupSpots file, Within x x' ∧ trace.numberOf x' = k := by
  obtain ⟨_, _, _, -, -, hgrown⟩ := hecho.grown
  obtain ⟨z, hz, hmarkup, rfl⟩ := (mem_census_iff hgrown.isNode).mp hk
  obtain ⟨x', hx', hecho'⟩ := hecho.exists_source hz
  have hmarkup' : x'.tree.isMarkup = true := hecho'.isMarkup_eq.symm.trans hmarkup
  exact ⟨x', ⟨hx.trans hx', hmarkup'⟩, hx',
    hecho'.numberOf h.sound h.traced (hy.trans hz) hmarkup'⟩

theorem census_trace : census trace.nodes = (root.numbered 0).starts :=
  h.traced.census (h.sound.numbered 0) trivial

theorem injOn : Set.InjOn trace.numberOf (markupSpots file) := by
  intro x hx x' hx' heq
  obtain ⟨y, hy, hecho, hmarkup, hnumber⟩ := h.exists_echo hx
  obtain ⟨y', hy', hecho', hmarkup', hnumber'⟩ := h.exists_echo hx'
  have hnodup : (census trace.nodes).Nodup := by
    rw [h.census_trace]
    exact Concrete.nodup_starts_numbered 0 root
  have hsame : y = y' := eq_of_nodup_census h.traced.isNode hnodup hy hy' hmarkup hmarkup'
    (hnumber.symm.trans (heq.trans hnumber'))
  have hplace : x.place = x'.place := by rw [hecho.place_eq, hecho'.place_eq, hsame]
  have hkeys := h.grown.hasDistinctKeys
  exact ((at_root file).within hkeys hx.1).unique ((at_root file).within hkeys hx'.1) hplace

theorem bijOn : Set.BijOn trace.numberOf (markupSpots file) root.markupNumbers := by
  refine ⟨fun x hx => ?_, h.injOn, fun k hk => ?_⟩
  · obtain ⟨y, -, hecho, -, hnumber⟩ := h.exists_echo hx
    obtain ⟨u, n, hn, hmarkup, -⟩ := hecho.exists_node h.sound hx.2
    rw [hnumber]
    exact ⟨n, hn.getElem?, hmarkup⟩
  · obtain ⟨n, hn, hmarkup⟩ := hk
    have hmem : k ∈ census trace.nodes := by
      rw [h.census_trace]
      exact Concrete.mem_starts_numbered.mpr ⟨k, n, hn, hmarkup, Nat.zero_add k⟩
    obtain ⟨x, hx, -, hnumber⟩ :=
      h.exists_source .refl .refl (Echo.root_of_grown h.grown h.traced) hmem
    exact ⟨x, hx, hnumber⟩

theorem within_iff {x x' : Spot} (hx : x ∈ markupSpots file) (hx' : x' ∈ markupSpots file)
    {n : Concrete} (hn : root.nodes[trace.numberOf x]? = some n) : Within x x' ↔
      trace.numberOf x ≤ trace.numberOf x' ∧
        trace.numberOf x' < trace.numberOf x + n.nodes.length := by
  obtain ⟨y, hy, hecho, -, hnumber⟩ := h.exists_echo hx
  obtain ⟨u, m, hm, -, -, hgrown, hcensus⟩ := hecho.exists_node h.sound hx.2
  rw [hnumber] at hn ⊢
  cases hn.symm.trans hm.getElem?
  constructor
  · intro hwithin
    obtain ⟨z, hz, hecho'⟩ := hecho.exists_echo hwithin
    have hmem : trace.numberOf x' ∈ census y.tree.nodes := (mem_census_iff hgrown.isNode).mpr
      ⟨z, hz, hecho'.isMarkup_eq.trans hx'.2,
        (hecho'.numberOf h.sound h.traced (hy.trans hz) hx'.2).symm⟩
    rw [hcensus] at hmem
    obtain ⟨i, c, hc, -, hi⟩ := Concrete.mem_starts_numbered.mp hmem
    have hlt := (List.getElem?_eq_some_iff.mp hc).1
    omega
  · rintro ⟨hle, hlt⟩
    obtain ⟨i, hi⟩ := Nat.exists_eq_add_of_le hle
    have hmem : trace.numberOf x' ∈ census y.tree.nodes := by
      obtain ⟨c, hc, hmarkup⟩ := h.bijOn.mapsTo hx'
      rw [hi, hm.getElem?_add (by omega)] at hc
      rw [hcensus]
      exact Concrete.mem_starts_numbered.mpr ⟨i, c, hc, hmarkup, hi.symm⟩
    obtain ⟨x'', hx'', hwithin, hnumber'⟩ := h.exists_source hx.1 hy hecho hmem
    rwa [← h.injOn hx'' hx' hnumber']

end Accounted

end

/-- Conversion keeps all markup: the elements and fragments of a file are those of its concrete
tree, if this has the shape that a grammar gives it and is regular. -/
theorem exists_markupMatch (source : String) (root : Concrete)
    (hshaped : ∀ n ∈ root.nodes, n.GrammarShaped) (hregular : ∀ n ∈ root.nodes, n.Regular)
    (file : Tree) (hfile : fileOfConcrete source root = .ok file) :
    ∃ number, MarkupMatch source root file number := by
  obtain ⟨trace, htrace⟩ := exists_trace hfile
  have h : Accounted (.ofString source) root file trace :=
    ⟨fun n hn => ⟨hshaped n hn, hregular n hn⟩, (fileOfConcrete_eq_ok_iff.mp hfile).2,
      (fileOfConcrete_eq_ok_iff.mp htrace).2⟩
  have hnode {x : Spot} (hx : x ∈ markupSpots file) {n : Concrete}
      (hn : n ∈ root.nodes[trace.numberOf x]?) :
      n.isMarkup = true ∧ Grown (.ofString source) .expression n x.tree := by
    obtain ⟨y, -, hecho, -, hnumber⟩ := h.exists_echo hx
    obtain ⟨u, m, hm, hmarkup, hgrown, -⟩ := hecho.exists_node h.sound hx.2
    rw [hnumber] at hn
    cases hn.symm.trans hm.getElem?
    exact ⟨hmarkup, hgrown⟩
  refine ⟨trace.numberOf, h.bijOn, fun x hx n hn => ?_, fun x hx n hn => ?_,
    fun x hx x' hx' n hn => h.within_iff hx hx' hn⟩
  · exact (hnode hx hn).2.isFragment_eq (hnode hx hn).1
  · exact (hnode hx hn).2.offsets (by decide)

/-- An element of four characters, with a name of one. -/
def tinyElement (start : Nat) (named : Bool) (field : Option String) : Concrete :=
  .node ⟨"jsx_self_closing_element", start, start + 4, named, field, false, false⟩
    [.node ⟨"identifier", start + 1, start + 2, true, some "name", false, false⟩ []]

/-- An attribute with such an element in braces. -/
def tinyAttribute (start : Nat) : Concrete :=
  .node ⟨"jsx_attribute", start, start + 8, true, some "attribute", false, false⟩
    [.node ⟨"property_identifier", start, start + 1, true, none, false, false⟩ [],
      .node ⟨"jsx_expression", start + 2, start + 8, true, none, false, false⟩
        [tinyElement (start + 3) true none]]

def keptSource : String := "const A = (p) => (<><a b=\x7b<i/>\x7d />\x7bp && <u/>\x7d</>);"

/-- The fragment of the program, which has two elements and a third in an attribute. -/
def keptFragment : Concrete :=
  .node ⟨"jsx_element", 18, 48, true, none, false, false⟩
    [.node ⟨"jsx_opening_element", 18, 20, true, some "open_tag", false, false⟩ [],
      .node ⟨"jsx_self_closing_element", 20, 34, true, none, false, false⟩
        [.node ⟨"identifier", 21, 22, true, some "name", false, false⟩ [], tinyAttribute 23],
      .node ⟨"jsx_expression", 34, 45, true, none, false, false⟩
        [.node ⟨"binary_expression", 35, 44, true, none, false, false⟩
          [.node ⟨"identifier", 35, 36, true, some "left", false, false⟩ [],
            .node ⟨"&&", 37, 39, false, some "operator", false, false⟩ [],
            tinyElement 40 true (some "right")]],
      .node ⟨"jsx_closing_element", 45, 48, true, some "close_tag", false, false⟩ []]

def keptProgram : Concrete :=
  .node ⟨"program", 0, 50, true, none, false, false⟩
    [.node ⟨"lexical_declaration", 0, 50, true, none, false, false⟩
      [.node ⟨"const", 0, 5, false, some "kind", false, false⟩ [],
        .node ⟨"variable_declarator", 6, 49, true, none, false, false⟩
          [.node ⟨"identifier", 6, 7, true, some "name", false, false⟩ [],
            .node ⟨"arrow_function", 10, 49, true, some "value", false, false⟩
              [.node ⟨"formal_parameters", 10, 13, true, some "parameters", false, false⟩
                  [.node ⟨"identifier", 11, 12, true, none, false, false⟩ []],
                .node ⟨"parenthesized_expression", 17, 49, true, some "body", false, false⟩
                  [keptFragment]]]]]

theorem exists_markupMatch_keptProgram :
    (∀ n ∈ keptProgram.nodes, n.GrammarShaped ∧ n.Regular) ∧
    ∃ file, fileOfConcrete keptSource keptProgram = .ok file ∧
      file.nodes.countP Tree.isMarkup = 4 ∧
      ∃ number, MarkupMatch keptSource keptProgram file number := by
  have hshaped : ∀ n ∈ keptProgram.nodes, n.GrammarShaped := by decide +kernel
  have hregular : ∀ n ∈ keptProgram.nodes, n.Regular := by decide +kernel
  have hcount : (fileOfConcrete keptSource keptProgram).toOption.map (fun file =>
      file.nodes.countP Tree.isMarkup) = some 4 := by decide +kernel
  cases hfile : fileOfConcrete keptSource keptProgram with
  | error fault =>
    rw [hfile] at hcount
    cases hcount
  | ok file =>
    rw [hfile] at hcount
    exact ⟨fun n hn => ⟨hshaped n hn, hregular n hn⟩, file, rfl, Option.some.inj hcount,
      exists_markupMatch keptSource keptProgram hshaped hregular file hfile⟩

/-! ## Irregular trees -/

/-- Numbers that reach all concrete markup need as much markup in the file. -/
theorem countP_le_of_surjOn {root : Concrete} {file : Tree} {number : Spot → Nat}
    (hnode : file.isNode = true)
    (h : Set.SurjOn number (markupSpots file) root.markupNumbers) :
    root.nodes.countP Concrete.isMarkup ≤ file.nodes.countP Tree.isMarkup := by
  have hcount : root.nodes.countP Concrete.isMarkup = (root.numbered 0).starts.card := by
    have houtline (n : Concrete) :
        n.outline.nodes.countP Concrete.isMarkup = n.nodes.countP Concrete.isMarkup := by
      rw [Concrete.nodes_outline, List.countP_map]
      simp only [Function.comp_def, Concrete.isMarkup_outline]
    rw [← houtline, ← root.outline_numbered 0, houtline, Concrete.starts, Multiset.coe_card,
      List.length_map, List.countP_eq_length_filter]
  have hsub : (root.numbered 0).starts ⊆ ((((walk (.root file)).map Visit.spot).filter
      fun x => x.tree.isMarkup).map number : List Nat) := by
    intro k hk
    obtain ⟨i, n, hn, hmarkup, rfl⟩ := Concrete.mem_starts_numbered.mp hk
    obtain ⟨x, ⟨hx, hx'⟩, hnumber⟩ := h ⟨n, (Nat.zero_add i).symm ▸ hn, hmarkup⟩
    exact Multiset.mem_coe.mpr (List.mem_map.mpr ⟨x, List.mem_filter.mpr
      ⟨List.mem_map.mpr (exists_mem_walk.mpr hx), hx'⟩, hnumber⟩)
  have hle := Multiset.card_le_card
    ((Multiset.le_iff_subset (Concrete.nodup_starts_numbered 0 root)).mpr hsub)
  rw [hcount, ← walk_map_tree hnode, List.countP_map]
  refine hle.trans_eq ?_
  rw [Multiset.coe_card, List.length_map, ← List.countP_eq_length_filter, List.countP_map]
  rfl

/-- A program of one statement. -/
def programOf (stop : Nat) (statement : Concrete) : Concrete :=
  .node ⟨"program", 0, stop, true, none, false, false⟩ [statement]

/-- The tree of the source has the shape that a grammar gives it, and still its conversion loses
markup. -/
def LosesMarkup (source : String) (root : Concrete) : Prop :=
  (∀ n ∈ root.nodes, n.GrammarShaped) ∧ ∃ file, fileOfConcrete source root = .ok file ∧
    ¬∃ number, Set.BijOn number (markupSpots file) root.markupNumbers

theorem losesMarkup_of_countP_lt {source : String} {root : Concrete}
    (hshaped : ∀ n ∈ root.nodes, n.GrammarShaped)
    (hcount : (fileOfConcrete source root).toOption.any (fun file =>
      file.nodes.countP Tree.isMarkup < root.nodes.countP Concrete.isMarkup) = true) :
    LosesMarkup source root := by
  refine ⟨hshaped, ?_⟩
  cases hfile : fileOfConcrete source root with
  | error fault =>
    rw [hfile] at hcount
    cases hcount
  | ok file =>
    rw [hfile] at hcount
    refine ⟨file, rfl, fun ⟨number, hbij⟩ => ?_⟩
    have hle := countP_le_of_surjOn (fileOfConcrete_eq_ok_iff.mp hfile).2.isNode hbij.surjOn
    exact absurd (of_decide_eq_true hcount) (Nat.not_lt.mpr hle)

/-- An element that is a child without a name. -/
def unnamedElement : Concrete := programOf 4 (tinyElement 0 false none)

/-- An element in the place of a list of parameters. -/
def parameterElement : Concrete :=
  programOf 16 (.node ⟨"function_declaration", 0, 16, true, none, false, false⟩
    [.node ⟨"identifier", 9, 10, true, some "name", false, false⟩ [],
      tinyElement 10 true (some "parameters"),
      .node ⟨"statement_block", 14, 16, true, some "body", false, false⟩ []])

/-- An element in the place of an operator. -/
def operatorElement : Concrete :=
  programOf 6 (.node ⟨"binary_expression", 0, 6, true, none, false, false⟩
    [.node ⟨"identifier", 0, 1, true, some "left", false, false⟩ [],
      tinyElement 1 true (some "operator"),
      .node ⟨"identifier", 5, 6, true, some "right", false, false⟩ []])

/-- An element in an attribute of a closing tag. -/
def closingTagElement : Concrete :=
  programOf 16 (.node ⟨"jsx_element", 0, 16, true, none, false, false⟩
    [.node ⟨"jsx_opening_element", 0, 3, true, some "open_tag", false, false⟩
        [.node ⟨"identifier", 1, 2, true, some "name", false, false⟩ []],
      .node ⟨"jsx_closing_element", 3, 16, true, some "close_tag", false, false⟩
        [.node ⟨"identifier", 5, 6, true, some "name", false, false⟩ [], tinyAttribute 7]])

/-- An element in an attribute of a tag that opens a fragment. -/
def fragmentTagElement : Concrete :=
  programOf 13 (.node ⟨"jsx_element", 0, 13, true, none, false, false⟩
    [.node ⟨"jsx_opening_element", 0, 10, true, some "open_tag", false, false⟩ [tinyAttribute 1],
      .node ⟨"jsx_closing_element", 10, 13, true, some "close_tag", false, false⟩ []])

/-- The shape that a grammar gives is not enough: where a tree is not regular, markup is lost, one
way for each thing that regular trees do not do. -/
theorem irregular_trees_lose_markup :
    LosesMarkup "<a/>" unnamedElement ∧
    LosesMarkup "function f<a/>\x7b\x7d" parameterElement ∧
    LosesMarkup "x<a/>y" operatorElement ∧
    LosesMarkup "<a></a b=\x7b<i/>\x7d>" closingTagElement ∧
    LosesMarkup "<b=\x7b<i/>\x7d></>" fragmentTagElement := by
  refine ⟨?_, ?_, ?_, ?_, ?_⟩
  · exact losesMarkup_of_countP_lt (by decide +kernel) (by decide +kernel)
  · exact losesMarkup_of_countP_lt (by decide +kernel) (by decide +kernel)
  · exact losesMarkup_of_countP_lt (by decide +kernel) (by decide +kernel)
  · exact losesMarkup_of_countP_lt (by decide +kernel) (by decide +kernel)
  · exact losesMarkup_of_countP_lt (by decide +kernel) (by decide +kernel)

end TopTag
