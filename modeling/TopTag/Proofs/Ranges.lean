import TopTag.Proofs.Anchors
import TopTag.Proofs.Sources

/-!
# Ranges of converted nodes

When the ranges of a concrete tree are nested and follow one another among siblings, so are the
ranges of the converted tree (`ranges_nest_of_fileOfConcrete`), although these count characters and
the others bytes. It does not matter whether a range begins or ends inside a character: a byte in
front of another never belongs to a later character.

Everything that goes into a node of the converted tree lies in the range of its concrete node
(`Recipe.liesIn`); the rest follows from the order of the bytes.
-/

namespace TopTag

namespace Concrete

/-- The range of a node runs forward and ends within the source, and the ranges of its children lie
in it one behind the other. -/
structure Nests (source : String) (n : Concrete) : Prop where
  forward : n.head.start ≤ n.head.stop
  bounded : n.head.stop ≤ source.utf8ByteSize
  nested : ∀ c ∈ n.children, n.head.start ≤ c.head.start ∧ c.head.stop ≤ n.head.stop
  ordered : n.children.Pairwise fun a b => a.head.stop ≤ b.head.start

/-- The ranges of all nodes of a tree are nested and in order. -/
def WellNested (source : String) (root : Concrete) : Prop := ∀ n ∈ root.nodes, n.Nests source

theorem nests_iff {source : String} {n : Concrete} :
    n.Nests source ↔ n.head.start ≤ n.head.stop ∧ n.head.stop ≤ source.utf8ByteSize ∧
      (∀ c ∈ n.children, n.head.start ≤ c.head.start ∧ c.head.stop ≤ n.head.stop) ∧
      n.children.Pairwise fun a b => a.head.stop ≤ b.head.start :=
  ⟨fun ⟨h1, h2, h3, h4⟩ => ⟨h1, h2, h3, h4⟩, fun ⟨h1, h2, h3, h4⟩ => ⟨h1, h2, h3, h4⟩⟩

instance (source : String) (n : Concrete) : Decidable (n.Nests source) :=
  decidable_of_iff _ nests_iff.symm

instance (source : String) (root : Concrete) : Decidable (root.WellNested source) :=
  inferInstanceAs (Decidable (∀ n ∈ root.nodes, n.Nests source))

namespace WellNested

variable {source : String} {n : Concrete}

theorem nests (h : n.WellNested source) : n.Nests source := h n n.mem_nodes_self

theorem nested (h : n.WellNested source) : n.Nested := fun m hm => (h m hm).nested

end WellNested

end Concrete

/-! ## Ranges in characters -/

namespace Tree

/-- The range of a node. -/
def HasRange (t : Tree) (start stop : Nat) : Prop :=
  t.field? "start" = some (.int start) ∧ t.field? "end" = some (.int stop)

/-- The second node begins no earlier than the first one ends. -/
def Precedes (a b : Tree) : Prop :=
  ∃ i j k l, a.HasRange i j ∧ b.HasRange k l ∧ j ≤ k

end Tree

section

variable {source : String} {role : Role} {n : Concrete} {t : Tree}

/-- The range of a converted node holds that of its concrete node. Only a file reaches farther. -/
theorem Grown.exists_range (h : Grown (.ofString source) role n t) (hn : n.WellNested source) :
    ∃ start stop i j, t.HasRange start stop ∧
      (SourceText.ofString source).charOffset n.head.start = .ok i ∧
      (SourceText.ofString source).charOffset n.head.stop = .ok j ∧
      start ≤ i ∧ i ≤ j ∧ j ≤ stop := by
  have hforward := hn.nests.forward
  have hend := SourceText.charOffset_utf8ByteSize source
  by_cases hrole : role = .file
  · subst hrole
    obtain ⟨r, start, stop, fields, -, ⟨rfl, rfl⟩, -, rfl⟩ := h.exists_recipe
    obtain ⟨j, hj, hjend⟩ := SourceText.charOffset_mono hn.nests.bounded hend
    obtain ⟨i, hi, hij⟩ := SourceText.charOffset_mono hforward hj
    exact ⟨0, source.length, i, j, ⟨rfl, rfl⟩, hi, hj, Nat.zero_le i, hij, hjend⟩
  · obtain ⟨i, j, hi, hj, hstart, hstop⟩ := h.offsets hrole
    have hij : i ≤ j := SourceText.charOffset_le hforward hi hj
    exact ⟨i, j, i, j, ⟨hstart, hstop⟩, hi, hj, Nat.le_refl i, hij, Nat.le_refl j⟩

/-- What is grown from a node in the range of another lies in the range grown from that. -/
theorem Grown.range_le {role' : Role} {c : Concrete} {u : Tree} {start stop i j : Nat}
    (h : Grown (.ofString source) role' c u) (hrole : role' ≠ .file) (hc : n.Inside c)
    (hi : (SourceText.ofString source).charOffset n.head.start = .ok i)
    (hj : (SourceText.ofString source).charOffset n.head.stop = .ok j)
    (hstart : start ≤ i) (hstop : j ≤ stop) :
    ∃ k l, u.HasRange k l ∧ start ≤ k ∧ l ≤ stop := by
  obtain ⟨k, l, hk, hl, hrange⟩ := h.offsets hrole
  have hik : i ≤ k := SourceText.charOffset_le hc.start_le hi hk
  have hlj : l ≤ j := SourceText.charOffset_le hc.stop_le hl hj
  exact ⟨k, l, hrange, by omega, by omega⟩

theorem GrownItems.pairwise_precedes {nodes : List Concrete} {items : List Tree}
    (h : GrownItems (.ofString source) (nodes.map Recipe.attributeRole) items)
    (hnodes : nodes.Pairwise fun a b => a.head.stop ≤ b.head.start) :
    items.Pairwise Tree.Precedes := by
  induction nodes generalizing items with
  | nil =>
    cases h
    exact .nil
  | cons c rest ih =>
    obtain ⟨hfirst, hrest⟩ := List.pairwise_cons.mp hnodes
    cases h with
    | cons ht hitems =>
      refine .cons (fun u hu => ?_) (ih hitems hrest)
      obtain ⟨i, j, -, hj, hrange⟩ := ht.offsets (Recipe.attributeRole_ne_file c)
      obtain ⟨k, hk⟩ := List.getElem?_of_mem hu
      obtain ⟨p, hp, hgrown⟩ := hitems.exists_node hk
      obtain ⟨d, hd, rfl⟩ := List.mem_map.mp (List.mem_of_getElem? hp)
      obtain ⟨i', j', hi', -, hrange'⟩ := hgrown.offsets (Recipe.attributeRole_ne_file d)
      exact ⟨i, j, i', j', hrange, hrange', SourceText.charOffset_le (hfirst d hd) hj hi'⟩

/-- The attributes of a tag follow one another. -/
theorem Grown.pairwise_precedes (h : Grown (.ofString source) role n t)
    (hn : n.WellNested source) (ht : t.isA "JSXOpeningElement" = true) :
    t.attributeItems.Pairwise Tree.Precedes := by
  rcases h.tag_cases ht with ⟨selfClosing, rfl⟩ | ⟨hnone, -⟩
  · exact h.attributes.2.pairwise_precedes (hn.nests.ordered.sublist n.attributeParts_sublist)
  · rw [Tree.attributeItems, hnone]
    exact .nil

end

/-- When the ranges of the concrete nodes are nested and in order, the file spans the source, every
range of the converted tree runs forward and holds those of the children, and in a tag each
attribute begins no earlier than those in front of it end. -/
theorem ranges_nest_of_fileOfConcrete (source : String) (root : Concrete)
    (hroot : root.WellNested source) (file : Tree) (hfile : fileOfConcrete source root = .ok file) :
    file.HasRange 0 source.length ∧ ∀ x, Spot.Within (.root file) x →
      ∃ start stop, x.tree.HasRange start stop ∧ start ≤ stop ∧
        (∀ c, x.Child c → ∃ i j, c.tree.HasRange i j ∧ start ≤ i ∧ j ≤ stop) ∧
        (x.tree.isA "JSXOpeningElement" = true → x.tree.attributeItems.Pairwise Tree.Precedes) := by
  obtain ⟨-, hgrown⟩ := fileOfConcrete_eq_ok_iff.mp hfile
  constructor
  · obtain ⟨r, start, stop, fields, -, ⟨rfl, rfl⟩, -, rfl⟩ := hgrown.exists_recipe
    exact ⟨rfl, rfl⟩
  intro x hx
  obtain ⟨role, n, hn, hgrown⟩ := hgrown.within hx
  have hnested : n.WellNested source := fun m hm =>
    hroot m (Concrete.nodes_subset_of_mem_nodes root hn hm)
  obtain ⟨start, stop, i, j, hrange, hi, hj, hstart, hij, hstop⟩ := hgrown.exists_range hnested
  refine ⟨start, stop, hrange, by omega, fun c hc => ?_, hgrown.pairwise_precedes hnested⟩
  obtain ⟨r, -, -, -, hr, -, -, -⟩ := hgrown.exists_recipe
  obtain ⟨f, hf, hpart⟩ := hgrown.exists_part hr hc
  have hlies := Recipe.liesIn hr hnested.nested f hf
  rcases hpart with ⟨role', m, hone, hm⟩ | ⟨nodes, hmany, p, hp, hm⟩
  · obtain ⟨hrole, hinside⟩ := hlies (role', m) (by rw [hone]; exact List.mem_cons_self)
    exact hm.range_le hrole hinside hi hj hstart hstop
  · obtain ⟨hrole, hinside⟩ := hlies p (by rw [hmany]; exact hp)
    exact hm.range_le hrole hinside hi hj hstart hstop

/-- A tag with two attributes, over a source whose characters take two bytes each. -/
def splitSource : String := "<é ü ö/>"

/-- The name ends inside a character, where the first attribute begins, and so do the others. -/
def splitProgram : Concrete :=
  .node ⟨"program", 0, 11, true, none, false, false⟩
    [.node ⟨"expression_statement", 0, 11, true, none, false, false⟩
      [.node ⟨"jsx_self_closing_element", 0, 11, true, none, false, false⟩
        [.node ⟨"identifier", 1, 2, true, some "name", false, false⟩ [],
          .node ⟨"jsx_attribute", 2, 5, true, some "attribute", false, false⟩
            [.node ⟨"property_identifier", 2, 5, true, none, false, false⟩ []],
          .node ⟨"jsx_attribute", 5, 8, true, some "attribute", false, false⟩
            [.node ⟨"property_identifier", 5, 8, true, none, false, false⟩ []]]]]

theorem ranges_nest_in_splitProgram :
    splitProgram.WellNested splitSource ∧
    (∃ n ∈ splitProgram.nodes, n.head.start ∉ SourceText.boundaries splitSource ∧
      n.head.stop ∉ SourceText.boundaries splitSource) ∧
    ∃ file, fileOfConcrete splitSource splitProgram = .ok file ∧
      file.HasRange 0 8 ∧
      (∃ x, Spot.Within (.root file) x ∧ x.tree.isA "JSXOpeningElement" = true ∧
        x.tree.attributeItems.length = 2) ∧
      ∀ x, Spot.Within (.root file) x → ∃ start stop, x.tree.HasRange start stop ∧ start ≤ stop ∧
        (∀ c, x.Child c → ∃ i j, c.tree.HasRange i j ∧ start ≤ i ∧ j ≤ stop) ∧
        (x.tree.isA "JSXOpeningElement" = true → x.tree.attributeItems.Pairwise Tree.Precedes) := by
  have hnested : splitProgram.WellNested splitSource := by decide +kernel
  have hinside : ∃ n ∈ splitProgram.nodes, n.head.start ∉ SourceText.boundaries splitSource ∧
      n.head.stop ∉ SourceText.boundaries splitSource := by decide +kernel
  have htag : (fileOfConcrete splitSource splitProgram).toOption.map (fun file =>
      file.nodes.any fun t => t.isA "JSXOpeningElement" && t.attributeItems.length == 2) =
        some true := by decide +kernel
  cases hfile : fileOfConcrete splitSource splitProgram with
  | error fault =>
    rw [hfile] at htag
    cases htag
  | ok file =>
    obtain ⟨hspan, hranges⟩ :=
      ranges_nest_of_fileOfConcrete splitSource splitProgram hnested file hfile
    refine ⟨hnested, hinside, file, rfl, hspan, ?_, hranges⟩
    rw [hfile] at htag
    obtain ⟨t, ht, htwo⟩ := List.any_eq_true.mp (Option.some.inj htag)
    rw [← walk_map_tree (fileOfConcrete_eq_ok_iff.mp hfile).2.isNode] at ht
    obtain ⟨v, hv, rfl⟩ := List.mem_map.mp ht
    exact ⟨v.spot, exists_mem_walk.mp ⟨v, hv, rfl⟩, by simpa using htwo⟩

end TopTag
