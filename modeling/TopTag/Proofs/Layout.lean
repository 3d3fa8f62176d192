import Mathlib.Data.List.Forall2
import Mathlib.Data.List.Pairwise
import TopTag.Concrete.Node
import TopTag.Proofs.Offsets
import TopTag.Proofs.Place
import TopTag.Proofs.Preorder

/-!
# The layout of concrete trees

What is taken for granted of a concrete tree over a source: its ranges lie on character boundaries,
are nested, and follow one another among siblings; a tag reaches beyond its name and attributes.
`TagsFrom` relates the opening tags in a tree to the concrete tags they were made from. New
attributes go behind the *last part* of a tag, and no two tags end their last parts at the same
byte.
-/

namespace TopTag

namespace Concrete

mutual

/-- A concrete node and all nodes below it. -/
def nodes : Concrete → List Concrete
  | .node h cs => .node h cs :: nodesAll cs

def nodesAll : List Concrete → List Concrete
  | [] => []
  | c :: rest => nodes c ++ nodesAll rest

end

/-- A part of a tag that is an attribute, with a name or spread from braces. -/
def isAttribute (c : Concrete) : Bool := c.kind == "jsx_attribute" || c.kind == "jsx_expression"

/-- The attributes of a tag. -/
def attributeParts (n : Concrete) : List Concrete := n.parts.filter isAttribute

/-- A tag that opens an element with a name, or a whole element in one tag. -/
def isTag (n : Concrete) : Bool :=
  n.kind == "jsx_self_closing_element" ||
    (n.kind == "jsx_opening_element" && (n.child? "name").isSome)

/-- The last attribute of a tag, or its name when it has none. -/
def lastPart? (n : Concrete) : Option Concrete := n.attributeParts.getLast?.or (n.child? "name")

/-- One node agrees with the source and with its children. -/
structure Fits (source : String) (n : Concrete) : Prop where
  start_boundary : n.head.start ∈ SourceText.boundaries source
  stop_boundary : n.head.stop ∈ SourceText.boundaries source
  forward : n.head.start ≤ n.head.stop
  nested : ∀ c ∈ n.children, n.head.start ≤ c.head.start ∧ c.head.stop ≤ n.head.stop
  ordered : n.children.Pairwise fun a b => a.head.stop ≤ b.head.start
  opening : n.kind = "jsx_element" →
    ∀ o, n.child? "open_tag" = some o → o.kind = "jsx_opening_element"
  closed : n.isTag = true →
    (∀ name, n.child? "name" = some name → name.head.stop < n.head.stop) ∧
      ∀ a ∈ n.attributeParts, a.head.stop < n.head.stop

/-- Every node of the tree agrees with the source and with its children. -/
def Orderly (source : String) (root : Concrete) : Prop := ∀ n ∈ root.nodes, n.Fits source

theorem fits_iff {source : String} {n : Concrete} :
    n.Fits source ↔ n.head.start ∈ SourceText.boundaries source ∧
      n.head.stop ∈ SourceText.boundaries source ∧ n.head.start ≤ n.head.stop ∧
      (∀ c ∈ n.children, n.head.start ≤ c.head.start ∧ c.head.stop ≤ n.head.stop) ∧
      (n.children.Pairwise fun a b => a.head.stop ≤ b.head.start) ∧
      (n.kind = "jsx_element" → ∀ o ∈ n.child? "open_tag", o.kind = "jsx_opening_element") ∧
      (n.isTag = true → (∀ name ∈ n.child? "name", name.head.stop < n.head.stop) ∧
        ∀ a ∈ n.attributeParts, a.head.stop < n.head.stop) :=
  ⟨fun ⟨h1, h2, h3, h4, h5, h6, h7⟩ => ⟨h1, h2, h3, h4, h5, h6, h7⟩,
    fun ⟨h1, h2, h3, h4, h5, h6, h7⟩ => ⟨h1, h2, h3, h4, h5, h6, h7⟩⟩

instance (source : String) (n : Concrete) : Decidable (n.Fits source) :=
  decidable_of_iff _ fits_iff.symm

instance (source : String) (root : Concrete) : Decidable (root.Orderly source) :=
  inferInstanceAs (Decidable (∀ n ∈ root.nodes, n.Fits source))

/-- Neither range reaches into the other. -/
def Apart (a b : Concrete) : Prop := a.head.stop ≤ b.head.start ∨ b.head.stop ≤ a.head.start

/-- `c` belongs to `n` and lies in its range. -/
structure Inside (n c : Concrete) : Prop where
  nodes : c.nodes ⊆ n.nodes
  start_le : n.head.start ≤ c.head.start
  stop_le : c.head.stop ≤ n.head.stop

theorem Apart.symm {a b : Concrete} (h : Apart a b) : Apart b a := Or.symm h

instance : Std.Symm Apart := ⟨fun _ _ => Apart.symm⟩

theorem mem_nodes_self (n : Concrete) : n ∈ n.nodes := by
  cases n
  rw [nodes]
  exact List.mem_cons_self

theorem nodes_subset_nodesAll {c : Concrete} {cs : List Concrete} (h : c ∈ cs) :
    c.nodes ⊆ nodesAll cs := by
  induction cs with
  | nil => cases h
  | cons d rest ih =>
    rw [nodesAll]
    rcases List.mem_cons.mp h with rfl | h
    · exact List.subset_append_left _ _
    · exact List.Subset.trans (ih h) (List.subset_append_right _ _)

theorem nodes_subset_of_mem_children {n c : Concrete} (h : c ∈ n.children) :
    c.nodes ⊆ n.nodes := by
  cases n with
  | node head cs =>
    rw [nodes]
    exact List.Subset.trans (nodes_subset_nodesAll h) (List.subset_cons_self _ _)

mutual

/-- What lies below a node of the tree lies in the tree. -/
theorem nodes_subset_of_mem_nodes {m : Concrete} :
    (n : Concrete) → m ∈ n.nodes → m.nodes ⊆ n.nodes
  | .node head cs, h => by
    rw [nodes] at h
    rcases List.mem_cons.mp h with rfl | h
    · exact fun _ hm => hm
    · rw [nodes]
      exact List.Subset.trans (nodes_subset_of_mem_nodesAll cs h) (List.subset_cons_self _ _)

theorem nodes_subset_of_mem_nodesAll {m : Concrete} :
    (cs : List Concrete) → m ∈ nodesAll cs → m.nodes ⊆ nodesAll cs
  | [], h => nomatch h
  | c :: rest, h => by
    rw [nodesAll] at h ⊢
    rcases List.mem_append.mp h with h | h
    · exact List.Subset.trans (nodes_subset_of_mem_nodes c h) (List.subset_append_left _ _)
    · exact List.Subset.trans (nodes_subset_of_mem_nodesAll rest h) (List.subset_append_right _ _)

end

/-- The range of every node of the tree holds those of its children. -/
def Nested (root : Concrete) : Prop :=
  ∀ n ∈ root.nodes, ∀ c ∈ n.children, n.head.start ≤ c.head.start ∧ c.head.stop ≤ n.head.stop

namespace Nested

variable {n c : Concrete}

theorem of_inside (h : n.Nested) (hc : n.Inside c) : c.Nested := fun m hm => h m (hc.nodes hm)

theorem inside (h : n.Nested) (hc : c ∈ n.children) : n.Inside c := by
  obtain ⟨hstart, hstop⟩ := h n n.mem_nodes_self c hc
  exact ⟨nodes_subset_of_mem_children hc, hstart, hstop⟩

end Nested

namespace Orderly

variable {source : String} {n c d : Concrete}

theorem fits (h : Orderly source n) : n.Fits source := h n n.mem_nodes_self

theorem nested (h : Orderly source n) : n.Nested := fun m hm => (h m hm).nested

theorem of_subset (h : Orderly source n) (hc : c.nodes ⊆ n.nodes) : Orderly source c :=
  fun m hm => h m (hc hm)

theorem inside (h : Orderly source n) (hc : c ∈ n.children) : Inside n c := h.nested.inside hc

theorem child (h : Orderly source n) (hc : c ∈ n.children) : Orderly source c :=
  h.of_subset (nodes_subset_of_mem_children hc)

theorem pairwise_apart (h : Orderly source n) : n.children.Pairwise Apart :=
  h.fits.ordered.imp .inl

/-- Two different children are apart. -/
theorem apart (h : Orderly source n) (hc : c ∈ n.children) (hd : d ∈ n.children) (hne : c ≠ d) :
    Apart c d := h.pairwise_apart.forall hc hd hne

end Orderly

/-- What lies in ranges that are apart is apart. -/
theorem Apart.of_inside {a b c d : Concrete} (h : Apart a b) (hac : Inside a c)
    (hbd : Inside b d) : Apart c d := by
  obtain ⟨-, hstart, hstop⟩ := hac
  obtain ⟨-, hstart', hstop'⟩ := hbd
  rcases h with h | h
  · exact .inl (by omega)
  · exact .inr (by omega)

theorem Inside.refl (n : Concrete) : Inside n n := ⟨fun _ h => h, Nat.le_refl _, Nat.le_refl _⟩

theorem Inside.trans {a b c : Concrete} (hab : Inside a b) (hbc : Inside b c) : Inside a c :=
  ⟨List.Subset.trans hbc.nodes hab.nodes, Nat.le_trans hab.start_le hbc.start_le,
    Nat.le_trans hbc.stop_le hab.stop_le⟩

theorem child?_eq_some {n c : Concrete} {field : String} (h : n.child? field = some c) :
    c ∈ n.children ∧ c.head.field = some field :=
  ⟨List.mem_of_find?_eq_some h, by simpa using List.find?_some h⟩

theorem mem_of_mem_parts {n c : Concrete} (h : c ∈ n.parts) : c ∈ n.children :=
  (List.mem_filter.mp h).1

theorem mem_of_mem_attributeParts {n c : Concrete} (h : c ∈ n.attributeParts) : c ∈ n.children :=
  mem_of_mem_parts (List.mem_filter.mp h).1

theorem attributeParts_sublist (n : Concrete) : n.attributeParts.Sublist n.children :=
  List.filter_sublist.trans List.filter_sublist

/-- The last part of a tag lies in the tag, and the tag goes on behind it. -/
theorem Orderly.lastPart {source : String} {n last : Concrete} (h : Orderly source n)
    (htag : n.isTag = true) (hlast : n.lastPart? = some last) :
    n.head.start ≤ last.head.stop ∧ last.head.stop < n.head.stop := by
  obtain ⟨hname, hattr⟩ := h.fits.closed htag
  have hpart : last ∈ n.children ∧ last.head.stop < n.head.stop := by
    rw [lastPart?, Option.or_eq_some_iff] at hlast
    rcases hlast with hlast | ⟨-, hlast⟩
    · have hmem := List.mem_of_getLast? hlast
      exact ⟨mem_of_mem_attributeParts hmem, hattr last hmem⟩
    · exact ⟨(child?_eq_some hlast).1, hname last hlast⟩
  have hforward := (h.child hpart.1).fits.forward
  have hnested := h.fits.nested last hpart.1
  exact ⟨by omega, hpart.2⟩

/-- No attribute of a tag reaches beyond the last part. -/
theorem Orderly.stop_le_lastPart {source : String} {n c last : Concrete} (h : Orderly source n)
    (hc : c ∈ n.attributeParts) (hlast : n.lastPart? = some last) :
    c.head.stop ≤ last.head.stop := by
  obtain ⟨before, hbefore⟩ : ∃ before, n.attributeParts = before ++ [last] := by
    cases hl : n.attributeParts.getLast? with
    | none =>
      rw [List.getLast?_eq_none_iff.mp hl] at hc
      cases hc
    | some last' =>
      rw [lastPart?, hl, Option.some_or] at hlast
      cases hlast
      exact List.getLast?_eq_some_iff.mp hl
  have hordered := h.fits.ordered.sublist n.attributeParts_sublist
  have hmem : last ∈ n.attributeParts := by simp [hbefore]
  have hforward := (h.child (mem_of_mem_attributeParts hmem)).fits.forward
  rw [hbefore] at hc hordered
  rcases List.mem_append.mp hc with hc | hc
  · have hle := (List.pairwise_append.mp hordered).2.2 c hc last (by simp)
    omega
  · obtain rfl := List.mem_singleton.mp hc
    exact Nat.le_refl _

end Concrete

/-! ## Trees and the concrete nodes they were made from -/

/-- The tree has the offsets of the concrete node, counted in characters. -/
def Spans (source : String) (t : Tree) (n : Concrete) : Prop :=
  ∃ start stop : Nat, start ≤ source.toList.length ∧ stop ≤ source.toList.length ∧
    SourceText.byteAt source.toList start = n.head.start ∧
    SourceText.byteAt source.toList stop = n.head.stop ∧
    t.field? "start" = some (.int start) ∧ t.field? "end" = some (.int stop)

/-- The tree is an opening tag with a list of attributes. -/
def Tree.isOpeningTag (t : Tree) : Bool :=
  t.isA "JSXOpeningElement" && (t.field? "attributes").isSome

/-- The tree is the opening tag that was made from the concrete tag: both have the same offsets,
attributes with the same offsets, and names with the same offsets or no name. -/
structure Depicts (source : String) (t : Tree) (n : Concrete) : Prop where
  kind : t.isA "JSXOpeningElement" = true
  spans : Spans source t n
  attributes : ∃ items, t.field? "attributes" = some (.list items) ∧
    List.Forall₂ (Spans source) items n.attributeParts
  name : ∀ c, n.child? "name" = some c → Spans source (t.get "name") c
  nameless : n.child? "name" = none → t.get "name" = .null

/-- The opening tags among some trees are made from `tags`, which belong to the concrete nodes `cs`
and end their last parts there, at different bytes. -/
structure TagsFrom (source : String) (cs : List Concrete) (trees : List Tree)
    (tags : List Concrete) : Prop where
  depicts : List.Forall₂ (Depicts source) (trees.filter Tree.isOpeningTag) tags
  bare : ∀ t ∈ trees, t.isA "JSXOpeningElement" = true → t.field? "attributes" = none →
    t.get "name" = .null
  inside : ∀ n ∈ tags, ∃ c ∈ cs, n ∈ c.nodes ∧ n.isTag = true ∧
    ∀ last, n.lastPart? = some last →
      c.head.start ≤ last.head.stop ∧ last.head.stop < c.head.stop
  apart : tags.Pairwise fun n n' => ∀ last last', n.lastPart? = some last →
    n'.lastPart? = some last' → last.head.stop ≠ last'.head.stop

namespace TagsFrom

variable {source : String} {cs ds : List Concrete} {trees more : List Tree}
  {tags tags' : List Concrete}

theorem nil : TagsFrom source cs [] [] := ⟨.nil, by simp, by simp, .nil⟩

/-- Trees made from nodes that are apart have no tags in common. -/
theorem append (h : TagsFrom source cs trees tags) (h' : TagsFrom source ds more tags')
    (hapart : ∀ c ∈ cs, ∀ d ∈ ds, c.Apart d) :
    TagsFrom source (cs ++ ds) (trees ++ more) (tags ++ tags') where
  depicts := by
    rw [List.filter_append]
    exact List.rel_append h.depicts h'.depicts
  bare t ht := by
    rcases List.mem_append.mp ht with ht | ht
    · exact h.bare t ht
    · exact h'.bare t ht
  inside n hn := by
    rcases List.mem_append.mp hn with hn | hn
    · obtain ⟨c, hc, hrest⟩ := h.inside n hn
      exact ⟨c, List.mem_append_left _ hc, hrest⟩
    · obtain ⟨c, hc, hrest⟩ := h'.inside n hn
      exact ⟨c, List.mem_append_right _ hc, hrest⟩
  apart := by
    refine List.pairwise_append.mpr ⟨h.apart, h'.apart, ?_⟩
    intro n hn n' hn' last last' hlast hlast' heq
    obtain ⟨c, hc, -, -, hin⟩ := h.inside n hn
    obtain ⟨d, hd, -, -, hin'⟩ := h'.inside n' hn'
    have hc' := hin last hlast
    have hd' := hin' last' hlast'
    rcases hapart c hc d hd with hcd | hdc <;> omega

/-- What belongs to nodes inside another belongs to that one. -/
theorem widen (h : TagsFrom source cs trees tags) {ds : List Concrete}
    (hin : ∀ c ∈ cs, ∃ d ∈ ds, Concrete.Inside d c) : TagsFrom source ds trees tags where
  depicts := h.depicts
  bare := h.bare
  inside n hn := by
    obtain ⟨c, hc, hnodes, htag, hlast⟩ := h.inside n hn
    obtain ⟨d, hd, hdc⟩ := hin c hc
    refine ⟨d, hd, hdc.nodes hnodes, htag, fun last hl => ?_⟩
    have hrange := hlast last hl
    have hstart := hdc.start_le
    have hstop := hdc.stop_le
    omega
  apart := h.apart

/-- A tree that is no opening tag adds nothing. -/
theorem cons_other (h : TagsFrom source cs trees tags) {t : Tree} (ht : t.isOpeningTag = false)
    (hbare : t.isA "JSXOpeningElement" = true → t.get "name" = .null) :
    TagsFrom source cs (t :: trees) tags where
  depicts := by rw [List.filter_cons_of_neg (by simp [ht])]; exact h.depicts
  bare u hu := by
    rcases List.mem_cons.mp hu with rfl | hu
    · exact fun hkind _ => hbare hkind
    · exact h.bare u hu
  inside := h.inside
  apart := h.apart

/-- An opening tag in front of the trees of its attributes. A tag inside one of them ends its last
part before that attribute ends. -/
theorem cons_tag {n : Concrete} (hn : n.Orderly source) (htag : n.isTag = true)
    (h : TagsFrom source n.attributeParts trees tags) {t : Tree} (ht : Depicts source t n)
    (hattr : t.isOpeningTag = true) : TagsFrom source [n] (t :: trees) (n :: tags) := by
  have hwide : TagsFrom source [n] trees tags := h.widen fun c hc =>
    ⟨n, List.mem_singleton_self n, hn.inside (Concrete.mem_of_mem_attributeParts hc)⟩
  refine ⟨?_, fun u hu => ?_, fun m hm => ?_, List.pairwise_cons.mpr ⟨fun m hm => ?_, h.apart⟩⟩
  · rw [List.filter_cons_of_pos hattr]
    exact .cons ht h.depicts
  · rcases List.mem_cons.mp hu with rfl | hu
    · intro _ hnone
      simp [Tree.isOpeningTag, hnone] at hattr
    · exact h.bare u hu
  · rcases List.mem_cons.mp hm with rfl | hm
    · exact ⟨m, List.mem_singleton_self m, m.mem_nodes_self, htag, fun _ => hn.lastPart htag⟩
    · exact hwide.inside m hm
  · intro last last' hlast hlast'
    obtain ⟨c, hc, -, -, hin⟩ := h.inside m hm
    have hbefore := (hin last' hlast').2
    have hbehind := hn.stop_le_lastPart hc hlast
    omega

end TagsFrom

end TopTag
