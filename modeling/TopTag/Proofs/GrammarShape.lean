import TopTag.Proofs.Anatomy
import TopTag.Proofs.Outline

/-!
# Grammar-shaped trees

The shape that a grammar gives to concrete trees, as far as it decides what becomes of markup:
which nodes stand around at most one other, which fields of a node are read, and where markup may
stand (`GrammarShaped`). A few things that no grammar does are not ruled out by this and have to be
on their own (`Regular`). Both are read off the outline of a node, so they hold of a tree wherever
it stands in the text.
-/

namespace TopTag

namespace Concrete

/-- An element or a fragment, with two tags or with one. -/
def isMarkup (n : Concrete) : Bool :=
  n.kind == "jsx_element" || n.kind == "jsx_self_closing_element"

/-- There is no markup in the node. -/
def isPlain (n : Concrete) : Bool := n.nodes.all fun m => !m.isMarkup

/-- The kinds around at most one part. -/
def singleKinds : List String :=
  ["parenthesized_expression", "expression_statement", "return_statement", "jsx_expression",
    "spread_element"]

/-- The kinds whose fields are read one by one, with these fields. -/
def fieldRules : List (String × List String) :=
  [("variable_declarator", ["name", "value"]),
    ("arrow_function", ["parameter", "parameters", "body"]),
    ("binary_expression", ["operator", "left", "right"]),
    ("ternary_expression", ["condition", "consequence", "alternative"])] ++
  Recipe.functionRules.map fun f => (f.1, ["name", "parameter", "parameters", "body"])

/-- The fields of a node that are read one by one, if its fields are read so. An export is read so
if it is a default export. -/
def readFields (n : Concrete) : List String :=
  if n.kind = "export_statement" then
    if n.children.any fun c => c.kind == "default" then ["declaration", "value"] else []
  else (fieldRules.lookup n.kind).getD []

theorem readFields_of_rule {n : Concrete} {keys : List String}
    (h : (n.kind, keys) ∈ fieldRules) : n.readFields = keys := by
  have hrules : ∀ f ∈ fieldRules, f.1 ≠ "export_statement" ∧ fieldRules.lookup f.1 = some f.2 := by
    decide
  obtain ⟨hkind, hlookup⟩ := hrules _ h
  rw [readFields, if_neg hkind, hlookup, Option.getD_some]

theorem readFields_of_default {n : Concrete} (hkind : n.kind = "export_statement")
    (h : (n.children.any fun c => c.kind == "default") = true) :
    n.readFields = ["declaration", "value"] := by
  rw [readFields, if_pos hkind, if_pos h]

/-- The fields that stand for one another. -/
def exclusiveFields : List (String × String) :=
  [("parameter", "parameters"), ("declaration", "value")]

/-- The kinds of tag. -/
def allTagKinds : List String :=
  ["jsx_opening_element", "jsx_self_closing_element", "jsx_closing_element"]

/-- The kinds of node that have no parts of interest. -/
def plainKinds : List String :=
  Recipe.leafRules.map Prod.fst ++ Recipe.constantRules.map Prod.fst ++ ["string", "comment"]

/-- The kinds of node in a converted tree. -/
def madeKinds : List String :=
  ["JSXElement", "JSXFragment"] ++ (Recipe.ordinaryShapes ++ Recipe.markupShapes).map Prod.fst

/-- The number of children of a kind. -/
def countOf (n : Concrete) (kind : String) : Nat := n.children.countP fun c => c.kind == kind

/-- The fields that are read stand once each and not for one another, and markup stands in them. -/
structure FieldShaped (n : Concrete) : Prop where
  distinct : (n.children.filterMap fun c => c.head.field).Nodup
  exclusive : ∀ p ∈ exclusiveFields, (n.child? p.1).isNone = true ∨ (n.child? p.2).isNone = true
  read : ∀ c ∈ n.children, c.isPlain = false →
    c.head.named = true ∧ ∃ key ∈ n.readFields, c.head.field = some key

/-- An element has its tags, and markup in a tag stands in its attributes. -/
structure TagShaped (n : Concrete) : Prop where
  assigned : n.kind = "jsx_attribute" →
    1 ≤ n.parts.length ∧ n.parts.length ≤ 2 ∧ n.parts.head?.all isPlain = true
  attributes : n.kind ∈ allTagKinds →
    ∀ c ∈ n.children, c.isPlain = false → c.isAttribute = true
  names : n.kind ∈ allTagKinds → (n.child? "name").all isPlain = true
  opening : n.kind = "jsx_element" → n.countOf "jsx_opening_element" = 1 ∧
    (n.child? "open_tag").any (fun o => o.kind == "jsx_opening_element" && o.head.named) = true
  closing : n.kind = "jsx_element" → n.countOf "jsx_closing_element" = 0 ∨
    n.countOf "jsx_closing_element" = 1 ∧
      (n.child? "close_tag").any (fun c => c.kind == "jsx_closing_element") = true

/-- One node is of the shape that a grammar gives it. -/
structure GrammarShaped (n : Concrete) : Prop where
  single : n.kind ∈ singleKinds → n.parts.length ≤ 1
  fields : n.readFields ≠ [] → n.FieldShaped
  declarators : n.kind ∈ Recipe.declarationKinds →
    ∀ c ∈ n.children, c.isPlain = false → c.kind = "variable_declarator"
  tags : n.TagShaped
  leaves : n.kind ∈ plainKinds → n.isPlain = true
  foreign : n.kind ∉ madeKinds

/-- One node keeps its markup where it is looked for: in children that are named, not in the place
of a list of parameters, not in an operator, and in no tag that is read without attributes. -/
structure Regular (n : Concrete) : Prop where
  named : ∀ c ∈ n.children, c.isPlain = false → c.head.named = true
  parameters : n.kind ∈ parametricKinds →
    (n.child? "parameters").all (fun c => !c.isMarkup) = true
  operator : n.kind = "binary_expression" → (n.child? "operator").all isPlain = true
  closing : n.kind = "jsx_element" →
    ∀ c ∈ n.children, c.kind = "jsx_closing_element" → c.isPlain = true
  fragment : n.kind = "jsx_element" →
    (n.child? "open_tag").all (fun o => (o.child? "name").isSome || o.isPlain) = true

section

variable {n : Concrete}

theorem fieldShaped_iff : n.FieldShaped ↔
    (n.children.filterMap fun c => c.head.field).Nodup ∧
    (∀ p ∈ exclusiveFields, (n.child? p.1).isNone = true ∨ (n.child? p.2).isNone = true) ∧
    ∀ c ∈ n.children, c.isPlain = false →
      c.head.named = true ∧ ∃ key ∈ n.readFields, c.head.field = some key :=
  ⟨fun ⟨h1, h2, h3⟩ => ⟨h1, h2, h3⟩, fun ⟨h1, h2, h3⟩ => ⟨h1, h2, h3⟩⟩

instance : Decidable n.FieldShaped := decidable_of_iff _ fieldShaped_iff.symm

theorem tagShaped_iff : n.TagShaped ↔
    (n.kind = "jsx_attribute" →
      1 ≤ n.parts.length ∧ n.parts.length ≤ 2 ∧ n.parts.head?.all isPlain = true) ∧
    (n.kind ∈ allTagKinds → ∀ c ∈ n.children, c.isPlain = false → c.isAttribute = true) ∧
    (n.kind ∈ allTagKinds → (n.child? "name").all isPlain = true) ∧
    (n.kind = "jsx_element" → n.countOf "jsx_opening_element" = 1 ∧
      (n.child? "open_tag").any (fun o => o.kind == "jsx_opening_element" && o.head.named) = true) ∧
    (n.kind = "jsx_element" → n.countOf "jsx_closing_element" = 0 ∨
      n.countOf "jsx_closing_element" = 1 ∧
        (n.child? "close_tag").any (fun c => c.kind == "jsx_closing_element") = true) :=
  ⟨fun ⟨h1, h2, h3, h4, h5⟩ => ⟨h1, h2, h3, h4, h5⟩,
    fun ⟨h1, h2, h3, h4, h5⟩ => ⟨h1, h2, h3, h4, h5⟩⟩

instance : Decidable n.TagShaped := decidable_of_iff _ tagShaped_iff.symm

theorem grammarShaped_iff : n.GrammarShaped ↔
    (n.kind ∈ singleKinds → n.parts.length ≤ 1) ∧ (n.readFields ≠ [] → n.FieldShaped) ∧
    (n.kind ∈ Recipe.declarationKinds →
      ∀ c ∈ n.children, c.isPlain = false → c.kind = "variable_declarator") ∧
    n.TagShaped ∧ (n.kind ∈ plainKinds → n.isPlain = true) ∧ n.kind ∉ madeKinds :=
  ⟨fun ⟨h1, h2, h3, h4, h5, h6⟩ => ⟨h1, h2, h3, h4, h5, h6⟩,
    fun ⟨h1, h2, h3, h4, h5, h6⟩ => ⟨h1, h2, h3, h4, h5, h6⟩⟩

instance : Decidable n.GrammarShaped := decidable_of_iff _ grammarShaped_iff.symm

theorem regular_iff : n.Regular ↔
    (∀ c ∈ n.children, c.isPlain = false → c.head.named = true) ∧
    (n.kind ∈ parametricKinds → (n.child? "parameters").all (fun c => !c.isMarkup) = true) ∧
    (n.kind = "binary_expression" → (n.child? "operator").all isPlain = true) ∧
    (n.kind = "jsx_element" →
      ∀ c ∈ n.children, c.kind = "jsx_closing_element" → c.isPlain = true) ∧
    (n.kind = "jsx_element" →
      (n.child? "open_tag").all (fun o => (o.child? "name").isSome || o.isPlain) = true) :=
  ⟨fun ⟨h1, h2, h3, h4, h5⟩ => ⟨h1, h2, h3, h4, h5⟩,
    fun ⟨h1, h2, h3, h4, h5⟩ => ⟨h1, h2, h3, h4, h5⟩⟩

instance : Decidable n.Regular := decidable_of_iff _ regular_iff.symm

end

/-! ## Outlines -/

@[simp] theorem isMarkup_outline (n : Concrete) : n.outline.isMarkup = n.isMarkup := by
  rw [isMarkup, isMarkup, kind_outline]

@[simp] theorem isAttribute_outline (n : Concrete) : n.outline.isAttribute = n.isAttribute := by
  rw [isAttribute, isAttribute, kind_outline]

@[simp] theorem isPlain_outline (n : Concrete) : n.outline.isPlain = n.isPlain := by
  rw [isPlain, isPlain, nodes_outline, List.all_map]
  simp only [Function.comp_def, isMarkup_outline]

@[simp] theorem readFields_outline (n : Concrete) : n.outline.readFields = n.readFields := by
  rw [readFields, readFields, kind_outline, children_outline, List.any_map]
  simp only [Function.comp_def, kind_outline]

@[simp] theorem countOf_outline (n : Concrete) (kind : String) :
    n.outline.countOf kind = n.countOf kind := by
  rw [countOf, countOf, children_outline, List.countP_map]
  simp only [Function.comp_def, kind_outline]

theorem fieldShaped_outline (n : Concrete) : n.outline.FieldShaped ↔ n.FieldShaped := by
  simp [fieldShaped_iff, List.filterMap_map]

theorem tagShaped_outline (n : Concrete) : n.outline.TagShaped ↔ n.TagShaped := by
  simp [tagShaped_iff, Option.all_map, Option.any_map]

theorem grammarShaped_outline (n : Concrete) : n.outline.GrammarShaped ↔ n.GrammarShaped := by
  simp [grammarShaped_iff, fieldShaped_outline, tagShaped_outline]

theorem regular_outline (n : Concrete) : n.outline.Regular ↔ n.Regular := by
  simp [regular_iff, Option.all_map]

end Concrete

end TopTag
