import TopTag.Proofs.Anatomy
import TopTag.Proofs.Decoding
import TopTag.Proofs.TaggedSource

/-!
# Texts and ranges

A node of a converted tree may carry a text, and has a range in any case. The text was cut out of
the bytes and the range was counted in characters; still the text is what the range says, wherever
the concrete nodes begin and end with characters (`extract_eq_of_within`).
-/

namespace TopTag

/-- The kinds of node that carry the text of their range, with the field that holds it. -/
def textFields : List (String × String) :=
  [("Identifier", "name"), ("JSXIdentifier", "name"), ("JSXNamespacedName", "text"),
    ("JSXMemberExpression", "text"), ("JSXText", "value"), ("NumericLiteral", "raw")]

/-- The kinds of node that carry a text. A string has the text between its quotes. -/
def textKinds : List String := "StringLiteral" :: textFields.map Prod.fst

namespace Recipe

variable {s : SourceText} {n : Concrete} {r : Recipe} {role : Role}

/-- The node carries the text of its concrete node, or is the string that the concrete node is. -/
def Quotes (s : SourceText) (n : Concrete) (r : Recipe) : Prop :=
  r = .string s n ∨ ∃ f ∈ textFields, r = .leaf s n f.1 f.2

theorem Rule.quotes (h : Rule s n r) (hr : r.kind ∈ textKinds) (hn : n.kind ∉ textKinds) :
    r.Quotes s n := by
  have other {P : Prop} (kind : String) (hkind : r.kind = kind) (hnot : kind ∉ textKinds) : P :=
    absurd (hkind ▸ hr) hnot
  have hsequence : ∀ f ∈ sequenceRules, f.2.1 ∉ textKinds := by decide
  have hwrapper : ∀ f ∈ wrapperRules, f.2.1 ∉ textKinds := by decide
  have hleaf : ∀ f ∈ leafRules, f.2 ∈ textFields := by decide
  have hfunction : ∀ f ∈ functionRules, f.2 ∉ textKinds := by decide
  have hconstant : ∀ f ∈ constantRules, f.2.kind ∉ textKinds := by decide
  cases h with
  | sequence h => exact absurd hr (hsequence _ h)
  | wrapper h => exact absurd hr (hwrapper _ h)
  | leaf h => exact .inr ⟨_, hleaf _ h, rfl⟩
  | function h => exact absurd hr (hfunction _ h)
  | constant h => exact absurd hr (hconstant _ h)
  | declaration _ hr' =>
    obtain ⟨keyword, -, rfl⟩ := Option.map_eq_some_iff.mp hr'
    exact other "VariableDeclaration" rfl (by decide)
  | declarator => exact other "VariableDeclarator" rfl (by decide)
  | arrow => exact other "ArrowFunctionExpression" rfl (by decide)
  | exported =>
    rw [exportStatement] at hr
    split at hr
    · exact absurd hr (show "ExportDefaultDeclaration" ∉ textKinds by decide)
    · exact absurd hr (show "ExportNamedDeclaration" ∉ textKinds by decide)
  | binary _ hr' =>
    obtain ⟨o, -, rfl⟩ := Option.map_eq_some_iff.mp hr'
    split at hr
    · exact absurd hr (show "LogicalExpression" ∉ textKinds by decide)
    · exact absurd hr (show "BinaryExpression" ∉ textKinds by decide)
  | conditional => exact other "ConditionalExpression" rfl (by decide)
  | element _ hr' =>
    obtain ⟨o, -, ⟨-, rfl⟩ | ⟨-, rfl⟩⟩ := element_cases hr'
    · exact other "JSXElement" rfl (by decide)
    · exact other "JSXFragment" rfl (by decide)
  | selfClosing => exact other "JSXElement" rfl (by decide)
  | container => exact other "JSXExpressionContainer" rfl (by decide)
  | string => exact .inl rfl
  | other => exact absurd hr hn

/-- What carries a text has it from its own concrete node, and is no file. -/
theorem quotes_of_kind (h : recipe s role n = some r) (hr : r.kind ∈ textKinds)
    (hn : n.kind ∉ textKinds) : role ≠ .file ∧ r.Quotes s n := by
  have other {P : Prop} (kind : String) (hkind : r.kind = kind) (hnot : kind ∉ textKinds) : P :=
    absurd (hkind ▸ hr) hnot
  cases role with
  | expression => exact ⟨by decide, (rule_of_expression h).quotes hr hn⟩
  | name =>
    have hname : Recipe.name s n = r := Option.some.inj h
    refine ⟨by decide, .inr ?_⟩
    rw [← hname, Recipe.name]
    split_ifs
    · exact ⟨("JSXNamespacedName", "text"), by decide, rfl⟩
    · exact ⟨("JSXMemberExpression", "text"), by decide, rfl⟩
    · exact ⟨("JSXIdentifier", "name"), by decide, rfl⟩
  | namedAttribute =>
    obtain ⟨c, -, rfl⟩ := Option.map_eq_some_iff.mp h
    exact other "JSXAttribute" rfl (by decide)
  | file => exact other "File" (by cases h; rfl) (by decide)
  | openingTag _ => exact other "JSXOpeningElement" (by cases h; rfl) (by decide)
  | spreadAttribute => exact other "JSXSpreadAttribute" (by cases h; rfl) (by decide)
  | closingTag => exact other "JSXClosingElement" (by cases h; rfl) (by decide)
  | openingFragment => exact other "JSXOpeningFragment" (by cases h; rfl) (by decide)
  | closingFragment => exact other "JSXClosingFragment" (by cases h; rfl) (by decide)
  | emptyExpression => exact other "JSXEmptyExpression" (by cases h; rfl) (by decide)

end Recipe

/-- The node begins and ends with a character of the source. -/
def Concrete.OnBoundaries (source : String) (n : Concrete) : Prop :=
  n.head.start ∈ SourceText.boundaries source ∧ n.head.stop ∈ SourceText.boundaries source

instance (source : String) (n : Concrete) : Decidable (n.OnBoundaries source) :=
  inferInstanceAs (Decidable (_ ∧ _))

/-- The characters of the source in the range of a node. -/
def Tree.Covers (source : String) (t : Tree) (cs : List Char) : Prop :=
  ∃ start stop : Nat, start ≤ source.toList.length ∧ stop ≤ source.toList.length ∧
    t.field? "start" = some (.int start) ∧ t.field? "end" = some (.int stop) ∧
    source.toList.extract start stop = cs

section

variable {source : String} {role : Role} {n : Concrete} {t : Tree}

/-- The range of a node that is no file covers the text of its concrete node. -/
theorem Grown.covers (h : Grown (.ofString source) role n t) (hrole : role ≠ .file)
    (hn : n.OnBoundaries source) :
    t.Covers source (Convert.text (.ofString source) n).toList := by
  obtain ⟨start, stop, hstart, hstop, htstart, htstop⟩ := h.offsets hrole
  obtain ⟨i, hi, hbyte⟩ := SourceText.mem_boundaries.mp hn.1
  obtain ⟨j, hj, hbyte'⟩ := SourceText.mem_boundaries.mp hn.2
  rw [← hbyte, SourceText.charOffset_byteAt source hi] at hstart
  rw [← hbyte', SourceText.charOffset_byteAt source hj] at hstop
  obtain rfl : i = start := Except.ok.inj hstart
  obtain rfl : j = stop := Except.ok.inj hstop
  refine ⟨i, j, hi, hj, htstart, htstop, ?_⟩
  rw [Convert.text, String.toList_ofList, ← hbyte, ← hbyte', SourceText.slice_byteAt source hi hj]

/-- A node of a kind that carries the text of its range has it in the field for it. -/
theorem Grown.field?_of_textFields (h : Grown (.ofString source) role n t)
    (hn : n.kind ∉ textKinds) (hbound : n.OnBoundaries source) {f : String × String}
    (hf : f ∈ textFields) (ht : t.isA f.1 = true) :
    ∃ cs, t.Covers source cs ∧ t.field? f.2 = some (.text (String.ofList cs)) := by
  obtain ⟨r, _, _, _, hr, -, -, -⟩ := h.exists_recipe
  have hkind : r.kind = f.1 := (h.isA_iff hr).mp ht
  have hmem : r.kind ∈ textKinds := by
    rw [hkind]
    exact List.mem_cons_of_mem _ (List.mem_map_of_mem hf)
  obtain ⟨hrole, rfl | ⟨g, hg, rfl⟩⟩ := Recipe.quotes_of_kind hr hmem hn
  · exact absurd hkind ((show ∀ f ∈ textFields, "StringLiteral" ≠ f.1 by decide) f hf)
  · -- a kind has one field for its text
    obtain rfl : g = f :=
      (show ∀ f ∈ textFields, ∀ g ∈ textFields, g.1 = f.1 → g = f by decide) f hf g hg hkind
    have hkey : g.2 ∉ baseKeys := (show ∀ f ∈ textFields, f.2 ∉ baseKeys by decide) g hg
    obtain ⟨v, hv, hgrown⟩ := h.exists_field hr hkey (List.lookup_cons_self)
    refine ⟨_, h.covers hrole hbound, ?_⟩
    rw [hv, grownPart_text_iff.mp hgrown, String.ofList_toList]

/-- A string has the text of its range without the first and the last character. -/
theorem Grown.value_of_string (h : Grown (.ofString source) role n t) (hn : n.kind ∉ textKinds)
    (hbound : n.OnBoundaries source) (ht : t.isA "StringLiteral" = true) :
    ∃ cs, t.Covers source cs ∧
      t.field? "value" = some (.text (String.ofList (cs.drop 1).dropLast)) := by
  obtain ⟨r, _, _, _, hr, -, -, -⟩ := h.exists_recipe
  have hkind : r.kind = "StringLiteral" := (h.isA_iff hr).mp ht
  have hmem : r.kind ∈ textKinds := by
    rw [hkind]
    exact List.mem_cons_self
  obtain ⟨hrole, rfl | ⟨g, hg, rfl⟩⟩ := Recipe.quotes_of_kind hr hmem hn
  · obtain ⟨v, hv, hgrown⟩ := h.exists_field hr (show "value" ∉ baseKeys by decide) rfl
    refine ⟨_, h.covers hrole hbound, ?_⟩
    rw [hv, grownPart_text_iff.mp hgrown]
    rfl
  · exact absurd hkind ((show ∀ f ∈ textFields, f.1 ≠ "StringLiteral" by decide) g hg)

end

/-- Wherever the concrete nodes begin and end with characters, and none has the kind of a node that
carries a text, every text in the converted tree is the source in the range of its node; a string
has it without the quotes. -/
theorem extract_eq_of_within (source : String) (root : Concrete)
    (hbound : ∀ n ∈ root.nodes, n.OnBoundaries source)
    (hkinds : ∀ n ∈ root.nodes, n.kind ∉ textKinds)
    (file : Tree) (hfile : fileOfConcrete source root = .ok file) (x : Spot)
    (hx : Spot.Within (.root file) x) :
    (∀ f ∈ textFields, x.tree.isA f.1 = true → ∃ cs, x.tree.Covers source cs ∧
      x.tree.field? f.2 = some (.text (String.ofList cs))) ∧
    (x.tree.isA "StringLiteral" = true → ∃ cs, x.tree.Covers source cs ∧
      x.tree.field? "value" = some (.text (String.ofList (cs.drop 1).dropLast))) := by
  obtain ⟨-, hroot⟩ := fileOfConcrete_eq_ok_iff.mp hfile
  obtain ⟨role, n, hn, hgrown⟩ := hroot.within hx
  constructor
  · intro f hf
    exact hgrown.field?_of_textFields (hkinds n hn) (hbound n hn) hf
  · exact hgrown.value_of_string (hkinds n hn) (hbound n hn)

/-- A source with characters of one to four bytes, and a text of each kind in it. -/
def wordedSource : String := "Ä;<é:b c=\"ß€\" d=\x7b<B.e/>\x7d>😀\x7b1\x7d</é:b>"

def wordedTag : Concrete :=
  .node ⟨"jsx_opening_element", 3, 30, true, some "open_tag", false, false⟩
    [.node ⟨"jsx_namespace_name", 4, 8, true, some "name", false, false⟩ [],
      .node ⟨"jsx_attribute", 9, 18, true, some "attribute", false, false⟩
        [.node ⟨"property_identifier", 9, 10, true, none, false, false⟩ [],
          .node ⟨"string", 11, 18, true, none, false, false⟩ []],
      .node ⟨"jsx_attribute", 19, 29, true, some "attribute", false, false⟩
        [.node ⟨"property_identifier", 19, 20, true, none, false, false⟩ [],
          .node ⟨"jsx_expression", 21, 29, true, none, false, false⟩
            [.node ⟨"jsx_self_closing_element", 22, 28, true, none, false, false⟩
              [.node ⟨"member_expression", 23, 26, true, some "name", false, false⟩ []]]]]

def wordedProgram : Concrete :=
  .node ⟨"program", 0, 44, true, none, false, false⟩
    [.node ⟨"expression_statement", 0, 3, true, none, false, false⟩
        [.node ⟨"identifier", 0, 2, true, none, false, false⟩ []],
      .node ⟨"expression_statement", 3, 44, true, none, false, false⟩
        [.node ⟨"jsx_element", 3, 44, true, none, false, false⟩
          [wordedTag, .node ⟨"jsx_text", 30, 34, true, none, false, false⟩ [],
            .node ⟨"jsx_expression", 34, 37, true, none, false, false⟩
              [.node ⟨"number", 35, 36, true, none, false, false⟩ []],
            .node ⟨"jsx_closing_element", 37, 44, true, some "close_tag", false, false⟩
              [.node ⟨"jsx_namespace_name", 39, 43, true, some "name", false, false⟩ []]]]]

theorem extract_eq_in_wordedProgram :
    (∀ n ∈ wordedProgram.nodes, n.OnBoundaries wordedSource ∧ n.kind ∉ textKinds) ∧
    ∃ file, fileOfConcrete wordedSource wordedProgram = .ok file ∧
      (∀ kind ∈ textKinds, ∃ x, Spot.Within (.root file) x ∧ x.tree.isA kind = true) ∧
      ∀ x, Spot.Within (.root file) x →
        (∀ f ∈ textFields, x.tree.isA f.1 = true → ∃ cs, x.tree.Covers wordedSource cs ∧
          x.tree.field? f.2 = some (.text (String.ofList cs))) ∧
        (x.tree.isA "StringLiteral" = true → ∃ cs, x.tree.Covers wordedSource cs ∧
          x.tree.field? "value" = some (.text (String.ofList (cs.drop 1).dropLast))) := by
  have hbound : ∀ n ∈ wordedProgram.nodes, n.OnBoundaries wordedSource := by decide +kernel
  have hkinds : ∀ n ∈ wordedProgram.nodes, n.kind ∉ textKinds := by decide +kernel
  have hnodes : (fileOfConcrete wordedSource wordedProgram).toOption.map (fun file =>
      textKinds.all fun kind => file.nodes.any (·.isA kind)) = some true := by decide +kernel
  cases hfile : fileOfConcrete wordedSource wordedProgram with
  | error fault =>
    rw [hfile] at hnodes
    cases hnodes
  | ok file =>
    refine ⟨fun n hn => ⟨hbound n hn, hkinds n hn⟩, file, rfl, fun kind hkind => ?_, ?_⟩
    · rw [hfile] at hnodes
      have hall := List.all_eq_true.mp (Option.some.inj hnodes) kind hkind
      obtain ⟨t, ht, hisA⟩ := List.any_eq_true.mp hall
      rw [← walk_map_tree (fileOfConcrete_eq_ok_iff.mp hfile).2.isNode] at ht
      obtain ⟨v, hv, rfl⟩ := List.mem_map.mp ht
      exact ⟨v.spot, exists_mem_walk.mp ⟨v, hv, rfl⟩, hisA⟩
    · exact extract_eq_of_within wordedSource wordedProgram hbound hkinds file hfile

end TopTag
