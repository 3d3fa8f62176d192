import TopTag.Proofs.Insertions
import TopTag.Proofs.Rules
import TopTag.Proofs.Twins

/-!
# The anatomy of grown trees

What one recipe says, said of the tree that is grown by it: no field comes twice, an element has the
opening tag of a concrete tag, a fragment has a list of children, and a tag has the attributes, the
names and the end of its concrete tag. Every node of a grown tree is grown from a node of the
concrete tree.
-/

namespace TopTag

/-! ## Shapes of recipes -/

namespace Recipe

/-- The kind of a recipe and the names of its fields. -/
def shape (r : Recipe) : String × List String := (r.kind, r.fields.map Prod.fst)

/-- The shapes of expressions and statements that are no markup. -/
def ordinaryShapes : List (String × List String) :=
  [("Program", ["body"]), ("BlockStatement", ["body"]), ("ExpressionStatement", ["expression"]),
    ("ReturnStatement", ["argument"]), ("VariableDeclaration", ["kind", "declarations"]),
    ("VariableDeclarator", ["id", "init"]),
    ("ArrowFunctionExpression", ["params", "body", "expression"]),
    ("ExportDefaultDeclaration", ["declaration"]),
    ("ExportNamedDeclaration", ["declaration", "specifiers"]),
    ("LogicalExpression", ["operator", "left", "right"]),
    ("BinaryExpression", ["operator", "left", "right"]),
    ("ConditionalExpression", ["test", "consequent", "alternate"]),
    ("JSXExpressionContainer", ["expression"]), ("JSXText", ["value"]),
    ("StringLiteral", ["value"]), ("NullLiteral", []), ("BooleanLiteral", ["value"]),
    ("NumericLiteral", ["raw"]), ("FunctionDeclaration", ["id", "params", "body"]),
    ("FunctionExpression", ["id", "params", "body"]), ("Identifier", ["name"])]

variable {s : SourceText} {n : Concrete} {r : Recipe} {role : Role}

/-- An expression is ordinary, an element or a fragment, or a node without a rule of its own. -/
theorem expression_cases (h : Recipe.expression s n = some r) :
    r.shape ∈ ordinaryShapes ∨ n.kind = "jsx_element" ∧ element n = some r ∨
      n.kind = "jsx_self_closing_element" ∧ r = selfClosingElement n ∨
      r = sequence n n.kind "children" := by
  have hsequence : ∀ f ∈ sequenceRules, (f.2.1, [f.2.2]) ∈ ordinaryShapes := by decide
  have hwrapper : ∀ f ∈ wrapperRules, (f.2.1, [f.2.2]) ∈ ordinaryShapes := by decide
  have hleaf : ∀ f ∈ leafRules, (f.2.1, [f.2.2]) ∈ ordinaryShapes := by decide
  have hfunction : ∀ f ∈ functionRules, (f.2, ["id", "params", "body"]) ∈ ordinaryShapes := by
    decide
  have hconstant : ∀ f ∈ constantRules, f.2.shape ∈ ordinaryShapes := by decide
  cases rule_of_expression h with
  | sequence hn => exact .inl (hsequence _ hn)
  | wrapper hn => exact .inl (hwrapper _ hn)
  | leaf hn => exact .inl (hleaf _ hn)
  | function hn => exact .inl (hfunction _ hn)
  | constant hn => exact .inl (hconstant _ hn)
  | declaration _ hr =>
    obtain ⟨keyword, -, rfl⟩ := Option.map_eq_some_iff.mp hr
    exact .inl (show ("VariableDeclaration", ["kind", "declarations"]) ∈ ordinaryShapes by decide)
  | declarator =>
    exact .inl (show ("VariableDeclarator", ["id", "init"]) ∈ ordinaryShapes by decide)
  | arrow =>
    exact .inl (show ("ArrowFunctionExpression", ["params", "body", "expression"]) ∈ ordinaryShapes
      by decide)
  | exported =>
    rw [exportStatement]
    split
    · exact .inl (show ("ExportDefaultDeclaration", ["declaration"]) ∈ ordinaryShapes by decide)
    · exact .inl (show ("ExportNamedDeclaration", ["declaration", "specifiers"]) ∈ ordinaryShapes
        by decide)
  | binary _ hr =>
    obtain ⟨o, -, rfl⟩ := Option.map_eq_some_iff.mp hr
    split
    · exact .inl (show ("LogicalExpression", ["operator", "left", "right"]) ∈ ordinaryShapes
        by decide)
    · exact .inl (show ("BinaryExpression", ["operator", "left", "right"]) ∈ ordinaryShapes
        by decide)
  | conditional =>
    exact .inl (show ("ConditionalExpression", ["test", "consequent", "alternate"]) ∈ ordinaryShapes
      by decide)
  | element hn hr => exact .inr (.inl ⟨hn, hr⟩)
  | selfClosing hn => exact .inr (.inr (.inl ⟨hn, rfl⟩))
  | container =>
    exact .inl (show ("JSXExpressionContainer", ["expression"]) ∈ ordinaryShapes by decide)
  | string => exact .inl (show ("StringLiteral", ["value"]) ∈ ordinaryShapes by decide)
  | other => exact .inr (.inr (.inr rfl))

/-- An element with two tags is an element or a fragment by the name in its opening tag. -/
theorem element_cases (h : element n = some r) : ∃ o, n.child? "open_tag" = some o ∧
    ((o.child? "name").isSome = true ∧ r = ⟨"JSXElement",
        [("openingElement", .one (.openingTag false) o),
          ("closingElement", .ofOption .closingTag (n.child? "close_tag")),
          ("children", .expressions (content n))]⟩ ∨
      (o.child? "name").isSome = false ∧ r = ⟨"JSXFragment",
        [("openingFragment", .one .openingFragment o),
          ("closingFragment", .ofOption .closingFragment (n.child? "close_tag")),
          ("children", .expressions (content n))]⟩) := by
  obtain ⟨o, ho, rfl⟩ := Option.map_eq_some_iff.mp h
  refine ⟨o, ho, ?_⟩
  cases (o.child? "name").isSome with
  | true => exact .inl ⟨rfl, rfl⟩
  | false => exact .inr ⟨rfl, rfl⟩

/-- The shapes of what is no expression. -/
def markupShapes : List (String × List String) :=
  [("File", ["program"]), ("JSXOpeningElement", ["name", "attributes", "selfClosing"]),
    ("JSXAttribute", ["name", "value"]), ("JSXSpreadAttribute", ["argument"]),
    ("JSXNamespacedName", ["text"]), ("JSXMemberExpression", ["text"]), ("JSXIdentifier", ["name"]),
    ("JSXClosingElement", ["name"]), ("JSXOpeningFragment", []), ("JSXClosingFragment", []),
    ("JSXEmptyExpression", [])]

theorem shape_of_role (h : recipe s role n = some r) (hrole : role ≠ .expression) :
    r.shape ∈ markupShapes := by
  have markup (a : String × List String) {r' : Recipe} (hr : some r' = some r)
      (hshape : r'.shape = a) (ha : a ∈ markupShapes) : r.shape ∈ markupShapes := by
    rw [← Option.some.inj hr, hshape]
    exact ha
  cases role with
  | file => exact markup ("File", ["program"]) h rfl (by decide)
  | expression => exact absurd rfl hrole
  | openingTag _ =>
    exact markup ("JSXOpeningElement", ["name", "attributes", "selfClosing"]) h rfl (by decide)
  | namedAttribute =>
    obtain ⟨c, -, rfl⟩ := Option.map_eq_some_iff.mp h
    exact markup ("JSXAttribute", ["name", "value"]) rfl rfl (by decide)
  | spreadAttribute => exact markup ("JSXSpreadAttribute", ["argument"]) h rfl (by decide)
  | name =>
    have h : some (Recipe.name s n) = some r := h
    unfold Recipe.name at h
    split at h
    · exact markup ("JSXNamespacedName", ["text"]) h rfl (by decide)
    · split at h
      · exact markup ("JSXMemberExpression", ["text"]) h rfl (by decide)
      · exact markup ("JSXIdentifier", ["name"]) h rfl (by decide)
  | closingTag => exact markup ("JSXClosingElement", ["name"]) h rfl (by decide)
  | openingFragment => exact markup ("JSXOpeningFragment", []) h rfl (by decide)
  | closingFragment => exact markup ("JSXClosingFragment", []) h rfl (by decide)
  | emptyExpression => exact markup ("JSXEmptyExpression", []) h rfl (by decide)

/-- Apart from expressions only opening tags are of that kind. -/
theorem openingTag_of_kind (h : recipe s role n = some r) (hkind : r.kind = "JSXOpeningElement")
    (hrole : role ≠ .expression) : ∃ selfClosing, role = .openingTag selfClosing := by
  cases role with
  | openingTag selfClosing => exact ⟨selfClosing, rfl⟩
  | expression => exact absurd rfl hrole
  | namedAttribute =>
    obtain ⟨c, -, rfl⟩ := Option.map_eq_some_iff.mp h
    simp at hkind
  | name =>
    cases h
    rw [Recipe.name] at hkind
    split at hkind
    · simp [leaf] at hkind
    · split at hkind <;> simp [leaf] at hkind
  | _ =>
    cases h
    simp [closingTag, spreadAttribute] at hkind

/-- The names of the fields, for each shape that a node may have. -/
def fieldLists : List (List String) :=
  (ordinaryShapes ++ markupShapes).map Prod.snd ++
    [["openingElement", "closingElement", "children"],
      ["openingFragment", "closingFragment", "children"], ["children"]]

theorem keys_mem_fieldLists (h : recipe s role n = some r) :
    r.fields.map Prod.fst ∈ fieldLists := by
  have hshape (hr : r.shape ∈ ordinaryShapes ++ markupShapes) :
      r.fields.map Prod.fst ∈ fieldLists :=
    List.mem_append_left _ (List.mem_map_of_mem (f := Prod.snd) hr)
  have keys (keys : List String) (hkeys : r.fields.map Prod.fst = keys)
      (hmem : keys ∈ fieldLists) : r.fields.map Prod.fst ∈ fieldLists := hkeys ▸ hmem
  by_cases hrole : role = .expression
  · subst hrole
    rcases expression_cases h with hr | ⟨-, hr⟩ | ⟨-, rfl⟩ | rfl
    · exact hshape (List.mem_append_left _ hr)
    · obtain ⟨o, -, ⟨-, rfl⟩ | ⟨-, rfl⟩⟩ := element_cases hr
      · exact keys ["openingElement", "closingElement", "children"] rfl (by decide)
      · exact keys ["openingFragment", "closingFragment", "children"] rfl (by decide)
    · exact keys ["openingElement", "closingElement", "children"] rfl (by decide)
    · exact keys ["children"] rfl (by decide)
  · exact hshape (List.mem_append_right _ (shape_of_role h hrole))

/-- No field comes twice, and none is one that every node has. -/
theorem nodup_fields (h : recipe s role n = some r) :
    (baseKeys ++ r.fields.map Prod.fst).Nodup :=
  (show ∀ keys ∈ fieldLists, (baseKeys ++ keys).Nodup by decide) _ (keys_mem_fieldLists h)

end Recipe

/-! ## Nodes -/

theorem GrownFields.keys {s : SourceText} {parts : List (String × Part)}
    {fields : List (String × Tree)} (h : GrownFields s parts fields) :
    fields.map Prod.fst = parts.map Prod.fst := by
  induction parts generalizing fields with
  | nil =>
    cases h
    rfl
  | cons p rest ih =>
    cases h with
    | cons _ hrest => rw [List.map_cons, List.map_cons, ih hrest]

mutual

/-- In a grown tree no object has a field twice. -/
theorem Grown.hasDistinctKeys {s : SourceText} {role : Role} {n : Concrete} {t : Tree} :
    Grown s role n t → t.hasDistinctKeys = true
  | .node hrecipe _ hfields => by
    have hnodup := Recipe.nodup_fields hrecipe
    rw [← hfields.keys] at hnodup
    refine Tree.hasDistinctKeys_object.mpr ⟨hnodup, ?_⟩
    simp only [List.forall_mem_cons]
    exact ⟨rfl, rfl, rfl, hfields.hasDistinctKeys⟩

theorem GrownFields.hasDistinctKeys {s : SourceText} {parts : List (String × Part)}
    {fields : List (String × Tree)} :
    GrownFields s parts fields → ∀ f ∈ fields, f.2.hasDistinctKeys = true
  | .nil => by simp
  | .cons hvalue hfields =>
    List.forall_mem_cons.mpr ⟨hvalue.hasDistinctKeys, hfields.hasDistinctKeys⟩

theorem GrownPart.hasDistinctKeys {s : SourceText} {part : Part} {v : Tree} :
    GrownPart s part v → v.hasDistinctKeys = true
  | .null => rfl
  | .text _ => rfl
  | .bool _ => rfl
  | .one h => h.hasDistinctKeys
  | .many h => Tree.hasDistinctKeys_list.mpr h.hasDistinctKeys

theorem GrownItems.hasDistinctKeys {s : SourceText} {nodes : List (Role × Concrete)}
    {items : List Tree} : GrownItems s nodes items → ∀ t ∈ items, t.hasDistinctKeys = true
  | .nil => by simp
  | .cons h hitems => List.forall_mem_cons.mpr ⟨h.hasDistinctKeys, hitems.hasDistinctKeys⟩

end

section

variable {s : SourceText} {role : Role} {n : Concrete} {t : Tree} {r : Recipe} {key : String}

theorem GrownFields.lookup {parts : List (String × Part)} {fields : List (String × Tree)}
    (h : GrownFields s parts fields) (key : String) :
    Option.Rel (GrownPart s) (parts.lookup key) (fields.lookup key) := by
  induction parts generalizing fields with
  | nil =>
    cases h
    exact .none
  | cons p rest ih =>
    cases h with
    | cons hvalue hrest =>
      rw [List.lookup_cons, List.lookup_cons]
      split
      · exact .some hvalue
      · exact ih hrest

/-- The value of a field is grown from the part that the recipe has for it. -/
theorem Grown.field? (h : Grown s role n t) (hr : recipe s role n = some r)
    (hkey : key ∉ baseKeys) : Option.Rel (GrownPart s) (r.fields.lookup key) (t.field? key) := by
  obtain ⟨_, start, stop, fields, hrecipe, -, hfields, rfl⟩ := h.exists_recipe
  cases hrecipe.symm.trans hr
  rw [field?_of_not_mem_baseKeys hkey]
  exact hfields.lookup key

theorem Grown.exists_field {part : Part} (h : Grown s role n t) (hr : recipe s role n = some r)
    (hkey : key ∉ baseKeys) (hpart : r.fields.lookup key = some part) :
    ∃ v, t.field? key = some v ∧ GrownPart s part v := by
  have hrel := h.field? hr hkey
  rw [hpart] at hrel
  generalize t.field? key = o at hrel
  cases hrel with
  | some hv => exact ⟨_, rfl, hv⟩

theorem Grown.field?_eq_none (h : Grown s role n t) (hr : recipe s role n = some r)
    (hkey : key ∉ baseKeys) (hpart : r.fields.lookup key = none) : t.field? key = none := by
  have hrel := h.field? hr hkey
  rw [hpart] at hrel
  generalize t.field? key = o at hrel
  cases hrel
  rfl

theorem GrownFields.exists_part {parts : List (String × Part)} {fields : List (String × Tree)}
    (h : GrownFields s parts fields) {v : Tree} (hv : (key, v) ∈ fields) :
    ∃ part, (key, part) ∈ parts ∧ GrownPart s part v := by
  induction parts generalizing fields with
  | nil =>
    cases h
    cases hv
  | cons p rest ih =>
    cases h with
    | cons hvalue hrest =>
      rcases List.mem_cons.mp hv with heq | hv
      · cases heq
        exact ⟨_, List.mem_cons_self, hvalue⟩
      · obtain ⟨part, hpart, hgrown⟩ := ih hrest hv
        exact ⟨part, List.mem_cons_of_mem _ hpart, hgrown⟩

/-- A child is grown from a node of the recipe. -/
theorem Grown.exists_part {x c : Spot} (h : Grown s role n x.tree) (hr : recipe s role n = some r)
    (hc : x.Child c) : ∃ f ∈ r.fields,
      (∃ role' m, f.2 = .one role' m ∧ Grown s role' m c.tree) ∨
        ∃ nodes, f.2 = .many nodes ∧ ∃ p ∈ nodes, Grown s p.1 p.2 c.tree := by
  obtain ⟨_, start, stop, fields, hrecipe, -, hfields, htree⟩ := h.exists_recipe
  cases hrecipe.symm.trans hr
  obtain ⟨key, hc⟩ := hc
  obtain ⟨v, hv, -, hnode⟩ := exists_field_of_mem_children htree hc
  obtain ⟨part, hpart, hgrown⟩ := hfields.exists_part hv
  obtain ⟨hisNode, hvalue⟩ := mem_fieldNodes.mp hnode
  refine ⟨_, hpart, ?_⟩
  rcases hvalue with rfl | ⟨items, i, rfl, hi, -⟩
  · cases hgrown with
    | null => cases hisNode
    | text => cases hisNode
    | bool => cases hisNode
    | one ht => exact .inl ⟨_, _, rfl, ht⟩
    | many => cases hisNode
  · cases hgrown with
    | one ht => cases ht
    | many hitems =>
      obtain ⟨p, hp, ht⟩ := hitems.exists_node hi
      exact .inr ⟨_, rfl, p, List.mem_of_getElem? hp, ht⟩

theorem Grown.isA_iff (h : Grown s role n t) (hr : recipe s role n = some r) {kind : String} :
    t.isA kind = true ↔ r.kind = kind := by
  obtain ⟨_, start, stop, fields, hrecipe, -, -, rfl⟩ := h.exists_recipe
  cases hrecipe.symm.trans hr
  rw [Tree.isA_iff]
  simp [Tree.field?]

/-- A node that is no file has the offsets of its concrete node. -/
theorem Grown.offsets (h : Grown s role n t) (hrole : role ≠ .file) : ∃ start stop : Nat,
    s.charOffset n.head.start = .ok start ∧ s.charOffset n.head.stop = .ok stop ∧
      t.field? "start" = some (.int start) ∧ t.field? "end" = some (.int stop) := by
  obtain ⟨r, start, stop, fields, -, hextends, -, rfl⟩ := h.exists_recipe
  have hoffsets : s.charOffset n.head.start = .ok start ∧ s.charOffset n.head.stop = .ok stop := by
    cases role with
    | file => exact absurd rfl hrole
    | _ => exact hextends
  exact ⟨start, stop, hoffsets.1, hoffsets.2, rfl, rfl⟩

theorem Grown.mentions (h : Grown s role n t) :
    t.mentions "start" = .ok true ∧ t.mentions "end" = .ok true := by
  cases h
  exact ⟨rfl, rfl⟩

end

/-! ## Markup -/

namespace Concrete

/-- The tag opens the element: it is the element's opening tag and has a name, or the element is
that single tag. -/
def OpenedBy (n tag : Concrete) (selfClosing : Bool) : Prop :=
  n.kind = "jsx_element" ∧ n.child? "open_tag" = some tag ∧ (tag.child? "name").isSome = true ∧
      selfClosing = false ∨
    n.kind = "jsx_self_closing_element" ∧ tag = n ∧ selfClosing = true

/-- A name that is one word: it has no namespace and is no path. -/
def isPlainName (c : Concrete) : Bool :=
  !(["jsx_namespace_name", "member_expression", "nested_identifier"].contains c.kind)

/-- The attribute has the given name, and the name is plain. -/
def isNamed (s : SourceText) (name : String) (a : Concrete) : Bool :=
  a.kind == "jsx_attribute" &&
    a.parts.head?.any fun c => c.isPlainName && Convert.text s c == name

/-- One of the attributes of a tag has the given plain name. -/
def carries (s : SourceText) (name : String) (tag : Concrete) : Bool :=
  tag.attributeParts.any (isNamed s name)

end Concrete

section

variable {s : SourceText} {role : Role} {n : Concrete} {t : Tree} {selfClosing : Bool}

/-- An element is grown from an element with its tag, or from a node that only has the kind of
one. -/
theorem Grown.element (h : Grown s role n t) (ht : t.isElement = true) :
    (∃ tag selfClosing u, n.OpenedBy tag selfClosing ∧ t.field? "openingElement" = some u ∧
      Grown s (.openingTag selfClosing) tag u) ∨
    n.kind = "JSXElement" ∧ t.field? "openingElement" = none := by
  obtain ⟨r, _, _, _, hr, -, -, -⟩ := h.exists_recipe
  have hkind : r.kind = "JSXElement" := (h.isA_iff hr).mp ht
  have hother : ∀ a ∈ Recipe.ordinaryShapes ++ Recipe.markupShapes, a.1 ≠ "JSXElement" := by decide
  by_cases hrole : role = .expression
  · subst hrole
    rcases Recipe.expression_cases hr with hshape | ⟨hn, helement⟩ | ⟨hn, rfl⟩ | rfl
    · exact absurd hkind (hother _ (List.mem_append_left _ hshape))
    · obtain ⟨o, ho, ⟨hname, rfl⟩ | ⟨-, rfl⟩⟩ := Recipe.element_cases helement
      · obtain ⟨u, hu, hgrown⟩ := h.exists_field hr (show "openingElement" ∉ baseKeys by decide) rfl
        exact .inl ⟨o, false, u, .inl ⟨hn, ho, hname, rfl⟩, hu, grownPart_one_iff.mp hgrown⟩
      · exact absurd hkind (show "JSXFragment" ≠ "JSXElement" by decide)
    · obtain ⟨u, hu, hgrown⟩ := h.exists_field hr (show "openingElement" ∉ baseKeys by decide) rfl
      exact .inl ⟨n, true, u, .inr ⟨hn, rfl, rfl⟩, hu, grownPart_one_iff.mp hgrown⟩
    · exact .inr ⟨hkind, h.field?_eq_none hr (by decide) rfl⟩
  · exact absurd hkind (hother _ (List.mem_append_right _ (Recipe.shape_of_role hr hrole)))

/-- A fragment has a list of children. -/
theorem Grown.fragment (h : Grown s role n t) (ht : t.isFragment = true) :
    ∃ items, t.field? "children" = some (.list items) := by
  obtain ⟨r, _, _, _, hr, -, -, -⟩ := h.exists_recipe
  have hkind : r.kind = "JSXFragment" := (h.isA_iff hr).mp ht
  have hother : ∀ a ∈ Recipe.ordinaryShapes ++ Recipe.markupShapes, a.1 ≠ "JSXFragment" := by decide
  have hlist {nodes : List (Role × Concrete)} (hpart : r.fields.lookup "children" =
      some (.many nodes)) : ∃ items, t.field? "children" = some (.list items) := by
    obtain ⟨v, hv, hgrown⟩ := h.exists_field hr (by decide) hpart
    obtain ⟨items, -, rfl⟩ := grownPart_many_iff.mp hgrown
    exact ⟨items, hv⟩
  by_cases hrole : role = .expression
  · subst hrole
    rcases Recipe.expression_cases hr with hshape | ⟨-, helement⟩ | ⟨-, rfl⟩ | rfl
    · exact absurd hkind (hother _ (List.mem_append_left _ hshape))
    · obtain ⟨o, -, ⟨-, rfl⟩ | ⟨-, rfl⟩⟩ := Recipe.element_cases helement
      · exact absurd hkind (show "JSXElement" ≠ "JSXFragment" by decide)
      · exact hlist rfl
    · exact absurd hkind (show "JSXElement" ≠ "JSXFragment" by decide)
    · exact hlist rfl
  · exact absurd hkind (hother _ (List.mem_append_right _ (Recipe.shape_of_role hr hrole)))

/-- What has the kind of an opening tag is one, or a node with neither attributes nor a name. -/
theorem Grown.tag_cases (h : Grown s role n t) (ht : t.isA "JSXOpeningElement" = true) :
    (∃ selfClosing, role = .openingTag selfClosing) ∨
      t.field? "attributes" = none ∧ t.field? "name" = none := by
  obtain ⟨r, _, _, _, hr, -, -, -⟩ := h.exists_recipe
  have hkind : r.kind = "JSXOpeningElement" := (h.isA_iff hr).mp ht
  by_cases hrole : role = .expression
  · subst hrole
    have hother : ∀ a ∈ Recipe.ordinaryShapes, a.1 ≠ "JSXOpeningElement" := by decide
    rcases Recipe.expression_cases hr with hshape | ⟨-, helement⟩ | ⟨-, rfl⟩ | rfl
    · exact absurd hkind (hother _ hshape)
    · obtain ⟨o, -, ⟨-, rfl⟩ | ⟨-, rfl⟩⟩ := Recipe.element_cases helement
      · exact absurd hkind (show "JSXElement" ≠ "JSXOpeningElement" by decide)
      · exact absurd hkind (show "JSXFragment" ≠ "JSXOpeningElement" by decide)
    · exact absurd hkind (show "JSXElement" ≠ "JSXOpeningElement" by decide)
    · exact .inr ⟨h.field?_eq_none hr (by decide) rfl, h.field?_eq_none hr (by decide) rfl⟩
  · exact .inl (Recipe.openingTag_of_kind hr hkind hrole)

/-! ## Tags -/

/-- A tag can take attributes, and those that it has were read from the source. -/
def Tree.IsRead (u : Tree) : Prop :=
  u.isAppendable = true ∧ ∀ a ∈ u.attributeItems, a.isNode = true ∧
    a.mentions "start" = .ok true ∧ a.mentions "end" = .ok true

variable {u : Tree}

theorem Grown.isA_openingElement (h : Grown s (.openingTag selfClosing) n u) :
    u.isA "JSXOpeningElement" = true := (h.isA_iff rfl).mpr rfl

theorem Grown.isOpeningTag (h : Grown s (.openingTag selfClosing) n u) :
    u.isOpeningTag = true := by
  obtain ⟨v, hv, -⟩ := h.exists_field rfl (show "attributes" ∉ baseKeys by decide) rfl
  rw [Tree.isOpeningTag, h.isA_openingElement, hv]
  rfl

/-- Only opening tags have attributes. -/
theorem Grown.role_of_isOpeningTag (h : Grown s role n t) (ht : t.isOpeningTag = true) :
    ∃ selfClosing, role = .openingTag selfClosing := by
  obtain ⟨hkind, hattr⟩ := Bool.and_eq_true_iff.mp ht
  rcases h.tag_cases hkind with htag | ⟨hnone, -⟩
  · exact htag
  · rw [hnone] at hattr
    cases hattr

/-- A tag has an attribute for each of its concrete tag. -/
theorem Grown.attributes (h : Grown s (.openingTag selfClosing) n u) :
    u.isAppendable = true ∧
      GrownItems s (n.attributeParts.map Recipe.attributeRole) u.attributeItems := by
  obtain ⟨v, hv, hgrown⟩ := h.exists_field rfl (show "attributes" ∉ baseKeys by decide) rfl
  obtain ⟨items, hitems, rfl⟩ := grownPart_many_iff.mp hgrown
  refine ⟨Tree.isAppendable_iff.mpr (.inr ⟨items, hv⟩), ?_⟩
  rwa [Tree.attributeItems, hv]

theorem GrownItems.isRead {nodes : List (Role × Concrete)} {items : List Tree}
    (h : GrownItems s nodes items) : ∀ a ∈ items, a.isNode = true ∧
      a.mentions "start" = .ok true ∧ a.mentions "end" = .ok true := by
  intro a ha
  obtain ⟨i, hi⟩ := List.getElem?_of_mem ha
  obtain ⟨p, -, hgrown⟩ := h.exists_node hi
  exact ⟨hgrown.isNode, hgrown.mentions⟩

/-- Everything that has the kind of an opening tag can take attributes, and those that it has were
read from the source. -/
theorem Grown.isRead (h : Grown s role n t) (ht : t.isA "JSXOpeningElement" = true) : t.IsRead := by
  rcases h.tag_cases ht with ⟨selfClosing, rfl⟩ | ⟨hnone, -⟩
  · exact ⟨h.attributes.1, h.attributes.2.isRead⟩
  · refine ⟨Tree.isAppendable_iff.mpr (.inl hnone), ?_⟩
    rw [Tree.attributeItems, hnone]
    simp

/-- A plain name becomes an identifier with its text, and no other name becomes an identifier. -/
theorem Grown.identifier {c : Concrete} (h : Grown s .name c t) :
    t.isA "JSXIdentifier" = c.isPlainName ∧
      (c.isPlainName = true → t.get "name" = .text (Convert.text s c)) := by
  have hplain : c.isPlainName = true ↔ ¬c.kind = "jsx_namespace_name" ∧
      ¬(c.kind = "member_expression" ∨ c.kind = "nested_identifier") := by
    simp [Concrete.isPlainName]
  have hrecipe : recipe s .name c = some (if c.isPlainName then .leaf s c "JSXIdentifier" "name"
      else if c.kind = "jsx_namespace_name" then .leaf s c "JSXNamespacedName" "text"
      else .leaf s c "JSXMemberExpression" "text") := by
    simp only [recipe, Recipe.name, hplain]
    split_ifs <;> first | rfl | tauto
  cases hc : c.isPlainName with
  | true =>
    rw [hc, if_pos rfl] at hrecipe
    obtain ⟨v, hv, hgrown⟩ := h.exists_field hrecipe (show "name" ∉ baseKeys by decide) rfl
    refine ⟨(h.isA_iff hrecipe).mpr rfl, fun _ => ?_⟩
    rw [Tree.get, hv, Option.getD_some, grownPart_text_iff.mp hgrown]
  | false =>
    rw [hc, if_neg Bool.false_ne_true] at hrecipe
    refine ⟨Bool.eq_false_iff.mpr fun hid => ?_, fun hfalse => absurd hfalse Bool.false_ne_true⟩
    have hkind := (h.isA_iff hrecipe).mp hid
    split at hkind <;> simp [Recipe.leaf] at hkind

/-- The name of an attribute node is the text of the concrete one, if that is plain. -/
theorem Grown.isName_attributeName {a : Concrete} (h : Grown s (Recipe.attributeRole a).1 a t)
    (name : String) : t.attributeName.isName (some name) = a.isNamed s name := by
  rw [Recipe.attributeRole] at h
  by_cases hkind : a.kind = "jsx_attribute"
  · simp only [if_pos hkind] at h
    obtain ⟨r, _, _, _, hr, -, -, -⟩ := h.exists_recipe
    obtain ⟨c, hc, rfl⟩ := Option.map_eq_some_iff.mp hr
    obtain ⟨v, hv, hgrown⟩ := h.exists_field hr (show "name" ∉ baseKeys by decide) rfl
    obtain ⟨hid, htext⟩ := (grownPart_one_iff.mp hgrown).identifier
    rw [Tree.attributeName, (h.isA_iff hr).mpr rfl, Tree.get, hv, Option.getD_some, hid,
      Concrete.isNamed, hkind, hc]
    cases hplain : c.isPlainName with
    | true => simp [htext hplain, Tree.isName, hplain]
    | false => simp [Tree.isName, hplain]
  · simp only [if_neg hkind] at h
    have hother : t.isA "JSXAttribute" = false :=
      Tree.not_isA ((h.isA_iff rfl).mpr rfl) (show "JSXSpreadAttribute" ≠ "JSXAttribute" by decide)
    rw [Tree.attributeName, hother, Concrete.isNamed, beq_eq_false_iff_ne.mpr hkind]
    rfl

/-- A tag carries the plain names that its concrete tag carries. -/
theorem Grown.carries_eq (h : Grown s (.openingTag selfClosing) n u) (name : String) :
    u.carries name = n.carries s name := by
  have hitems := h.attributes.2
  rw [Tree.carries, Concrete.carries]
  generalize u.attributeItems = items at hitems ⊢
  generalize n.attributeParts = parts at hitems ⊢
  induction parts generalizing items with
  | nil =>
    cases hitems
    rfl
  | cons a rest ih =>
    cases hitems with
    | cons ha hrest =>
      rw [List.any_cons, List.any_cons, ha.isName_attributeName, ih _ hrest]

end

/-! ## Whole trees -/

/-- Every node of a concrete tree is its own counterpart. -/
theorem Bridge.self (root : Concrete) :
    Bridge (fun _ n n' => n' = n ∧ n ∈ root.nodes) fun _ => False := by
  have hchildren {n : Concrete} (hn : n ∈ root.nodes) :
      List.Forall₂ (fun c c' => c' = c ∧ c ∈ root.nodes) n.children n.children :=
    List.forall₂_same.mpr fun c hc =>
      ⟨rfl, Concrete.nodes_subset_of_mem_nodes root hn
        (Concrete.nodes_subset_of_mem_children hc c.mem_nodes_self)⟩
  refine .of_children ?_ ?_
  · rintro u n _ ⟨rfl, -⟩
    exact ⟨rfl, rfl, rfl⟩
  · rintro u n _ ⟨rfl, hn⟩
    exact hchildren hn

/-- The root of a file is used plainly. -/
theorem Counterpart.file {R : Concrete.Use → Concrete → Concrete → Prop} {n n' : Concrete}
    (h : R .plain n n') : Counterpart R .file n n' :=
  ⟨.plain, h, by decide, fun _ => by decide⟩

section

open Spot

variable {s : SourceText} {root : Concrete} {t : Tree} {x : Spot}

/-- Every node of the tree is grown from a node of the concrete tree. -/
theorem Grown.within (h : Grown s .file root t) (hx : Within (.root t) x) :
    ∃ role n, n ∈ root.nodes ∧ Grown s role n x.tree := by
  have htwin : Twin (fun _ n n' => n' = n ∧ n ∈ root.nodes) (fun _ => False) s s
      (.root t) (.root t) :=
    ⟨⟨.file, root, root, .file ⟨rfl, root.mem_nodes_self⟩, h, h⟩, fun _ => rfl⟩
  rcases htwin.within (Bridge.self root) hx with ⟨_, ⟨_, hfalse, -⟩, -⟩ | ⟨y, -, hxy⟩
  · exact hfalse.elim
  · obtain ⟨role, n, n', ⟨_, ⟨rfl, hn⟩, -⟩, -, hgrown⟩ := hxy.grown
    exact ⟨role, n', hn, hgrown⟩

end

end TopTag
