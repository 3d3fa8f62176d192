import TopTag.Proofs.Growth

/-!
# The rules for expressions

What an expression is made of depends on its kind only, and some kinds share a rule. `Recipe.Rule`
has one case for each rule, with the kinds that it is for. Whoever has to go through all of them
goes through these cases.
-/

namespace TopTag

namespace Recipe

/-- The node of a string literal has the text between the quotes. -/
def string (s : SourceText) (n : Concrete) : Recipe :=
  ⟨"StringLiteral", [("value", .text (Convert.inner (Convert.text s n)))]⟩

/-- The kinds that hold a list of statements, with the kind and the field of the new node. -/
def sequenceRules : List (String × String × String) :=
  [("program", "Program", "body"), ("statement_block", "BlockStatement", "body")]

/-- The kinds around at most one expression. -/
def wrapperRules : List (String × String × String) :=
  [("expression_statement", "ExpressionStatement", "expression"),
    ("return_statement", "ReturnStatement", "argument")]

/-- The kinds that leave their text. -/
def leafRules : List (String × String × String) :=
  [("jsx_text", "JSXText", "value"), ("number", "NumericLiteral", "raw"),
    ("identifier", "Identifier", "name"), ("property_identifier", "Identifier", "name"),
    ("shorthand_property_identifier", "Identifier", "name")]

/-- The kinds of function with a name of their own. -/
def functionRules : List (String × String) :=
  [("function_declaration", "FunctionDeclaration"),
    ("generator_function_declaration", "FunctionDeclaration"),
    ("function_expression", "FunctionExpression"), ("function", "FunctionExpression"),
    ("generator_function", "FunctionExpression")]

/-- The kinds of a constant. -/
def constantRules : List (String × Recipe) :=
  [("null", ⟨"NullLiteral", []⟩), ("true", ⟨"BooleanLiteral", [("value", .bool true)]⟩),
    ("false", ⟨"BooleanLiteral", [("value", .bool false)]⟩)]

def declarationKinds : List String := ["lexical_declaration", "variable_declaration"]

/-- The kinds that have a rule. -/
def ruledKinds : List String :=
  sequenceRules.map Prod.fst ++ wrapperRules.map Prod.fst ++ leafRules.map Prod.fst ++
    functionRules.map Prod.fst ++ constantRules.map Prod.fst ++ declarationKinds ++
    ["variable_declarator", "arrow_function", "export_statement", "binary_expression",
      "ternary_expression", "jsx_element", "jsx_self_closing_element", "jsx_expression", "string"]

/-- The recipe is that of the rule for the node's kind. -/
inductive Rule (s : SourceText) (n : Concrete) : Recipe → Prop
  | sequence {kind field : String} (h : (n.kind, kind, field) ∈ sequenceRules) :
      Rule s n (.sequence n kind field)
  | wrapper {kind field : String} (h : (n.kind, kind, field) ∈ wrapperRules) :
      Rule s n (.wrapper n kind field)
  | leaf {kind field : String} (h : (n.kind, kind, field) ∈ leafRules) :
      Rule s n (.leaf s n kind field)
  | function {kind : String} (h : (n.kind, kind) ∈ functionRules) : Rule s n (.function n kind)
  | constant {r : Recipe} (h : (n.kind, r) ∈ constantRules) : Rule s n r
  | declaration {r : Recipe} (h : n.kind ∈ declarationKinds)
      (hr : variableDeclaration s n = some r) : Rule s n r
  | declarator (h : n.kind = "variable_declarator") : Rule s n (.variableDeclarator n)
  | arrow (h : n.kind = "arrow_function") : Rule s n (.arrowFunction n)
  | exported (h : n.kind = "export_statement") : Rule s n (.exportStatement n)
  | binary {r : Recipe} (h : n.kind = "binary_expression") (hr : binaryExpression n = some r) :
      Rule s n r
  | conditional (h : n.kind = "ternary_expression") : Rule s n (.conditional n)
  | element {r : Recipe} (h : n.kind = "jsx_element") (hr : Recipe.element n = some r) : Rule s n r
  | selfClosing (h : n.kind = "jsx_self_closing_element") : Rule s n (.selfClosingElement n)
  | container (h : n.kind = "jsx_expression") : Rule s n (.container n)
  | string (h : n.kind = "string") : Rule s n (.string s n)
  | other (h : n.kind ∉ ruledKinds) : Rule s n (.sequence n n.kind "children")

theorem rule_of_expression {s : SourceText} {n : Concrete} {r : Recipe}
    (h : Recipe.expression s n = some r) : Rule s n r := by
  have hsome {r' : Recipe} (hr' : some r' = some r) (hrule : Rule s n r') : Rule s n r :=
    Option.some.inj hr' ▸ hrule
  unfold Recipe.expression at h
  split at h <;> rename_i hkind
  · exact hsome h (.sequence (by rw [hkind]; decide))
  · exact hsome h (.sequence (by rw [hkind]; decide))
  · exact hsome h (.wrapper (by rw [hkind]; decide))
  · exact hsome h (.wrapper (by rw [hkind]; decide))
  · exact .declaration (by rw [hkind]; decide) h
  · exact .declaration (by rw [hkind]; decide) h
  · exact hsome h (.declarator hkind)
  · exact hsome h (.arrow hkind)
  · exact hsome h (.exported hkind)
  · exact .binary hkind h
  · exact hsome h (.conditional hkind)
  · exact .element hkind h
  · exact hsome h (.selfClosing hkind)
  · exact hsome h (.container hkind)
  · exact hsome h (.leaf (by rw [hkind]; decide))
  · exact hsome h (.string hkind)
  · exact hsome h (.constant (by rw [hkind]; exact List.mem_cons_self))
  · exact hsome h (.constant (by simp [hkind, constantRules]))
  · exact hsome h (.constant (by simp [hkind, constantRules]))
  · exact hsome h (.leaf (by rw [hkind]; decide))
  · exact hsome h (.function (by rw [hkind]; decide))
  · exact hsome h (.function (by rw [hkind]; decide))
  · exact hsome h (.function (by rw [hkind]; decide))
  · exact hsome h (.function (by rw [hkind]; decide))
  · exact hsome h (.function (by rw [hkind]; decide))
  · exact hsome h (.leaf (by rw [hkind]; decide))
  · exact hsome h (.leaf (by rw [hkind]; decide))
  · exact hsome h (.leaf (by rw [hkind]; decide))
  · refine hsome h (.other ?_)
    simp_all [ruledKinds, sequenceRules, wrapperRules, leafRules, functionRules, constantRules,
      declarationKinds]

end Recipe

end TopTag
