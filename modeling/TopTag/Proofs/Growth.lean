import TopTag.Concrete.Conversion
import TopTag.Proofs.Layout

/-!
# How trees grow

Every node of a converted tree is made from one concrete node in one *role*, and the role with the
node determine what it is made of. A *recipe* says so without any conversion: it gives the kind, and
for each field the concrete nodes its value comes from and the roles they take in it. `Grown` closes
the recipes under themselves.

Conversion succeeds with a tree exactly when the tree is grown from the concrete root
(`fileOfConcrete_eq_ok_iff`). What holds of recipes thus holds of trees, and nothing behind this
module looks at the rules of the conversion again.
-/

namespace TopTag

namespace Concrete

mutual

/-- What stands inside all parentheses around a node; nothing when these are empty. -/
def core : Concrete → Option Concrete
  | .node h cs => if h.kind = "parenthesized_expression" then coreAmong cs else some (.node h cs)

/-- The core of the first part among some children. -/
def coreAmong : List Concrete → Option Concrete
  | [] => none
  | c :: rest => if c.head.named && c.kind != "comment" then core c else coreAmong rest

end

theorem coreAmong_eq (cs : List Concrete) :
    coreAmong cs = (cs.filter fun c => c.head.named && c.kind != "comment").head?.bind core := by
  induction cs with
  | nil => rfl
  | cons c rest ih =>
    rw [coreAmong, List.filter_cons]
    split
    · rfl
    · exact ih

theorem core_of_parenthesized {n : Concrete} (h : n.kind = "parenthesized_expression") :
    n.core = n.parts.head?.bind core := by
  cases n with
  | node head cs =>
    rw [kind, Concrete.head] at h
    rw [core, if_pos h, coreAmong_eq, parts, children]

theorem core_of_other {n : Concrete} (h : n.kind ≠ "parenthesized_expression") :
    n.core = some n := by
  cases n with
  | node head cs =>
    rw [kind, Concrete.head] at h
    rw [core, if_neg h]

theorem height_le_heightAll {c : Concrete} {cs : List Concrete} (h : c ∈ cs) :
    c.height ≤ heightAll cs := by
  induction cs with
  | nil => cases h
  | cons d rest ih =>
    rw [heightAll]
    rcases List.mem_cons.mp h with rfl | h
    · exact Nat.le_max_left _ _
    · exact Nat.le_trans (ih h) (Nat.le_max_right _ _)

theorem height_lt_of_mem_children {n c : Concrete} (h : c ∈ n.children) : c.height < n.height := by
  cases n with
  | node head cs =>
    have hle : c.height ≤ heightAll cs := height_le_heightAll h
    rw [height]
    omega

theorem height_pos (n : Concrete) : 0 < n.height := by
  cases n
  rw [height]
  omega

end Concrete

/-- What a concrete node is taken for. -/
inductive Role where
  | file
  | expression
  | openingTag (selfClosing : Bool)
  | namedAttribute
  | spreadAttribute
  | name
  | closingTag
  | openingFragment
  | closingFragment
  | emptyExpression
  deriving DecidableEq

/-- Where the value of a field comes from. -/
inductive Part where
  | null
  | text (value : String)
  | bool (value : Bool)
  | one (role : Role) (node : Concrete)
  | many (nodes : List (Role × Concrete))

namespace Part

def ofOption (role : Role) : Option Concrete → Part
  | none => .null
  | some c => .one role c

/-- A node that may be absent, read as an expression. -/
def expression (o : Option Concrete) : Part := ofOption .expression (o.bind Concrete.core)

/-- Nodes read as expressions; empty parentheses among them leave nothing. -/
def expressions (cs : List Concrete) : Part :=
  .many ((cs.filterMap Concrete.core).map fun c => (.expression, c))

end Part

/-- What a node of a tree is made of. -/
structure Recipe where
  kind : String
  fields : List (String × Part)

namespace Recipe

open TopTag.Convert (text inner exported spreadTarget tagKinds logicalOperators)

def leaf (s : SourceText) (n : Concrete) (kind field : String) : Recipe :=
  ⟨kind, [(field, .text (text s n))]⟩

def sequence (n : Concrete) (kind field : String) : Recipe :=
  ⟨kind, [(field, .expressions n.parts)]⟩

def wrapper (n : Concrete) (kind field : String) : Recipe :=
  ⟨kind, [(field, .expression n.parts.head?)]⟩

def variableDeclaration (s : SourceText) (n : Concrete) : Option Recipe :=
  n.children.head?.map fun keyword => ⟨"VariableDeclaration",
    [("kind", .text (text s keyword)),
      ("declarations", .expressions
        (n.children.filter fun c => c.head.named && c.kind == "variable_declarator"))]⟩

def variableDeclarator (n : Concrete) : Recipe :=
  ⟨"VariableDeclarator",
    [("id", .expression (n.child? "name")), ("init", .expression (n.child? "value"))]⟩

def exportStatement (n : Concrete) : Recipe :=
  if n.children.any fun c => c.kind == "default" then
    ⟨"ExportDefaultDeclaration", [("declaration", .expression (exported n).1)]⟩
  else
    ⟨"ExportNamedDeclaration",
      [("declaration", .expression (exported n).1),
        ("specifiers", .expressions
          ((exported n).2.filter fun c => c.head.named && c.kind != "comment"))]⟩

/-- The parameters of a function: a single one, or the parts of a list. -/
def parameters (n : Concrete) : List Concrete :=
  match n.child? "parameter" with
  | some single => [single]
  | none =>
    match n.child? "parameters" with
    | some list => list.parts
    | none => []

def function (n : Concrete) (kind : String) : Recipe :=
  ⟨kind, [("id", .expression (n.child? "name")), ("params", .expressions (parameters n)),
    ("body", .expression (n.child? "body"))]⟩

def arrowFunction (n : Concrete) : Recipe :=
  ⟨"ArrowFunctionExpression",
    [("params", .expressions (parameters n)), ("body", .expression (n.child? "body")),
      ("expression", .bool ((n.child? "body").any fun b => b.kind != "statement_block"))]⟩

def binaryExpression (n : Concrete) : Option Recipe :=
  (n.child? "operator").map fun o =>
    ⟨if logicalOperators.contains o.kind then "LogicalExpression" else "BinaryExpression",
      [("operator", .text o.kind), ("left", .expression (n.child? "left")),
        ("right", .expression (n.child? "right"))]⟩

def conditional (n : Concrete) : Recipe :=
  ⟨"ConditionalExpression",
    [("test", .expression (n.child? "condition")),
      ("consequent", .expression (n.child? "consequence")),
      ("alternate", .expression (n.child? "alternative"))]⟩

/-- What stands between the tags of an element. -/
def content (n : Concrete) : List Concrete := n.parts.filter fun c => !tagKinds.contains c.kind

def element (n : Concrete) : Option Recipe :=
  (n.child? "open_tag").map fun opening =>
    if (opening.child? "name").isSome then
      ⟨"JSXElement",
        [("openingElement", .one (.openingTag false) opening),
          ("closingElement", .ofOption .closingTag (n.child? "close_tag")),
          ("children", .expressions (content n))]⟩
    else
      ⟨"JSXFragment",
        [("openingFragment", .one .openingFragment opening),
          ("closingFragment", .ofOption .closingFragment (n.child? "close_tag")),
          ("children", .expressions (content n))]⟩

def selfClosingElement (n : Concrete) : Recipe :=
  ⟨"JSXElement",
    [("openingElement", .one (.openingTag true) n), ("closingElement", .null),
      ("children", .many [])]⟩

def container (n : Concrete) : Recipe :=
  ⟨"JSXExpressionContainer",
    [("expression", match n.parts.head? with
      | some c => .expression (some c)
      | none => .one .emptyExpression n)]⟩

/-- The recipe for an expression, a statement or whatever else stands for itself. -/
def expression (s : SourceText) (n : Concrete) : Option Recipe :=
  match n.kind with
  | "program" => some (sequence n "Program" "body")
  | "statement_block" => some (sequence n "BlockStatement" "body")
  | "expression_statement" => some (wrapper n "ExpressionStatement" "expression")
  | "return_statement" => some (wrapper n "ReturnStatement" "argument")
  | "lexical_declaration" => variableDeclaration s n
  | "variable_declaration" => variableDeclaration s n
  | "variable_declarator" => some (variableDeclarator n)
  | "arrow_function" => some (arrowFunction n)
  | "export_statement" => some (exportStatement n)
  | "binary_expression" => binaryExpression n
  | "ternary_expression" => some (conditional n)
  | "jsx_element" => element n
  | "jsx_self_closing_element" => some (selfClosingElement n)
  | "jsx_expression" => some (container n)
  | "jsx_text" => some (leaf s n "JSXText" "value")
  | "string" => some ⟨"StringLiteral", [("value", .text (inner (text s n)))]⟩
  | "null" => some ⟨"NullLiteral", []⟩
  | "true" => some ⟨"BooleanLiteral", [("value", .bool true)]⟩
  | "false" => some ⟨"BooleanLiteral", [("value", .bool false)]⟩
  | "number" => some (leaf s n "NumericLiteral" "raw")
  | "function_declaration" => some (function n "FunctionDeclaration")
  | "generator_function_declaration" => some (function n "FunctionDeclaration")
  | "function_expression" => some (function n "FunctionExpression")
  | "function" => some (function n "FunctionExpression")
  | "generator_function" => some (function n "FunctionExpression")
  | "identifier" => some (leaf s n "Identifier" "name")
  | "property_identifier" => some (leaf s n "Identifier" "name")
  | "shorthand_property_identifier" => some (leaf s n "Identifier" "name")
  | kind => some (sequence n kind "children")

def name (s : SourceText) (n : Concrete) : Recipe :=
  if n.kind = "jsx_namespace_name" then leaf s n "JSXNamespacedName" "text"
  else if n.kind = "member_expression" ∨ n.kind = "nested_identifier" then
    leaf s n "JSXMemberExpression" "text"
  else leaf s n "JSXIdentifier" "name"

def namedAttribute (n : Concrete) : Option Recipe :=
  n.parts.head?.map fun c =>
    ⟨"JSXAttribute", [("name", .one .name c), ("value", .expression (n.parts.drop 1).head?)]⟩

def spreadAttribute (n : Concrete) : Recipe :=
  ⟨"JSXSpreadAttribute", [("argument", .expression (n.parts.head?.map spreadTarget))]⟩

/-- An attribute of a tag with its role: it has a name, or it is spread from braces. -/
def attributeRole (c : Concrete) : Role × Concrete :=
  (if c.kind = "jsx_attribute" then .namedAttribute else .spreadAttribute, c)

def openingTag (n : Concrete) (selfClosing : Bool) : Recipe :=
  ⟨"JSXOpeningElement",
    [("name", .ofOption .name (n.child? "name")),
      ("attributes", .many (n.attributeParts.map attributeRole)),
      ("selfClosing", .bool selfClosing)]⟩

def closingTag (n : Concrete) : Recipe :=
  ⟨"JSXClosingElement", [("name", .ofOption .name (n.child? "name"))]⟩

end Recipe

/-- The recipe for a concrete node in a role; none where the node lacks what the role needs. -/
def recipe (s : SourceText) : Role → Concrete → Option Recipe
  | .file, n => some ⟨"File", [("program", .expression (some n))]⟩
  | .expression, n => Recipe.expression s n
  | .openingTag selfClosing, n => some (.openingTag n selfClosing)
  | .namedAttribute, n => Recipe.namedAttribute n
  | .spreadAttribute, n => some (.spreadAttribute n)
  | .name, n => some (.name s n)
  | .closingTag, n => some (.closingTag n)
  | .openingFragment, _ => some ⟨"JSXOpeningFragment", []⟩
  | .closingFragment, _ => some ⟨"JSXClosingFragment", []⟩
  | .emptyExpression, _ => some ⟨"JSXEmptyExpression", []⟩

/-- The offsets of a node in characters. A file spans its whole text. -/
def Role.Extends (s : SourceText) (n : Concrete) (start stop : Nat) : Role → Prop
  | .file => start = 0 ∧ stop = s.text.length
  | _ => s.charOffset n.head.start = .ok start ∧ s.charOffset n.head.stop = .ok stop

mutual

/-- The tree is made by the recipe of the concrete node in the role, and so is all below it. -/
inductive Grown (s : SourceText) : Role → Concrete → Tree → Prop
  | node {role : Role} {n : Concrete} {r : Recipe} {start stop : Nat}
      {fields : List (String × Tree)} (hrecipe : recipe s role n = some r)
      (hextends : role.Extends s n start stop) (hfields : GrownFields s r.fields fields) :
      Grown s role n (.object
        (("type", .text r.kind) :: ("start", .int start) :: ("end", .int stop) :: fields))

inductive GrownFields (s : SourceText) : List (String × Part) → List (String × Tree) → Prop
  | nil : GrownFields s [] []
  | cons {key : String} {part : Part} {value : Tree} {parts : List (String × Part)}
      {fields : List (String × Tree)} (hvalue : GrownPart s part value)
      (hfields : GrownFields s parts fields) :
      GrownFields s ((key, part) :: parts) ((key, value) :: fields)

inductive GrownPart (s : SourceText) : Part → Tree → Prop
  | null : GrownPart s .null .null
  | text (value : String) : GrownPart s (.text value) (.text value)
  | bool (value : Bool) : GrownPart s (.bool value) (.bool value)
  | one {role : Role} {n : Concrete} {t : Tree} (h : Grown s role n t) :
      GrownPart s (.one role n) t
  | many {nodes : List (Role × Concrete)} {items : List Tree} (h : GrownItems s nodes items) :
      GrownPart s (.many nodes) (.list items)

inductive GrownItems (s : SourceText) : List (Role × Concrete) → List Tree → Prop
  | nil : GrownItems s [] []
  | cons {role : Role} {n : Concrete} {t : Tree} {nodes : List (Role × Concrete)}
      {items : List Tree} (h : Grown s role n t) (hitems : GrownItems s nodes items) :
      GrownItems s ((role, n) :: nodes) (t :: items)

end

/-- What the conversion of a node leaves: the tree grown from its core, if it has one. -/
def Leaves (s : SourceText) (n : Concrete) (left : Option Tree) : Prop :=
  match n.core with
  | none => left = none
  | some m => ∃ t, left = some t ∧ Grown s .expression m t

/-! ## Each rule of the conversion follows its recipe -/

theorem bind_eq_ok_iff {α β : Type} {x : Except Fault α} {f : α → Except Fault β} {b : β} :
    (x >>= f) = .ok b ↔ ∃ a, x = .ok a ∧ f a = .ok b := by
  constructor
  · exact exists_of_bind_ok
  · rintro ⟨a, rfl, h⟩
    exact h

section Parts

variable {s : SourceText} {v : Tree}

theorem grownPart_null_iff : GrownPart s .null v ↔ v = .null := by
  constructor
  · intro h
    cases h
    rfl
  · rintro rfl
    exact .null

theorem grownPart_text_iff {value : String} : GrownPart s (.text value) v ↔ v = .text value := by
  constructor
  · intro h
    cases h
    rfl
  · rintro rfl
    exact .text value

theorem grownPart_bool_iff {value : Bool} : GrownPart s (.bool value) v ↔ v = .bool value := by
  constructor
  · intro h
    cases h
    rfl
  · rintro rfl
    exact .bool value

theorem grownPart_one_iff {role : Role} {n : Concrete} :
    GrownPart s (.one role n) v ↔ Grown s role n v := by
  constructor
  · intro h
    cases h with
    | one h => exact h
  · exact .one

theorem grownPart_many_iff {nodes : List (Role × Concrete)} :
    GrownPart s (.many nodes) v ↔ ∃ items, GrownItems s nodes items ∧ v = .list items := by
  constructor
  · intro h
    cases h with
    | many h => exact ⟨_, h, rfl⟩
  · rintro ⟨items, h, rfl⟩
    exact .many h

theorem grownItems_nil_iff {items : List Tree} : GrownItems s [] items ↔ items = [] := by
  constructor
  · intro h
    cases h
    rfl
  · rintro rfl
    exact .nil

theorem grownItems_cons_iff {role : Role} {n : Concrete} {nodes : List (Role × Concrete)}
    {items : List Tree} : GrownItems s ((role, n) :: nodes) items ↔
      ∃ t, Grown s role n t ∧ ∃ rest, GrownItems s nodes rest ∧ t :: rest = items := by
  constructor
  · intro h
    cases h with
    | cons h hrest => exact ⟨_, h, _, hrest, rfl⟩
  · rintro ⟨t, h, rest, hrest, rfl⟩
    exact .cons h hrest

theorem exists_grownFields_nil {P : List (String × Tree) → Prop} :
    (∃ fields, GrownFields s [] fields ∧ P fields) ↔ P [] := by
  constructor
  · rintro ⟨fields, h, hP⟩
    cases h
    exact hP
  · exact fun h => ⟨[], .nil, h⟩

theorem exists_grownFields_cons {key : String} {part : Part} {parts : List (String × Part)}
    {P : List (String × Tree) → Prop} :
    (∃ fields, GrownFields s ((key, part) :: parts) fields ∧ P fields) ↔
      ∃ v, GrownPart s part v ∧ ∃ rest, GrownFields s parts rest ∧ P ((key, v) :: rest) := by
  constructor
  · rintro ⟨fields, h, hP⟩
    cases h with
    | cons hv hrest => exact ⟨_, hv, _, hrest, hP⟩
  · rintro ⟨v, hv, rest, hrest, hP⟩
    exact ⟨_, .cons hv hrest, hP⟩

end Parts

namespace Convert

variable {s : SourceText} {n : Concrete} {t : Tree}

theorem base_eq_ok_iff {kind : String} {fields : List (String × Tree)} :
    base s n kind fields = .ok t ↔ ∃ start stop : Nat, s.charOffset n.head.start = .ok start ∧
      s.charOffset n.head.stop = .ok stop ∧ t = .object
        (("type", .text kind) :: ("start", .int start) :: ("end", .int stop) :: fields) := by
  simp only [base, bind_eq_ok_iff]
  constructor
  · rintro ⟨start, hstart, stop, hstop, h⟩
    cases h
    exact ⟨start, stop, hstart, hstop, rfl⟩
  · rintro ⟨start, stop, hstart, hstop, rfl⟩
    exact ⟨start, hstart, stop, hstop, rfl⟩

/-- What a rule makes of a concrete node is what the recipe says, if there is one. -/
def Follows (s : SourceText) (n : Concrete) (made : Except Fault Tree) (r : Option Recipe) : Prop :=
  ∀ t, made = .ok t ↔
    ∃ r' ∈ r, ∃ fields, GrownFields s r'.fields fields ∧ base s n r'.kind fields = .ok t

/-- A rule that follows the recipe of a role, other than that of a file, grows the tree. -/
theorem Follows.eq_ok_iff {role : Role} {made : Except Fault Tree}
    (h : Follows s n made (recipe s role n)) (hrole : role ≠ .file) :
    made = .ok t ↔ Grown s role n t := by
  have hextends (start stop : Nat) : role.Extends s n start stop ↔
      s.charOffset n.head.start = .ok start ∧ s.charOffset n.head.stop = .ok stop := by
    cases role <;> first | exact absurd rfl hrole | rfl
  simp only [h t, base_eq_ok_iff]
  constructor
  · rintro ⟨r, hr, fields, hfields, start, stop, hstart, hstop, rfl⟩
    exact .node hr ((hextends _ _).mpr ⟨hstart, hstop⟩) hfields
  · intro h
    cases h with
    | node hr hext hfields =>
      obtain ⟨hstart, hstop⟩ := (hextends _ _).mp hext
      exact ⟨_, hr, _, hfields, _, _, hstart, hstop, rfl⟩

theorem follows_some_iff {made : Except Fault Tree} {r : Recipe} : Follows s n made (some r) ↔
    ∀ t, made = .ok t ↔
      ∃ fields, GrownFields s r.fields fields ∧ base s n r.kind fields = .ok t := by
  simp [Follows]

theorem follows_none {fault : Fault} : Follows s n (throw fault) none := by
  intro t
  simp [throw, throwThe, MonadExceptOf.throw]

/-- The conversion leaves what it should of nodes up to a height. -/
def Faithful (s : SourceText) (height : Nat) (conv : Conversion) : Prop :=
  ∀ c : Concrete, c.height ≤ height → ∀ left, conv c = .ok left ↔ Leaves s c left

variable {height : Nat} {conv : Conversion}

theorem optional_eq_ok_iff (hconv : Faithful s height conv) {o : Option Concrete}
    (ho : ∀ c ∈ o, c.height ≤ height) :
    optional conv o = .ok t ↔ GrownPart s (.expression o) t := by
  cases o with
  | none =>
    rw [Part.expression, Option.bind_none, Part.ofOption, grownPart_null_iff, optional,
      Except.ok.injEq, eq_comm]
  | some c =>
    simp only [optional, bind_eq_ok_iff, hconv c (ho c rfl), Part.expression, Option.bind_some,
      Leaves]
    cases c.core with
    | none =>
      rw [Part.ofOption, grownPart_null_iff]
      constructor
      · rintro ⟨left, rfl, h⟩
        cases h
        rfl
      · rintro rfl
        exact ⟨none, rfl, rfl⟩
    | some m =>
      rw [Part.ofOption, grownPart_one_iff]
      constructor
      · rintro ⟨left, ⟨u, rfl, hu⟩, h⟩
        cases h
        exact hu
      · intro h
        exact ⟨some t, ⟨t, rfl, h⟩, rfl⟩

theorem all_eq_ok_iff (hconv : Faithful s height conv) {cs : List Concrete}
    (hcs : ∀ c ∈ cs, c.height ≤ height) {items : List Tree} :
    all conv cs = .ok items ↔
      GrownItems s ((cs.filterMap Concrete.core).map fun c => (.expression, c)) items := by
  induction cs generalizing items with
  | nil =>
    rw [List.filterMap_nil, List.map_nil, grownItems_nil_iff, all, Except.ok.injEq, eq_comm]
  | cons c rest ih =>
    have hrest := fun {items} => @ih (fun d hd => hcs d (List.mem_cons_of_mem _ hd)) items
    simp only [all, bind_eq_ok_iff, hconv c (hcs c List.mem_cons_self), hrest, Leaves]
    cases hcore : c.core with
    | none =>
      rw [List.filterMap_cons_none hcore]
      constructor
      · rintro ⟨left, rfl, others, hothers, h⟩
        cases h
        exact hothers
      · intro h
        exact ⟨none, rfl, items, h, rfl⟩
    | some m =>
      rw [List.filterMap_cons_some hcore, List.map_cons, grownItems_cons_iff]
      constructor
      · rintro ⟨left, ⟨u, rfl, hu⟩, others, hothers, h⟩
        cases h
        exact ⟨u, hu, others, hothers, rfl⟩
      · rintro ⟨u, hu, others, hothers, rfl⟩
        exact ⟨some u, ⟨u, rfl, hu⟩, others, hothers, rfl⟩

theorem exists_expressions_iff (hconv : Faithful s height conv) {cs : List Concrete}
    (hcs : ∀ c ∈ cs, c.height ≤ height) {P : Tree → Prop} :
    (∃ v, GrownPart s (.expressions cs) v ∧ P v) ↔
      ∃ items, all conv cs = .ok items ∧ P (.list items) := by
  simp only [all_eq_ok_iff hconv hcs, Part.expressions, grownPart_many_iff]
  constructor
  · rintro ⟨_, ⟨items, hitems, rfl⟩, hP⟩
    exact ⟨items, hitems, hP⟩
  · rintro ⟨items, hitems, hP⟩
    exact ⟨_, ⟨items, hitems, rfl⟩, hP⟩

theorem withoutField_sublist (field : String) (cs : List Concrete) :
    (withoutField field cs).Sublist cs := by
  induction cs with
  | nil => exact .slnil
  | cons c rest ih =>
    rw [withoutField]
    split
    · exact List.sublist_cons_self c rest
    · exact ih.cons_cons c

/-- What an export statement exports and what else it has are children of it. -/
theorem exported_sublist (n : Concrete) : (∀ c ∈ (exported n).1, c ∈ n.children) ∧
    (exported n).2.Sublist n.children := by
  unfold exported
  split
  · rename_i d hd
    refine ⟨fun c hc => ?_, withoutField_sublist _ _⟩
    obtain rfl := Option.some.inj hc
    exact (Concrete.child?_eq_some hd).1
  · exact ⟨fun c hc => (Concrete.child?_eq_some hc).1, withoutField_sublist _ _⟩

theorem parameters_eq (conv : Conversion) (n : Concrete) :
    parameters conv n = all conv (Recipe.parameters n) := by
  rw [parameters, Recipe.parameters]
  cases n.child? "parameter" with
  | some single => rfl
  | none => cases n.child? "parameters" <;> rfl

section Rules

variable {kind : String} (hconv : Faithful s height conv)
  (hn : ∀ c ∈ n.children, c.height ≤ height)

include hn

theorem height_child? (field : String) : ∀ c ∈ n.child? field, c.height ≤ height :=
  fun c hc => hn c (Concrete.child?_eq_some hc).1

theorem height_parts : ∀ c ∈ n.parts, c.height ≤ height :=
  fun c hc => hn c (Concrete.mem_of_mem_parts hc)

theorem height_filter (p : Concrete → Bool) : ∀ c ∈ n.children.filter p, c.height ≤ height :=
  fun c hc => hn c (List.mem_filter.mp hc).1

theorem height_head : ∀ c ∈ n.parts.head?, c.height ≤ height :=
  fun c hc => height_parts hn c (List.mem_of_head? hc)

theorem height_parameters : ∀ c ∈ Recipe.parameters n, c.height ≤ height := by
  intro c hc
  rw [Recipe.parameters] at hc
  split at hc
  · rename_i single hsingle
    rw [List.mem_singleton.mp hc]
    exact height_child? hn _ single hsingle
  · split at hc
    · rename_i list hlist
      have hlt := Concrete.height_lt_of_mem_children (Concrete.mem_of_mem_parts hc)
      have hle := height_child? hn _ list hlist
      omega
    · cases hc

include hconv

theorem follows_sequence {field : String} :
    Follows s n (sequence s conv n kind field) (some (.sequence n kind field)) := by
  simp only [follows_some_iff, sequence, bind_eq_ok_iff, Recipe.sequence, exists_grownFields_cons,
    exists_grownFields_nil, exists_expressions_iff hconv (height_parts hn), implies_true]

theorem follows_wrapper {field : String} :
    Follows s n (wrapper s conv n kind field) (some (.wrapper n kind field)) := by
  simp only [follows_some_iff, wrapper, bind_eq_ok_iff, Recipe.wrapper, exists_grownFields_cons,
    exists_grownFields_nil, optional_eq_ok_iff hconv (height_head hn), implies_true]

theorem follows_variableDeclaration :
    Follows s n (variableDeclaration s conv n) (Recipe.variableDeclaration s n) := by
  have hcs := height_filter hn fun c => c.head.named && c.kind == "variable_declarator"
  rw [variableDeclaration, Recipe.variableDeclaration]
  cases hchildren : n.children with
  | nil => exact follows_none
  | cons keyword rest =>
    rw [hchildren] at hcs
    simp only [List.head?_cons, Option.map_some, follows_some_iff, exists_grownFields_cons,
      exists_grownFields_nil, exists_expressions_iff hconv hcs, grownPart_text_iff, exists_eq_left,
      bind_eq_ok_iff, implies_true]

theorem follows_variableDeclarator :
    Follows s n (variableDeclarator s conv n) (some (.variableDeclarator n)) := by
  simp only [follows_some_iff, variableDeclarator, bind_eq_ok_iff, Recipe.variableDeclarator,
    exists_grownFields_cons, exists_grownFields_nil,
    optional_eq_ok_iff hconv (height_child? hn _), implies_true]

theorem follows_exportStatement :
    Follows s n (exportStatement s conv n) (some (.exportStatement n)) := by
  obtain ⟨hdirect, hsub⟩ := exported_sublist n
  have hdeclaration : ∀ c ∈ (exported n).1, c.height ≤ height := fun c hc => hn c (hdirect c hc)
  have hothers : ∀ c ∈ (exported n).2.filter fun c => c.head.named && c.kind != "comment",
      c.height ≤ height := fun c hc => hn c (hsub.subset (List.mem_filter.mp hc).1)
  rw [exportStatement, Recipe.exportStatement]
  cases n.children.any fun c => c.kind == "default" with
  | true =>
    simp only [↓reduceIte, follows_some_iff, bind_eq_ok_iff, exists_grownFields_cons,
      exists_grownFields_nil, optional_eq_ok_iff hconv hdeclaration, implies_true]
  | false =>
    simp only [Bool.false_eq_true, ↓reduceIte, follows_some_iff, bind_eq_ok_iff,
      exists_grownFields_cons, exists_grownFields_nil, optional_eq_ok_iff hconv hdeclaration,
      exists_expressions_iff hconv hothers, implies_true]

theorem follows_conditional : Follows s n (conditional s conv n) (some (.conditional n)) := by
  simp only [follows_some_iff, conditional, bind_eq_ok_iff, Recipe.conditional,
    exists_grownFields_cons, exists_grownFields_nil, optional_eq_ok_iff hconv (height_child? hn _),
    implies_true]

theorem follows_binaryExpression :
    Follows s n (binaryExpression s conv n) (Recipe.binaryExpression n) := by
  rw [binaryExpression, Recipe.binaryExpression]
  cases n.child? "operator" with
  | none => exact follows_none
  | some o =>
    simp only [Option.map_some, follows_some_iff, exists_grownFields_cons, exists_grownFields_nil,
      grownPart_text_iff, exists_eq_left, bind_eq_ok_iff,
      optional_eq_ok_iff hconv (height_child? hn _), implies_true]

theorem follows_function :
    Follows s n (function s conv n kind) (some (.function n kind)) := by
  simp only [follows_some_iff, function, parameters_eq, bind_eq_ok_iff, Recipe.function,
    exists_grownFields_cons, exists_grownFields_nil, optional_eq_ok_iff hconv (height_child? hn _),
    exists_expressions_iff hconv (height_parameters hn), implies_true]

theorem follows_arrowFunction :
    Follows s n (arrowFunction s conv n) (some (.arrowFunction n)) := by
  simp only [follows_some_iff, arrowFunction, parameters_eq, bind_eq_ok_iff, Recipe.arrowFunction,
    exists_grownFields_cons, exists_grownFields_nil, grownPart_bool_iff, exists_eq_left,
    optional_eq_ok_iff hconv (height_child? hn _),
    exists_expressions_iff hconv (height_parameters hn), implies_true]

omit hconv hn in
theorem follows_leaf {field : String} :
    Follows s n (leaf s n kind field) (some (.leaf s n kind field)) := by
  simp only [follows_some_iff, leaf, Recipe.leaf, exists_grownFields_cons, exists_grownFields_nil,
    grownPart_text_iff, exists_eq_left, implies_true]

omit hconv hn in
theorem follows_bare : Follows s n (base s n kind []) (some ⟨kind, []⟩) := by
  simp only [follows_some_iff, exists_grownFields_nil, implies_true]

omit hconv hn in
theorem bare_eq_ok_iff {role : Role} (hrecipe : recipe s role n = some ⟨kind, []⟩)
    (hrole : role ≠ .file) : base s n kind [] = .ok t ↔ Grown s role n t :=
  (hrecipe ▸ follows_bare : Follows s n (base s n kind []) (recipe s role n)).eq_ok_iff hrole

omit hconv hn in
theorem follows_markupName : Follows s n (markupName s n) (recipe s .name n) := by
  simp only [markupName, recipe, Recipe.name, beq_iff_eq, Bool.or_eq_true]
  split
  · exact follows_leaf
  · split
    · exact follows_leaf
    · exact follows_leaf

theorem follows_markupAttribute :
    Follows s n (markupAttribute s conv n) (recipe s .namedAttribute n) := by
  have hvalue : ∀ c ∈ (n.parts.drop 1).head?, c.height ≤ height := fun c hc =>
    height_parts hn c (List.mem_of_mem_drop (List.mem_of_head? hc))
  intro t
  rw [markupAttribute, recipe, Recipe.namedAttribute]
  cases n.parts.head? with
  | none => simp [bind_eq_ok_iff, throw, throwThe, MonadExceptOf.throw]
  | some c =>
    have hname : ∀ v, markupName s c = .ok v ↔ Grown s .name c v :=
      fun v => follows_markupName.eq_ok_iff (by decide)
    simp only [Option.map_some, Option.mem_some_iff, exists_eq_left', bind_eq_ok_iff,
      exists_grownFields_cons, exists_grownFields_nil, optional_eq_ok_iff hconv hvalue,
      grownPart_one_iff, hname]
    constructor
    · rintro ⟨v, hv, name, hname, h⟩
      exact ⟨name, hname, v, hv, h⟩
    · rintro ⟨name, hname, v, hv, h⟩
      exact ⟨v, hv, name, hname, h⟩

theorem follows_spreadAttribute :
    Follows s n (spreadAttribute s conv n) (recipe s .spreadAttribute n) := by
  have htarget : ∀ c ∈ n.parts.head?.map spreadTarget, c.height ≤ height := by
    intro c hc
    obtain ⟨d, hd, rfl⟩ := Option.map_eq_some_iff.mp hc
    have hle := height_head hn d hd
    rw [spreadTarget]
    split
    · cases hhead : d.parts.head? with
      | none => exact hle
      | some e =>
        have hlt := Concrete.height_lt_of_mem_children
          (Concrete.mem_of_mem_parts (List.mem_of_head? hhead))
        rw [Option.getD_some]
        omega
    · exact hle
  simp only [recipe, follows_some_iff, spreadAttribute, bind_eq_ok_iff, Recipe.spreadAttribute,
    exists_grownFields_cons, exists_grownFields_nil, optional_eq_ok_iff hconv htarget, implies_true]

omit hn in
theorem attributes_eq_ok_iff {cs : List Concrete} (hcs : ∀ c ∈ cs, c.height ≤ height)
    {items : List Tree} : attributes s conv cs = .ok items ↔
      GrownItems s ((cs.filter Concrete.isAttribute).map Recipe.attributeRole) items := by
  induction cs generalizing items with
  | nil =>
    rw [List.filter_nil, List.map_nil, grownItems_nil_iff, attributes, Except.ok.injEq, eq_comm]
  | cons c rest ih =>
    have hrest := fun {items} => @ih (fun d hd => hcs d (List.mem_cons_of_mem _ hd)) items
    have hc : ∀ d ∈ c.children, d.height ≤ height := by
      intro d hd
      have hlt := Concrete.height_lt_of_mem_children hd
      have hle := hcs c List.mem_cons_self
      omega
    have hnamed : ∀ v, markupAttribute s conv c = .ok v ↔ Grown s .namedAttribute c v :=
      fun v => (follows_markupAttribute hconv hc).eq_ok_iff (by decide)
    have hspread : ∀ v, spreadAttribute s conv c = .ok v ↔ Grown s .spreadAttribute c v :=
      fun v => (follows_spreadAttribute hconv hc).eq_ok_iff (by decide)
    rw [attributes]
    split
    · rename_i hkind
      have hattr : c.isAttribute = true := by simp [Concrete.isAttribute, hkind]
      rw [List.filter_cons_of_pos hattr, List.map_cons, Recipe.attributeRole,
        if_pos (eq_of_beq hkind), grownItems_cons_iff]
      simp only [bind_eq_ok_iff, hnamed, hrest, pure, Except.pure, Except.ok.injEq]
    · split
      · rename_i hkind hkind'
        have hattr : c.isAttribute = true := by simp [Concrete.isAttribute, hkind']
        rw [List.filter_cons_of_pos hattr, List.map_cons, Recipe.attributeRole,
          if_neg (by simpa using hkind), grownItems_cons_iff]
        simp only [bind_eq_ok_iff, hspread, hrest, pure, Except.pure, Except.ok.injEq]
      · rename_i hkind hkind'
        have hattr : ¬ c.isAttribute = true := by simp_all [Concrete.isAttribute]
        rw [List.filter_cons_of_neg hattr]
        exact hrest

omit hconv hn in
theorem optionalName_eq_ok_iff {o : Option Concrete} :
    optionalName s o = .ok t ↔ GrownPart s (.ofOption .name o) t := by
  cases o with
  | none => rw [Part.ofOption, grownPart_null_iff, optionalName, Except.ok.injEq, eq_comm]
  | some c =>
    rw [Part.ofOption, grownPart_one_iff, optionalName]
    exact follows_markupName.eq_ok_iff (by decide)

omit hconv hn in
theorem optionalTag_eq_ok_iff {o : Option Concrete} {role : Role}
    {close : Concrete → Except Fault Tree}
    (hclose : ∀ c t, close c = .ok t ↔ Grown s role c t) :
    optionalTag close o = .ok t ↔ GrownPart s (.ofOption role o) t := by
  cases o with
  | none => rw [Part.ofOption, grownPart_null_iff, optionalTag, Except.ok.injEq, eq_comm]
  | some c => rw [Part.ofOption, grownPart_one_iff, optionalTag, hclose]

theorem openingTag_eq_ok_iff {selfClosing : Bool} :
    openingTag s conv n selfClosing = .ok t ↔ Grown s (.openingTag selfClosing) n t := by
  have hfollows : Follows s n (openingTag s conv n selfClosing)
      (recipe s (.openingTag selfClosing) n) := by
    intro t
    simp only [openingTag, recipe, Recipe.openingTag, Option.mem_some_iff, exists_eq_left',
      bind_eq_ok_iff, attributes_eq_ok_iff hconv (height_parts hn), optionalName_eq_ok_iff,
      exists_grownFields_cons, exists_grownFields_nil, grownPart_many_iff, grownPart_bool_iff,
      exists_eq_left]
    constructor
    · rintro ⟨items, hitems, name, hname, h⟩
      exact ⟨name, hname, _, ⟨items, hitems, rfl⟩, h⟩
    · rintro ⟨name, hname, _, ⟨items, hitems, rfl⟩, h⟩
      exact ⟨items, hitems, name, hname, h⟩
  exact hfollows.eq_ok_iff (by simp)

omit hconv hn in
theorem closingTag_eq_ok_iff : closingTag s n = .ok t ↔ Grown s .closingTag n t := by
  have hfollows : Follows s n (closingTag s n) (recipe s .closingTag n) := by
    simp only [recipe, follows_some_iff, closingTag, Recipe.closingTag, bind_eq_ok_iff,
      optionalName_eq_ok_iff, exists_grownFields_cons, exists_grownFields_nil, implies_true]
  exact hfollows.eq_ok_iff (by decide)

theorem follows_element : Follows s n (element s conv n) (Recipe.element n) := by
  have hcontent : ∀ c ∈ Recipe.content n, c.height ≤ height :=
    fun c hc => height_parts hn c (List.mem_filter.mp hc).1
  have hfirst (c : Concrete) (t : Tree) :
      base s c "JSXOpeningFragment" [] = .ok t ↔ Grown s .openingFragment c t :=
    bare_eq_ok_iff rfl (by decide)
  have hlast (c : Concrete) (t : Tree) :
      base s c "JSXClosingFragment" [] = .ok t ↔ Grown s .closingFragment c t :=
    bare_eq_ok_iff rfl (by decide)
  intro t
  rw [element, Recipe.element, ← Recipe.content]
  cases hopen : n.child? "open_tag" with
  | none => simp [bind_eq_ok_iff, throw, throwThe, MonadExceptOf.throw]
  | some opening =>
    have hopening : ∀ c ∈ opening.children, c.height ≤ height := by
      intro c hc
      have hlt := Concrete.height_lt_of_mem_children hc
      have hle := height_child? hn _ opening hopen
      omega
    cases hname : opening.child? "name" with
    | none =>
      simp only [hname, Option.map_some, Option.isSome_none, Bool.false_eq_true, ↓reduceIte,
        Option.mem_some_iff, exists_eq_left', bind_eq_ok_iff, exists_grownFields_cons,
        exists_grownFields_nil, exists_expressions_iff hconv hcontent, grownPart_one_iff, hfirst,
        optionalTag_eq_ok_iff hlast]
      constructor
      · rintro ⟨items, hitems, first, hf, last, hl, h⟩
        exact ⟨first, hf, last, hl, items, hitems, h⟩
      · rintro ⟨first, hf, last, hl, items, hitems, h⟩
        exact ⟨items, hitems, first, hf, last, hl, h⟩
    | some name =>
      simp only [hname, Option.map_some, Option.isSome_some, ↓reduceIte, Option.mem_some_iff,
        exists_eq_left', bind_eq_ok_iff, exists_grownFields_cons,
        exists_grownFields_nil, exists_expressions_iff hconv hcontent, grownPart_one_iff,
        openingTag_eq_ok_iff hconv hopening,
        optionalTag_eq_ok_iff fun c t => closingTag_eq_ok_iff (n := c) (t := t)]
      constructor
      · rintro ⟨items, hitems, first, hf, last, hl, h⟩
        exact ⟨first, hf, last, hl, items, hitems, h⟩
      · rintro ⟨first, hf, last, hl, items, hitems, h⟩
        exact ⟨items, hitems, first, hf, last, hl, h⟩

theorem follows_selfClosingElement :
    Follows s n (selfClosingElement s conv n) (some (.selfClosingElement n)) := by
  simp only [follows_some_iff, selfClosingElement, Recipe.selfClosingElement, bind_eq_ok_iff,
    openingTag_eq_ok_iff hconv hn, exists_grownFields_cons, exists_grownFields_nil,
    grownPart_one_iff, grownPart_null_iff, grownPart_many_iff, grownItems_nil_iff, exists_eq_left,
    implies_true]

theorem follows_container : Follows s n (container s conv n) (some (.container n)) := by
  rw [follows_some_iff, container, Recipe.container]
  cases hhead : n.parts.head? with
  | some c =>
    have hc : ∀ d ∈ some c, d.height ≤ height := hhead ▸ height_head hn
    simp only [bind_eq_ok_iff, exists_grownFields_cons, exists_grownFields_nil,
      optional_eq_ok_iff hconv hc, implies_true]
  | none =>
    have hempty (t : Tree) : base s n "JSXEmptyExpression" [] = .ok t ↔
        Grown s .emptyExpression n t := bare_eq_ok_iff rfl (by decide)
    simp only [bind_eq_ok_iff, exists_grownFields_cons, exists_grownFields_nil, hempty,
      grownPart_one_iff, implies_true]

omit hconv hn in
theorem follows_value {value : Tree} {part : Part} (hpart : ∀ v, GrownPart s part v ↔ v = value)
    {field : String} :
    Follows s n (base s n kind [(field, value)]) (some ⟨kind, [(field, part)]⟩) := by
  simp only [follows_some_iff, exists_grownFields_cons, exists_grownFields_nil, hpart,
    exists_eq_left, implies_true]

theorem follows_rule : Follows s n (rule s conv n) (Recipe.expression s n) := by
  unfold rule
  split <;> rename_i hkind
  · simpa only [Recipe.expression, hkind] using follows_sequence hconv hn
  · simpa only [Recipe.expression, hkind] using follows_sequence hconv hn
  · simpa only [Recipe.expression, hkind] using follows_wrapper hconv hn
  · simpa only [Recipe.expression, hkind] using follows_wrapper hconv hn
  · simpa only [Recipe.expression, hkind] using follows_variableDeclaration hconv hn
  · simpa only [Recipe.expression, hkind] using follows_variableDeclaration hconv hn
  · simpa only [Recipe.expression, hkind] using follows_variableDeclarator hconv hn
  · simpa only [Recipe.expression, hkind] using follows_arrowFunction hconv hn
  · simpa only [Recipe.expression, hkind] using follows_exportStatement hconv hn
  · simpa only [Recipe.expression, hkind] using follows_binaryExpression hconv hn
  · simpa only [Recipe.expression, hkind] using follows_conditional hconv hn
  · simpa only [Recipe.expression, hkind] using follows_element hconv hn
  · simpa only [Recipe.expression, hkind] using follows_selfClosingElement hconv hn
  · simpa only [Recipe.expression, hkind] using follows_container hconv hn
  · simpa only [Recipe.expression, hkind] using follows_leaf
  · simpa only [Recipe.expression, hkind] using follows_value fun v => grownPart_text_iff
  · simpa only [Recipe.expression, hkind] using follows_bare
  · simpa only [Recipe.expression, hkind] using follows_value fun v => grownPart_bool_iff
  · simpa only [Recipe.expression, hkind] using follows_value fun v => grownPart_bool_iff
  · simpa only [Recipe.expression, hkind] using follows_leaf
  · simpa only [Recipe.expression, hkind] using follows_function hconv hn
  · simpa only [Recipe.expression, hkind] using follows_function hconv hn
  · simpa only [Recipe.expression, hkind] using follows_function hconv hn
  · simpa only [Recipe.expression, hkind] using follows_function hconv hn
  · simpa only [Recipe.expression, hkind] using follows_function hconv hn
  · simpa only [Recipe.expression, hkind] using follows_leaf
  · simpa only [Recipe.expression, hkind] using follows_leaf
  · simpa only [Recipe.expression, hkind] using follows_leaf
  · simp_all only [Recipe.expression]
    exact follows_sequence hconv hn

end Rules

theorem faithful_step (hconv : Faithful s height conv) :
    Faithful s (height + 1) (step s conv) := by
  intro c hc left
  have hchildren : ∀ d ∈ c.children, d.height ≤ height := by
    intro d hd
    have hlt := Concrete.height_lt_of_mem_children hd
    omega
  rw [step, Leaves]
  split
  · rename_i hkind
    rw [Concrete.core_of_parenthesized (eq_of_beq hkind)]
    cases hhead : c.parts.head? with
    | none => rw [Option.bind_none, Except.ok.injEq, eq_comm]
    | some d => exact hconv d (height_head hchildren d hhead) left
  · rename_i hkind
    rw [Concrete.core_of_other (by simpa using hkind)]
    have hrule (t : Tree) : rule s conv c = .ok t ↔ Grown s .expression c t :=
      (follows_rule hconv hchildren : Follows s c _ (recipe s .expression c)).eq_ok_iff (by decide)
    simp only [← hrule]
    cases rule s conv c with
    | error fault => simp [Except.map]
    | ok t => simp [Except.map, eq_comm]

theorem faithful_convertTo (s : SourceText) (height : Nat) :
    Faithful s height (convertTo s height) := by
  induction height with
  | zero =>
    intro c hc
    have hpos := c.height_pos
    omega
  | succ height ih => exact faithful_step ih

end Convert

/-- The conversion of a file succeeds exactly with the tree that is grown from its root. -/
theorem fileOfConcrete_eq_ok_iff {source : String} {root : Concrete} {t : Tree} :
    fileOfConcrete source root = .ok t ↔
      root.head.hasError = false ∧ Grown (.ofString source) .file root t := by
  have hprogram (v : Tree) : (∃ left, convert (.ofString source) root = .ok left ∧
      left.getD .null = v) ↔ GrownPart (.ofString source) (.expression (some root)) v := by
    have hroot : ∀ c ∈ some root, c.height ≤ root.height := by simp
    rw [← Convert.optional_eq_ok_iff (Convert.faithful_convertTo _ _) hroot, Convert.optional,
      bind_eq_ok_iff]
    simp only [convert, pure, Except.pure, Except.ok.injEq]
  have hgrown : Grown (.ofString source) .file root t ↔
      ∃ v, GrownPart (.ofString source) (.expression (some root)) v ∧
        t = .object [("type", .text "File"), ("start", .int 0), ("end", .int source.length),
          ("program", v)] := by
    constructor
    · intro h
      cases h with
      | node hrecipe hextends hfields =>
        cases hrecipe
        obtain ⟨rfl, rfl⟩ := hextends
        cases hfields with
        | cons hv hrest =>
          cases hrest
          exact ⟨_, hv, rfl⟩
    · rintro ⟨v, hv, rfl⟩
      exact .node (r := ⟨"File", _⟩) rfl ⟨rfl, rfl⟩ (.cons hv .nil)
  rw [hgrown, fileOfConcrete]
  simp only [← hprogram]
  cases root.head.hasError with
  | true => simp
  | false =>
    cases convert (.ofString source) root with
    | error fault => simp
    | ok left => simp [eq_comm]

end TopTag
