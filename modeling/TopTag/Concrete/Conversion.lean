import TopTag.Concrete.Node
import TopTag.Concrete.SourceText

/-!
# From concrete syntax to trees

`convert` turns a concrete node into a tree whose offsets count characters. Parentheses and comments
leave no trace. A kind without a rule of its own becomes a node of that kind with its converted
children.

Each rule is a function of the conversion it uses for the nodes below, so the rules are ordinary
definitions; `convertTo` closes the circle by recursion on a bound for the height.
-/

namespace TopTag

/-- The conversion of a node; `none` for a node that leaves nothing. -/
abbrev Conversion := Concrete → Except Fault (Option Tree)

namespace Convert

/-- A tree with a kind, the range of a concrete node, and further fields. -/
def base (s : SourceText) (n : Concrete) (kind : String) (fields : List (String × Tree)) :
    Except Fault Tree := do
  let start ← s.charOffset n.head.start
  let stop ← s.charOffset n.head.stop
  return .object
    ([("type", .text kind), ("start", .int start), ("end", .int stop)] ++ fields)

def text (s : SourceText) (n : Concrete) : String :=
  String.ofList (s.slice n.head.start n.head.stop)

/-- Converts a child that may be absent; nothing reads as `null`. -/
def optional (conv : Conversion) (n : Option Concrete) : Except Fault Tree :=
  match n with
  | none => .ok .null
  | some c => do
    let t ← conv c
    return t.getD .null

/-- Converts a list of nodes and keeps what they leave. -/
def all (conv : Conversion) : List Concrete → Except Fault (List Tree)
  | [] => .ok []
  | c :: rest => do
    let t ← conv c
    let others ← all conv rest
    return t.toList ++ others

def leaf (s : SourceText) (n : Concrete) (kind field : String) : Except Fault Tree :=
  base s n kind [(field, .text (text s n))]

/-- A node whose named children make up one list. -/
def sequence (s : SourceText) (conv : Conversion) (n : Concrete) (kind field : String) :
    Except Fault Tree := do
  let items ← all conv n.parts
  base s n kind [(field, .list items)]

/-- A node around at most one expression. -/
def wrapper (s : SourceText) (conv : Conversion) (n : Concrete) (kind field : String) :
    Except Fault Tree := do
  let inner ← optional conv n.parts.head?
  base s n kind [(field, inner)]

def variableDeclaration (s : SourceText) (conv : Conversion) (n : Concrete) :
    Except Fault Tree := do
  let declarators := n.children.filter fun c => c.head.named && c.kind == "variable_declarator"
  match n.children with
  | [] => throw .tooFewChildren
  | keyword :: _ =>
    let declarations ← all conv declarators
    base s n "VariableDeclaration"
      [("kind", .text (text s keyword)), ("declarations", .list declarations)]

def variableDeclarator (s : SourceText) (conv : Conversion) (n : Concrete) :
    Except Fault Tree := do
  let id ← optional conv (n.child? "name")
  let init ← optional conv (n.child? "value")
  base s n "VariableDeclarator" [("id", id), ("init", init)]

/-- Removes the first child in a field. -/
def withoutField (field : String) : List Concrete → List Concrete
  | [] => []
  | c :: rest => if c.head.field == some field then rest else c :: withoutField field rest

/-- What an export statement exports directly, and its other children. -/
def exported (n : Concrete) : Option Concrete × List Concrete :=
  match n.child? "declaration" with
  | some d => (some d, withoutField "declaration" n.children)
  | none => (n.child? "value", withoutField "value" n.children)

def exportStatement (s : SourceText) (conv : Conversion) (n : Concrete) : Except Fault Tree := do
  let (declaration, others) := exported n
  if n.children.any fun c => c.kind == "default" then
    let d ← optional conv declaration
    base s n "ExportDefaultDeclaration" [("declaration", d)]
  else
    let d ← optional conv declaration
    let specifiers ← all conv (others.filter fun c => c.head.named && c.kind != "comment")
    base s n "ExportNamedDeclaration" [("declaration", d), ("specifiers", .list specifiers)]

def parameters (conv : Conversion) (n : Concrete) : Except Fault (List Tree) :=
  match n.child? "parameter" with
  | some single => all conv [single]
  | none =>
    match n.child? "parameters" with
    | some list => all conv list.parts
    | none => .ok []

def function (s : SourceText) (conv : Conversion) (n : Concrete) (kind : String) :
    Except Fault Tree := do
  let id ← optional conv (n.child? "name")
  let params ← parameters conv n
  let body ← optional conv (n.child? "body")
  base s n kind [("id", id), ("params", .list params), ("body", body)]

def arrowFunction (s : SourceText) (conv : Conversion) (n : Concrete) : Except Fault Tree := do
  let params ← parameters conv n
  let body ← optional conv (n.child? "body")
  let isExpression := (n.child? "body").any fun b => b.kind != "statement_block"
  base s n "ArrowFunctionExpression"
    [("params", .list params), ("body", body), ("expression", .bool isExpression)]

def logicalOperators : List String := ["&&", "||", "??"]

def binaryExpression (s : SourceText) (conv : Conversion) (n : Concrete) : Except Fault Tree := do
  match n.child? "operator" with
  | none => throw .missingChild
  | some o =>
    let left ← optional conv (n.child? "left")
    let right ← optional conv (n.child? "right")
    let kind := if logicalOperators.contains o.kind then "LogicalExpression" else "BinaryExpression"
    base s n kind [("operator", .text o.kind), ("left", left), ("right", right)]

def conditional (s : SourceText) (conv : Conversion) (n : Concrete) : Except Fault Tree := do
  let test ← optional conv (n.child? "condition")
  let consequent ← optional conv (n.child? "consequence")
  let alternate ← optional conv (n.child? "alternative")
  base s n "ConditionalExpression"
    [("test", test), ("consequent", consequent), ("alternate", alternate)]

/-- A text without its first and its last character. -/
def inner (s : String) : String := String.ofList (s.toList.drop 1).dropLast

/-- The name of a tag or of an attribute. -/
def markupName (s : SourceText) (n : Concrete) : Except Fault Tree :=
  if n.kind == "jsx_namespace_name" then leaf s n "JSXNamespacedName" "text"
  else if n.kind == "member_expression" || n.kind == "nested_identifier" then
    leaf s n "JSXMemberExpression" "text"
  else leaf s n "JSXIdentifier" "name"

def optionalName (s : SourceText) (n : Option Concrete) : Except Fault Tree :=
  match n with
  | none => .ok .null
  | some c => markupName s c

def markupAttribute (s : SourceText) (conv : Conversion) (n : Concrete) : Except Fault Tree := do
  let value ← optional conv (n.parts.drop 1).head?
  match n.parts.head? with
  | none => throw .tooFewChildren
  | some c =>
    let name ← markupName s c
    base s n "JSXAttribute" [("name", name), ("value", value)]

/-- What braces among the attributes spread. -/
def spreadTarget (n : Concrete) : Concrete :=
  if n.kind == "spread_element" then n.parts.head?.getD n else n

def spreadAttribute (s : SourceText) (conv : Conversion) (n : Concrete) : Except Fault Tree := do
  let argument ← optional conv (n.parts.head?.map spreadTarget)
  base s n "JSXSpreadAttribute" [("argument", argument)]

/-- The attributes among the parts of a tag. -/
def attributes (s : SourceText) (conv : Conversion) : List Concrete → Except Fault (List Tree)
  | [] => .ok []
  | c :: rest =>
    if c.kind == "jsx_attribute" then do
      let a ← markupAttribute s conv c
      let others ← attributes s conv rest
      return a :: others
    else if c.kind == "jsx_expression" then do
      let a ← spreadAttribute s conv c
      let others ← attributes s conv rest
      return a :: others
    else attributes s conv rest

def openingTag (s : SourceText) (conv : Conversion) (n : Concrete) (selfClosing : Bool) :
    Except Fault Tree := do
  let attrs ← attributes s conv n.parts
  let name ← optionalName s (n.child? "name")
  base s n "JSXOpeningElement"
    [("name", name), ("attributes", .list attrs), ("selfClosing", .bool selfClosing)]

def closingTag (s : SourceText) (n : Concrete) : Except Fault Tree := do
  let name ← optionalName s (n.child? "name")
  base s n "JSXClosingElement" [("name", name)]

/-- A closing tag that may be absent. -/
def optionalTag (close : Concrete → Except Fault Tree) (n : Option Concrete) : Except Fault Tree :=
  match n with
  | none => .ok .null
  | some c => close c

def tagKinds : List String := ["jsx_opening_element", "jsx_closing_element"]

/-- An element with two tags; it is a fragment when the opening one has no name. -/
def element (s : SourceText) (conv : Conversion) (n : Concrete) : Except Fault Tree := do
  let children ← all conv (n.parts.filter fun c => !tagKinds.contains c.kind)
  match n.child? "open_tag" with
  | none => throw .missingChild
  | some opening =>
    let closing := n.child? "close_tag"
    match opening.child? "name" with
    | none =>
      let first ← base s opening "JSXOpeningFragment" []
      let last ← optionalTag (base s · "JSXClosingFragment" []) closing
      base s n "JSXFragment"
        [("openingFragment", first), ("closingFragment", last), ("children", .list children)]
    | some _ =>
      let first ← openingTag s conv opening false
      let last ← optionalTag (closingTag s) closing
      base s n "JSXElement"
        [("openingElement", first), ("closingElement", last), ("children", .list children)]

def selfClosingElement (s : SourceText) (conv : Conversion) (n : Concrete) : Except Fault Tree := do
  let opening ← openingTag s conv n true
  base s n "JSXElement"
    [("openingElement", opening), ("closingElement", .null), ("children", .list [])]

def container (s : SourceText) (conv : Conversion) (n : Concrete) : Except Fault Tree := do
  let expression ←
    match n.parts.head? with
    | some c => optional conv (some c)
    | none => base s n "JSXEmptyExpression" []
  base s n "JSXExpressionContainer" [("expression", expression)]

/-- The rule for each kind of node other than parentheses. -/
def rule (s : SourceText) (conv : Conversion) (n : Concrete) : Except Fault Tree :=
  match n.kind with
  | "program" => sequence s conv n "Program" "body"
  | "statement_block" => sequence s conv n "BlockStatement" "body"
  | "expression_statement" => wrapper s conv n "ExpressionStatement" "expression"
  | "return_statement" => wrapper s conv n "ReturnStatement" "argument"
  | "lexical_declaration" => variableDeclaration s conv n
  | "variable_declaration" => variableDeclaration s conv n
  | "variable_declarator" => variableDeclarator s conv n
  | "arrow_function" => arrowFunction s conv n
  | "export_statement" => exportStatement s conv n
  | "binary_expression" => binaryExpression s conv n
  | "ternary_expression" => conditional s conv n
  | "jsx_element" => element s conv n
  | "jsx_self_closing_element" => selfClosingElement s conv n
  | "jsx_expression" => container s conv n
  | "jsx_text" => leaf s n "JSXText" "value"
  | "string" => base s n "StringLiteral" [("value", .text (inner (text s n)))]
  | "null" => base s n "NullLiteral" []
  | "true" => base s n "BooleanLiteral" [("value", .bool true)]
  | "false" => base s n "BooleanLiteral" [("value", .bool false)]
  | "number" => leaf s n "NumericLiteral" "raw"
  | "function_declaration" => function s conv n "FunctionDeclaration"
  | "generator_function_declaration" => function s conv n "FunctionDeclaration"
  | "function_expression" => function s conv n "FunctionExpression"
  | "function" => function s conv n "FunctionExpression"
  | "generator_function" => function s conv n "FunctionExpression"
  | "identifier" => leaf s n "Identifier" "name"
  | "property_identifier" => leaf s n "Identifier" "name"
  | "shorthand_property_identifier" => leaf s n "Identifier" "name"
  | kind => sequence s conv n kind "children"

/-- Parentheses become what stands inside them. -/
def step (s : SourceText) (conv : Conversion) : Conversion := fun n =>
  if n.kind == "parenthesized_expression" then
    match n.parts.head? with
    | some c => conv c
    | none => .ok none
  else (rule s conv n).map some

end Convert

/-- The conversion of nodes of at most the given height. -/
def convertTo (s : SourceText) : Nat → Conversion
  | 0 => fun _ => .ok none
  | height + 1 => Convert.step s (convertTo s height)

def convert (s : SourceText) (n : Concrete) : Except Fault (Option Tree) := convertTo s n.height n

/-- Why a concrete tree gives no tree. -/
inductive ParseError where
  /-- The source is malformed at a line and a column. -/
  | syntaxError (line column : Nat)
  | fault (fault : Fault)

def ParseError.message? : ParseError → Option String
  | .syntaxError line column => some s!"Unable to parse source ({line}:{column})"
  | .fault _ => none

/-- The tree of a file: its program below a node that spans the whole text. -/
def fileOfConcrete (source : String) (root : Concrete) : Except ParseError Tree :=
  let s := SourceText.ofString source
  if root.head.hasError then
    let (line, column) := s.position root.firstError.head.start
    .error (.syntaxError line column)
  else
    match convert s root with
    | .error fault => .error (.fault fault)
    | .ok program =>
      .ok (.object [("type", .text "File"), ("start", .int 0), ("end", .int source.length),
        ("program", program.getD .null)])

end TopTag
