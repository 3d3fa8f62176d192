import TopTag.Source.Binding
import TopTag.Source.Semicolon

/-!
# Functions and classes

Functions with a body of statements, the members of classes, and the classes themselves.
-/

namespace TopTag.Source

open Rule

def body (g : Grammar) : Rule := field "body" (g .block)

/-- The word `function` with what may stand beside it. -/
def functionWords : Rule := opt (word "async") ++ word "function" ++ opt (symbol "*")

/-- A function as an expression, with or without a name. -/
def functionExpression (g : Grammar) : Rule := fun c =>
  let afterWord := if c.nextWord == "async" then c.afterWord.afterWord else c.afterWord
  let kind := if afterWord.nextIn "*" then "generator_function" else "function_expression"
  node kind (functionWords ++ opt (field "name" (name "identifier")) ++ Types.signature g
    ++ body g) c

/-- A function that is declared under its name; without a body it is only announced. -/
def functionDeclaration (g : Grammar) : Rule := fun c =>
  let afterWord := if c.nextWord == "async" then c.afterWord.afterWord else c.afterWord
  let kind := if afterWord.nextIn "*" then "generator_function_declaration"
    else "function_declaration"
  match (functionWords ++ field "name" (name "identifier") ++ Types.signature g) c with
  | some (first :: others, d) =>
    if d.nextIn "\x7b" then do
      let (last, d) ← body g d
      return ([Concrete.spanning kind first (others ++ last)], d)
    else do
      let (last, d) ← semicolon d
      return ([Concrete.spanning "function_signature" first (others ++ last)], d)
  | _ => none

/-! ## Classes -/

namespace Class

def modifiers : List String :=
  ["public", "private", "protected", "static", "abstract", "override", "readonly", "declare",
   "async", "accessor", "get", "set"]

/-- Words before a member's name. -/
def modifierWords : Rule :=
  many (when (fun c => modifiers.contains c.nextWord && !Types.endsMemberName c.afterWord)
    (oneOfWords modifiers))

/-- A member's name in its field. -/
def memberName (g : Grammar) : Rule := fun c =>
  if c.nextIn "#" then
    field "name" (whole "private_property_identifier" (symbol "#" ++ name "identifier")) c
  else if c.nextIn "[" then
    field "name" (node "computed_property_name" (bracketed (plainExpression g))) c
  else field "name" (name "property_identifier" <|> stringLiteral <|> numberLiteral) c

/-- A block that runs when the class is made. -/
def staticBlock (g : Grammar) : Rule :=
  node "class_static_block" (word "static" ++ before "\x7b" (body g))

def indexSignature (g : Grammar) : Rule :=
  node "index_signature" (modifierWords ++ Types.keyRange g ++ Types.optionality
    ++ Types.annotated g ++ (semicolon <|> symbol ","))

/-- The end of a member without a body. -/
def memberEnd : Rule := semicolon <|> symbol ","

/-- A method or a field. -/
def member (g : Grammar) : Rule := fun c => do
  let (head, d) ← (modifierWords ++ opt (symbol "*") ++ memberName g
    ++ opt (symbol "?" <|> symbolUnless "!" "=")) c
  if d.nextIn "(<" then
    let (signature, d) ← Types.signature g d
    if d.nextIn "\x7b" then
      let (last, d) ← body g d
      Rule.gather "method_definition" (head ++ signature ++ last) d
    else
      let (nodes, d) ← Rule.gather "method_signature" (head ++ signature) d
      let (last, d) ← memberEnd d
      return (nodes ++ last, d)
  else
    let (rest, d) ← (opt (field "type" (Types.annotated g)) ++ opt (initializer g {})) d
    let (nodes, d) ← Rule.gather "public_field_definition" (head ++ rest) d
    let (last, d) ← memberEnd d
    return (nodes ++ last, d)

def anyMember (g : Grammar) : Rule :=
  symbol ";" <|> before "@" (decorator g)
    <|> when (fun c => c.nextWord == "static" && c.afterWord.nextIn "\x7b") (staticBlock g)
    <|> indexSignature g <|> member g

def classBody (g : Grammar) : Rule := field "body" (node "class_body" (braced (many (anyMember g))))

/-- What a class extends and implements. -/
def heritage (g : Grammar) : Rule :=
  opt (node "class_heritage"
    ((node "extends_clause" (word "extends" ++ field "value" (g .callee)
        ++ opt (before "<" (Types.arguments g)))
      ++ opt (whole "implements_clause" (word "implements" ++ listed1 (g .type))))
    <|> whole "implements_clause" (word "implements" ++ listed1 (g .type))))

/-- Everything after the word `class`. -/
def rest (g : Grammar) : Rule :=
  opt (nameUnless "type_identifier" ["extends", "implements"])
    ++ opt (before "<" (Types.parameters g)) ++ heritage g ++ classBody g

end Class

def classExpression (g : Grammar) : Rule :=
  node "class" (many (decorator g) ++ word "class" ++ Class.rest g)

def classDeclaration (g : Grammar) : Rule := fun c =>
  (node "class_declaration" (many (decorator g) ++ word "class" ++ Class.rest g
      ++ opt omittedSemicolon)
    <|> node "abstract_class_declaration" (many (decorator g) ++ word "abstract" ++ word "class"
      ++ Class.rest g)) c

end TopTag.Source
