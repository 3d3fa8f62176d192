import TopTag.Source.Semicolon
import TopTag.Source.Types

/-!
# Markup

Elements in the source: tags with attributes, and between two tags text, character references,
expressions in braces and further elements. The names of the two tags need not agree. White space
after a line end is no text unless something else stands in the same run.
-/

namespace TopTag.Source

open Rule

namespace Markup

/-! ## Character references -/

/-- The length of a character reference: a name, a decimal or a hexadecimal code. -/
def referenceLength? : List Char → Option Nat
  | '&' :: '#' :: m :: cs =>
    if m == 'x' || m == 'X' then
      let n := (cs.takeWhile isHexDigit).length
      if 1 ≤ n && n ≤ 6 && (cs.drop n).head? == some ';' then some (n + 4) else none
    else
      let ds := m :: cs
      let n := (ds.takeWhile Char.isDigit).length
      if 1 ≤ n && n ≤ 5 && (ds.drop n).head? == some ';' then some (n + 3) else none
  | '&' :: cs =>
    let n := (cs.takeWhile Char.isAlpha).length
    if 1 ≤ n && n ≤ 30 && (cs.drop n).head? == some ';' then some (n + 2) else none
  | _ => none

def reference : Rule := fun c =>
  match referenceLength? c.rest with
  | some n => lexeme "html_character_reference" true n c
  | none => none

/-! ## Attribute strings -/

/-- The longest run of an attribute's text. An ampersand is text together with the character after
it unless a reference could begin there. -/
def attributeRun (quote : Char) : List Char → Nat
  | [] => 0
  | ['&'] => 0
  | '&' :: d :: cs => if d == '#' || d.isAlpha then 0 else 2 + attributeRun quote cs
  | c :: cs => if c == quote then 0 else 1 + attributeRun quote cs

/-- The number of characters up to and with an attribute's closing quote. The first `known`
characters are part of the text for certain. -/
def attributeStringRest? (quote : Char) : Nat → List Char → Option Nat
  | _, [] => none
  | known + 1, _ :: cs => (attributeStringRest? quote known cs).map (1 + ·)
  | 0, c :: cs =>
    if c == quote then some 1
    else
      let taken := attributeRun quote (c :: cs) + (referenceLength? (c :: cs)).getD 0
      if taken == 0 then none else (attributeStringRest? quote (taken - 1) cs).map (1 + ·)

def attributeStringLength? : List Char → Option Nat
  | c :: cs =>
    if c == '"' || c == '\'' then (attributeStringRest? c 0 cs).map (1 + ·) else none
  | [] => none

/-! ## Names and attributes -/

def hasDash (c : Cursor) : Bool :=
  let cs := c.trivia.rest
  markupNameLength? cs != nameLength? cs

/-- A name with a namespace before a colon. -/
def namespaceName : Rule :=
  node "jsx_namespace_name" (measured "identifier" markupNameLength? ++ symbol ":"
    ++ measured "identifier" markupNameLength?)

/-- Members of a name from the left. -/
def memberNames : Nat → Concrete → Cursor → Concrete × Cursor
  | 0, left, c => (left, c)
  | fuel + 1, left, c =>
    match (symbol "." ++ name "property_identifier") c with
    | some (more, d) => memberNames fuel (Concrete.spanning "member_expression" left more) d
    | none => (left, c)

/-- A name or a chain of members. -/
def memberName : Rule := fun c =>
  match name "identifier" c with
  | some ([left], d) =>
    let (n, d) := memberNames d.bound left d
    some ([n], d)
  | _ => none

def tagName : Rule :=
  namespaceName <|> when hasDash (measured "identifier" markupNameLength?) <|> memberName

/-- Braces with an expression, a spread or nothing. -/
def braces (g : Grammar) : Rule :=
  node "jsx_expression" (braced (opt
    (node "spread_element" (symbol "..." ++ plainExpression g) <|> expressions g {})))

def attributeValue (g : Grammar) : Rule :=
  measured "string" attributeStringLength? <|> before "\x7b" (braces g) <|> g .element

/-- A name with its value, if it has one. -/
def namedAttribute (g : Grammar) : Rule :=
  node "jsx_attribute" ((namespaceName <|> measured "property_identifier" markupNameLength?)
    ++ opt (symbol "=" ++ attributeValue g))

/-- An attribute; an equals sign is not left without a value. -/
def attributeOf (g : Grammar) : Rule := fun c =>
  if c.nextIn "\x7b" then braces g c
  else
    match namedAttribute g c with
    | some (nodes, d) => if d.nextIn "=" then none else some (nodes, d)
    | none => none

/-- A tag's beginning up to the end of its attributes. -/
def tagHead (g : Grammar) : Rule :=
  symbolUnless "<" "/" ++ opt (field "name" tagName
    ++ opt (before "<" (field "type_arguments" (Types.arguments g)))
    ++ many (field "attribute" (attributeOf g)))

def closingTag : Rule :=
  node "jsx_closing_element" (symbol "</" ++ opt (field "name" tagName) ++ symbol ">")

/-! ## Children -/

def endsText (c : Char) : Bool :=
  c == '<' || c == '>' || c == '&' || c == '\x7b' || c == '\x7d'

/-- A run is text unless it only lays lines out: white space with a line end in it. -/
def holdsText (run : List Char) : Bool := !(run.all isSemicolonSpace && run.contains '\n')

/-- The run of text at the cursor: a node if it holds text, nothing otherwise. -/
def text : Rule := fun c =>
  let run := c.rest.takeWhile (!endsText ·)
  if run.isEmpty then none
  else if holdsText run then lexeme "jsx_text" true run.length c
  else some ([], c.drop run.length)

def child (g : Grammar) : Rule := fun c =>
  match c.rest with
  | '\x7b' :: _ => braces g c
  | '&' :: _ => reference c
  | '<' :: '/' :: _ => none
  | '<' :: _ => g .element c
  | _ => text c

/-- What follows a tag's attributes: its end, or its children and the closing tag. -/
def elementRest (g : Grammar) (head : Concrete) (others : List Concrete) : Rule := fun c =>
  match symbol "/>" c with
  | some (last, d) =>
    some ([Concrete.spanning "jsx_self_closing_element" head (others ++ last)], d)
  | none => do
    let (last, d) ← symbol ">" c
    let opening := Concrete.spanning "jsx_opening_element" head (others ++ last)
    let (inside, d) ← (many (child g) ++ field "close_tag" closingTag) d
    return ([Concrete.spanning "jsx_element" (opening.withField "open_tag") inside], d)

end Markup

/-- An element or a fragment. -/
def element (g : Grammar) : Rule := fun c =>
  match Markup.tagHead g c with
  | some (head :: others, d) => Markup.elementRest g head others d
  | _ => none

end TopTag.Source
