import TopTag.Source.Template

/-!
# Types

Types are read for their extent only: they hold no markup. Whatever follows a colon in a
declaration, stands between angle brackets or is declared as a type comes from here.
-/

namespace TopTag.Source

open Rule

namespace Types

/-- Types between angle brackets. -/
def arguments (g : Grammar) : Rule :=
  whole "type_arguments" (symbol "<" ++ listed1 (g .type) ++ opt (symbol ",") ++ symbol ">")

def parameterWords : List String := ["const", "in", "out"]

/-- A word that only modifies the name after it. -/
def modifier (ws : List String) : Rule :=
  when (fun c => ws.contains c.nextWord && c.afterWord.nextWord != ""
    && c.afterWord.nextWord != "extends") (oneOfWords ws)

def parameter (g : Grammar) : Rule :=
  many (modifier parameterWords) ++ name "type_identifier" ++ opt (word "extends" ++ g .type)
    ++ opt (symbolUnless "=" "=>" ++ g .type)

def parameters (g : Grammar) : Rule :=
  whole "type_parameters" (symbol "<" ++ listed1 (parameter g) ++ opt (symbol ",") ++ symbol ">")

/-- What a function returns: a type, or a statement about one of its arguments. -/
def result (g : Grammar) : Rule :=
  (word "asserts" ++ nameUnless "identifier" ["is"] ++ opt (word "is" ++ g .type))
    <|> (name "identifier" ++ word "is" ++ g .type) <|> g .type

def annotated (g : Grammar) : Rule := whole "type_annotation" (symbol ":" ++ g .type)

def annotatedResult (g : Grammar) : Rule := whole "type_annotation" (symbol ":" ++ result g)

/-- Parameters with what stands around them in every function. -/
def signature (g : Grammar) : Rule :=
  opt (parameters g) ++ field "parameters" (g .parameters) ++ opt (annotatedResult g)

def functionType (g : Grammar) : Rule :=
  opt (word "abstract") ++ opt (word "new") ++ opt (parameters g) ++ g .parameters ++ symbol "=>"
    ++ result g

/-- A function type can begin here. -/
def beginsFunction (c : Cursor) : Bool :=
  c.nextIn "(<" || c.nextWord == "new"
    || (c.nextWord == "abstract" && c.afterWord.nextWord == "new")

/-- What `typeof` asks about. -/
def query (g : Grammar) : Rule :=
  ((word "import" ++ parenthesized (g .type)) <|> name "identifier")
    ++ many ((symbolUnless "." "." <|> symbol "?.") ++ opt (symbol "#")
      ++ name "property_identifier")
    ++ opt (arguments g)

/-- Names with dots between them. -/
def qualifiedName : Rule :=
  name "type_identifier" ++ many (symbolUnless "." "." ++ name "type_identifier")

/-- A name before the type of a tuple's item. -/
def itemLabel : Rule := name "identifier" ++ opt (symbol "?") ++ symbol ":"

def tuple (g : Grammar) : Rule :=
  bracketed (listed (opt (symbol "...") ++ opt itemLabel ++ g .type ++ opt (symbolUnless "?" "?.")))

/-! ## Members of an object type -/

/-- A name of a member. -/
def memberName (g : Grammar) : Rule :=
  name "property_identifier" <|> (symbol "#" ++ name "private_property_identifier")
    <|> stringLiteral <|> numberLiteral <|> bracketed (plainExpression g)

/-- A bracket with a key's type or a range of keys. -/
def keyRange (g : Grammar) : Rule :=
  bracketed (name "identifier" ++ (symbol ":" <|> word "in") ++ g .type
    ++ opt (word "as" ++ g .type))

/-- A mark that a member may be left out. -/
def optionality : Rule := opt (symbol "?" <|> symbol "-?" <|> symbol "+?")

/-- Something follows that only a member's name can precede. -/
def endsMemberName (c : Cursor) : Bool := c.next?.isNone || c.nextIn "(<?:;,=!" || c.nextIn "\x7d"

def memberModifiers : List String := ["readonly", "get", "set", "static", "public", "private",
  "protected", "abstract", "override", "declare"]

/-- Words before a member's name. -/
def memberWords : Rule :=
  many (when (fun c => memberModifiers.contains c.nextWord && !endsMemberName c.afterWord)
    (oneOfWords memberModifiers))

def member (g : Grammar) : Rule :=
  symbol ";" <|> symbol ","
    <|> (opt (symbol "+" <|> symbol "-") ++ memberWords
      ++ (keyRange g <|> before "(<" nothing
        <|> (when (fun c => c.nextWord == "new" && c.afterWord.nextIn "(<") (word "new"))
        <|> memberName g)
      ++ optionality ++ opt (before "(<" (signature g)) ++ opt (annotatedResult g))

def objectType (g : Grammar) : Rule := whole "object_type" (braced (many (member g)))

/-! ## Types by how tightly they bind -/

def primary (g : Grammar) : Rule := fun c =>
  match c.next? with
  | some '(' => parenthesized (g .type) c
  | some '\x7b' => objectType g c
  | some '[' => tuple g c
  | some '"' => stringLiteral c
  | some '\'' => stringLiteral c
  | some '-' => (symbol "-" ++ numberLiteral) c
  | some ch =>
    if ch == Char.ofNat 0x60 then template (g .type) c
    else if ch.isDigit || ch == '.' then numberLiteral c
    else if c.nextWord == "import" then
      (word "import" ++ parenthesized (g .type)
        ++ many (symbolUnless "." "." ++ name "type_identifier") ++ opt (arguments g)) c
    else (qualifiedName ++ opt (arguments g)) c
  | none => none

/-- Brackets after a type on the same line. -/
def suffix (g : Grammar) : Rule := when (!·.lineEndsBefore) (bracketed (opt (g .type)))

def operatorWords : List String := ["keyof", "unique", "readonly"]

/-- A type can begin here. -/
def begins (c : Cursor) : Bool :=
  c.nextWord != "" || c.nextIn "([\"'-" || c.nextIn "\x7b"
    || c.next?.any fun ch => ch.isDigit || ch == Char.ofNat 0x60

/-- A type with the operators before it; `fuel` bounds how many there are. -/
def prefixed (g : Grammar) : Nat → Rule
  | 0, _ => none
  | fuel + 1, c =>
    let w := c.nextWord
    if operatorWords.contains w && begins c.afterWord
        && !(["extends", "is"].contains c.afterWord.nextWord) then
      (oneOfWords operatorWords ++ prefixed g fuel) c
    else if w == "infer" && c.afterWord.nextWord != "" then
      (word "infer" ++ name "type_identifier"
        ++ opt (word "extends" ++ prefixed g fuel ++ before ",)>|&]" nothing)) c
    else if w == "typeof" then (word "typeof" ++ query g ++ many (suffix g)) c
    else (primary g ++ many (suffix g)) c

def operand (g : Grammar) : Rule := fun c => prefixed g c.bound c

def intersection (g : Grammar) : Rule :=
  opt (symbolUnless "&" "&") ++ operand g ++ many (symbolUnless "&" "&" ++ operand g)

def union (g : Grammar) : Rule :=
  opt (symbolUnless "|" "|") ++ intersection g ++ many (symbolUnless "|" "|" ++ intersection g)

def conditionalRest (g : Grammar) : Rule :=
  word "extends" ++ g .type ++ symbol "?" ++ g .type ++ symbol ":" ++ g .type

end Types

/-- A type of any form. -/
def type (g : Grammar) : Rule :=
  whole "type"
    (when Types.beginsFunction (Types.functionType g)
      <|> (Types.union g ++ opt (Types.conditionalRest g)))

end TopTag.Source
