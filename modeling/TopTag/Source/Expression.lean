import TopTag.Source.Class
import TopTag.Source.Markup

/-!
# Expressions

Binary operators group by how tightly they bind, and from the left among equals but for the power.
Calls, members and the like attach to the expression on their left; an assignment takes everything
on its right.
-/

namespace TopTag.Source

open Rule

/-! ## Arrow functions -/

/-- The parameters of an arrow function up to its arrow. -/
def arrowHead (g : Grammar) (mode : Mode) : Rule :=
  opt (before "<" (Types.parameters g)) ++ before "(" (field "parameters" (g .parameters))
    ++ (if mode.returnType then opt (Types.annotatedResult g) else nothing) ++ symbol "=>"

/-- A single name before an arrow. -/
def bareArrowHead : Rule := field "parameter" (name "identifier") ++ symbol "=>"

/-- A function's body: a block, or an expression. -/
def arrowBody (g : Grammar) (mode : Mode) : Rule := fun c =>
  if c.nextIn "\x7b" then body g c else field "body" (g (.expression mode)) c

/-- An arrow function with the given head, if it is there. Once its arrow is read nothing else is
tried, so the outer result is `none` only where there is no arrow. -/
def arrowFrom (g : Grammar) (mode : Mode) (head : Rule) (c : Cursor) :
    Option (Option (List Concrete × Cursor)) :=
  (head c).map fun (nodes, d) => do
    let (last, d) ← arrowBody g mode d
    gather "arrow_function" (nodes ++ last) d

/-- An arrow function, or else what another rule reads. -/
def arrowOr (g : Grammar) (mode : Mode) (head other : Rule) : Rule := fun c =>
  match arrowFrom g mode head c with
  | some read => read
  | none => other c

/-! ## Expressions that stand by themselves -/

def parenthesizedExpression (g : Grammar) : Rule :=
  node "parenthesized_expression"
    (parenthesized (expressions g {} ++ opt (field "type" (Types.annotated g))))

def spread (g : Grammar) : Rule := node "spread_element" (symbol "..." ++ plainExpression g)

def array (g : Grammar) : Rule :=
  node "array" (bracketed (listed (spread g <|> plainExpression g)))

def pairKey (g : Grammar) : Rule :=
  field "key" (name "property_identifier" <|> stringLiteral <|> numberLiteral
    <|> node "computed_property_name" (bracketed (plainExpression g)))

/-- A name that is key and value at once, with a default where the object is a pattern. -/
def shorthand (g : Grammar) : Rule :=
  Pattern.withDefault g "object_assignment_pattern" (name "shorthand_property_identifier")

def methodWords : List String := ["async", "get", "set", "static"]

/-- Words and marks before a method's name. -/
def methodModifiers : Rule :=
  many (when (fun c => methodWords.contains c.nextWord && !Types.endsMemberName c.afterWord)
    (oneOfWords methodWords)) ++ opt (symbol "*")

/-- A method of an object; `none` where no method begins, apart from one that is malformed. -/
def methodFrom (g : Grammar) (c : Cursor) : Option (Option (List Concrete × Cursor)) :=
  match (methodModifiers ++ Class.memberName g ++ opt (symbol "?")) c with
  | some (head, d) =>
    if d.nextIn "(<" then
      some do
        let (more, d) ← (Types.signature g ++ body g) d
        gather "method_definition" (head ++ more) d
    else none
  | none => none

/-- A key with its value, or a name that is both. -/
def pairOrShorthand (g : Grammar) : Rule := fun c =>
  match pairKey g c with
  | some (key, d) =>
    if d.nextIn ":" then do
      let (more, d) ← (symbol ":" ++ field "value" (plainExpression g)) d
      gather "pair" (key ++ more) d
    else shorthand g c
  | none => none

def objectMember (g : Grammar) : Rule := fun c =>
  if c.nextIn "." then spread g c
  else
    match methodFrom g c with
    | some read => read
    | none => pairOrShorthand g c

def object (g : Grammar) : Rule := node "object" (braced (listed (objectMember g)))

def templateString (g : Grammar) : Rule := template (expressions g {})

/-- The words that stand for a value of their own. -/
def valueWords : List String := ["this", "super", "null", "true", "false", "undefined"]

/-- A name, which is a parameter if an arrow follows it. -/
def identifier (g : Grammar) (mode : Mode) : Rule :=
  arrowOr g mode bareArrowHead (name "identifier")

/-- An arrow function that waits, or the name `async`. -/
def asyncFunction (g : Grammar) (mode : Mode) : Rule := fun c =>
  if c.afterWord.nextWord == "function" && !c.afterWord.lineEndsBefore then functionExpression g c
  else
    match arrowFrom g mode (word "async" ++ arrowHead g mode) c with
    | some read => read
    | none =>
      match arrowFrom g mode (word "async" ++ bareArrowHead) c with
      | some read => read
      | none => identifier g mode c

/-- What the word `new` makes an instance of: an expression with members but without calls. -/
def constructorMembers (g : Grammar) : Nat → Concrete → Cursor → Concrete × Cursor
  | 0, left, c => (left, c)
  | fuel + 1, left, c =>
    match (symbolUnless "." "." ++ propertyName) c with
    | some (more, d) =>
      constructorMembers g fuel (Concrete.spanning "member_expression" left more) d
    | none =>
      match bracketed (expressions g {}) c with
      | some (more, d) =>
        constructorMembers g fuel (Concrete.spanning "subscript_expression" left more) d
      | none => (left, c)

/-- The arguments of an instance, which may be left out. -/
def instanceArguments (g : Grammar) : Rule :=
  opt (before "<" (Types.arguments g ++ before "(" nothing))
    ++ opt (before "(" (field "arguments" (arguments g)))

/-- A new instance. `primaryRule` reads where its constructor begins. -/
def newExpression (g : Grammar) (primaryRule : Rule) : Rule := fun c =>
  if c.afterWord.nextIn "." then
    whole "meta_property" (word "new" ++ symbol "." ++ word "target") c
  else
    match (word "new" ++ primaryRule) c with
    | some ([first, left], d) => do
      let (callee, d) := constructorMembers g d.bound left d
      let (more, d) ← instanceArguments g d
      gather "new_expression" ([first, callee.withField "constructor"] ++ more) d
    | _ => none

/-- The word `import` as the callee of a call or before a member. -/
def importExpression : Rule := fun c =>
  if c.afterWord.nextIn "." then
    whole "meta_property" (word "import" ++ symbol "." ++ name "property_identifier") c
  else whole "import" (word "import" ++ before "(" nothing) c

/-- An element, or an arrow function with type parameters. -/
def elementOrArrow (g : Grammar) (mode : Mode) : Rule := fun c =>
  match g .element c with
  | some read => some read
  | none => (arrowFrom g mode (arrowHead g mode) c).getD none

/-- An expression that no operator takes part in. `fuel` bounds the words `new` in a row. -/
def primary (g : Grammar) (mode : Mode) : Nat → Rule
  | 0, _ => none
  | fuel + 1, c =>
    match c.next? with
    | none => none
    | some '(' => arrowOr g mode (arrowHead g mode) (parenthesizedExpression g) c
    | some '[' => array g c
    | some '\x7b' => object g c
    | some '<' => elementOrArrow g mode c
    | some '"' => stringLiteral c
    | some '\'' => stringLiteral c
    | some '/' => measured "regex" regexLength? c
    | some '#' =>
      (whole "private_property_identifier" (symbol "#" ++ name "identifier")
        ++ when (·.nextWord == "in") nothing) c
    | some '@' => classExpression g c
    | some ch =>
      if ch == Char.ofNat 0x60 then templateString g c
      else if ch.isDigit || ch == '.' then numberLiteral c
      else
        let w := c.nextWord
        if w == "function" then functionExpression g c
        else if w == "async" then asyncFunction g mode c
        else if w == "class" then classExpression g c
        else if w == "new" then newExpression g (primary g mode fuel) c
        else if w == "import" then importExpression c
        else if valueWords.contains w then whole w (word w) c
        else identifier g mode c

/-! ## Calls and members -/

/-- Types in angle brackets stand by themselves if what follows cannot go on with a comparison. -/
def endsInstantiation (c : Cursor) : Bool :=
  c.next?.isNone || c.lineEndsBefore || c.nextIn ")],;:." || c.nextIn "\x7d"

/-- The part of an expression after a question mark and a point. -/
def optionalPart (g : Grammar) (left : Concrete) : Rule := fun c => do
  let (chain, d) ← whole "optional_chain" (symbol "?.") c
  if d.nextIn "(<" then
    let (more, d) ← (opt (before "<" (Types.arguments g)) ++ field "arguments" (arguments g)) d
    return ([Concrete.spanning "call_expression" (left.withField "function") (chain ++ more)], d)
  else if d.nextIn "[" then
    let (more, d) ← bracketed (field "index" (expressions g {})) d
    return ([Concrete.spanning "subscript_expression" (left.withField "object") (chain ++ more)], d)
  else
    let (more, d) ← propertyName d
    return ([Concrete.spanning "member_expression" (left.withField "object") (chain ++ more)], d)

/-- A call with type arguments, or an expression with its types fixed. -/
def typedPart (g : Grammar) (left : Concrete) : Rule := fun c => do
  let (types, d) ← Types.arguments g c
  if d.nextIn "(" then
    let (more, d) ← field "arguments" (arguments g) d
    return ([Concrete.spanning "call_expression" (left.withField "function") (types ++ more)], d)
  else if d.nextIn "`" then
    let (more, d) ← field "arguments" (templateString g) d
    return ([Concrete.spanning "call_expression" (left.withField "function") (types ++ more)], d)
  else if endsInstantiation d then
    return ([Concrete.spanning "instantiation_expression" left types], d)
  else none

/-- One more call, member or mark after an expression. -/
def part (g : Grammar) (left : Concrete) : Rule := fun c =>
  let wrap (kind leftField : String) (r : Rule) : Option (List Concrete × Cursor) :=
    (r c).map fun (more, d) => ([Concrete.spanning kind (left.withField leftField) more], d)
  match c.trivia.rest with
  | '.' :: '.' :: _ => none
  | '.' :: _ => wrap "member_expression" "object" (symbol "." ++ propertyName)
  | '?' :: '.' :: d :: _ => if d.isDigit then none else optionalPart g left c
  | '[' :: _ => wrap "subscript_expression" "object" (bracketed (field "index" (expressions g {})))
  | '(' :: _ => wrap "call_expression" "function" (field "arguments" (arguments g))
  | '<' :: d :: _ => if d == '<' || d == '=' then none else typedPart g left c
  | '!' :: '=' :: _ => none
  | '!' :: _ =>
    if c.lineEndsBefore then none else wrap "non_null_expression" "operand" (symbol "!")
  | ch :: _ =>
    if ch == Char.ofNat 0x60 then
      wrap "call_expression" "function" (field "arguments" (templateString g))
    else none
  | [] => none

/-- Nothing attaches to an arrow function that ends in an expression. -/
def isClosed (n : Concrete) : Bool :=
  !(n.kind == "arrow_function" && (n.child? "body").any fun b => b.kind != "statement_block")

def parts (g : Grammar) : Nat → Concrete → Cursor → Concrete × Cursor
  | 0, left, c => (left, c)
  | fuel + 1, left, c =>
    if isClosed left then
      match part g left c with
      | some ([next], d) => parts g fuel next d
      | _ => (left, c)
    else (left, c)

/-- An expression with the calls and members after it. -/
def calleeIn (g : Grammar) (mode : Mode) : Rule := fun c =>
  match primary g mode c.bound c with
  | some ([first], d) =>
    let (n, d) := parts g d.bound first d
    some ([n], d)
  | _ => none

def callee (g : Grammar) : Rule := calleeIn g {}

/-! ## Operators -/

/-- What can stand on the left of an assignment. -/
def targetKinds : List String :=
  ["identifier", "member_expression", "subscript_expression", "object", "array",
   "parenthesized_expression", "non_null_expression", "undefined"]

def assignmentSymbols : List String :=
  [">>>=", "**=", "<<=", ">>=", "&&=", "||=", "??=", "+=", "-=", "*=", "/=", "%=", "&=", "^=", "|="]

def assignmentSymbol : Rule := fun c =>
  let c := c.trivia
  match assignmentSymbols.find? c.startsWith with
  | some s => lexeme s false s.length c
  | none => none

/-- The rest of an assignment to an expression. -/
def assignmentTo (g : Grammar) (mode : Mode) (left : Concrete) : Rule := fun c =>
  if targetKinds.contains left.kind then
    match symbolUnless "=" "=>" c with
    | some (sign, d) => do
      let (right, d) ← field "right" (g (.expression mode)) d
      gather "assignment_expression" (left.withField "left" :: sign ++ right) d
    | none => do
      let (sign, d) ← assignmentSymbol c
      let (right, d) ← field "right" (g (.expression mode)) d
      gather "augmented_assignment_expression" (left.withField "left" :: sign ++ right) d
  else none

/-- An assignment to the target begins here. -/
def beginsAssignment (left : Concrete) (c : Cursor) : Bool :=
  targetKinds.contains left.kind
    && ((symbolUnless "=" "=>" c).isSome || (assignmentSymbol c).isSome)

/-- An expression with what attaches to it: a mark of increase, or an assignment. -/
def target (g : Grammar) (mode : Mode) : Rule := fun c =>
  match calleeIn g mode c with
  | some ([left], d) =>
    if beginsAssignment left d then assignmentTo g mode left d
    else if d.lineEndsBefore then some ([left], d)
    else
      match (symbol "++" <|> symbol "--") d with
      | some (sign, e) => some ([Concrete.spanning "update_expression" left sign], e)
      | none => some ([left], d)
  | _ => none

def unaryWords : List String := ["typeof", "void", "delete"]

/-- The name of a resource that is assigned where it is declared. -/
def isResource (c : Cursor) : Bool :=
  c.nextWord == "using" && c.afterWord.nextWord != "" && !c.afterWord.lineEndsBefore
    && (symbolUnless "=" "=>" c.afterWord.afterWord).isSome

/-- What a generator yields, if anything. -/
def yieldExpression (g : Grammar) (mode : Mode) : Rule := fun c => do
  let (first, d) ← word "yield" c
  let value := if (omittedSemicolon d).isSome then nothing
    else (symbol "*" ++ g (.expression mode)) <|> opt (when (!·.nextIn "*") (g (.expression mode)))
  let (more, d) ← value d
  gather "yield_expression" (first ++ more) d

/-- An expression with the unary operators before it. -/
def operand (g : Grammar) (mode : Mode) : Rule := fun c =>
  match c.trivia.rest with
  | '+' :: '+' :: _ => node "update_expression" (symbol "++" ++ g (.operand mode)) c
  | '-' :: '-' :: _ => node "update_expression" (symbol "--" ++ g (.operand mode)) c
  | '+' :: _ => node "unary_expression" (symbol "+" ++ g (.operand mode)) c
  | '-' :: _ => node "unary_expression" (symbol "-" ++ g (.operand mode)) c
  | '!' :: _ => node "unary_expression" (symbol "!" ++ g (.operand mode)) c
  | '~' :: _ => node "unary_expression" (symbol "~" ++ g (.operand mode)) c
  | _ =>
    let w := c.nextWord
    if unaryWords.contains w then
      node "unary_expression" (oneOfWords unaryWords ++ g (.operand mode)) c
    else if w == "await" then node "await_expression" (word "await" ++ g (.operand mode)) c
    else if w == "yield" then yieldExpression g mode c
    else if isResource c then
      node "assignment_expression" (word "using" ++ field "left" (name "identifier")
        ++ symbolUnless "=" "=>" ++ field "right" (g (.expression mode))) c
    else target g mode c

/-- A binary operator: how tightly it binds, and whether it groups from the right. -/
structure Operator where
  text : String
  level : Nat
  fromRight : Bool := false

/-- The operators, a longer one before those it begins with. -/
def operators : List Operator :=
  [⟨">>>", 8, false⟩, ⟨"===", 6, false⟩, ⟨"!==", 6, false⟩, ⟨"**", 11, true⟩, ⟨"<<", 8, false⟩,
   ⟨">>", 8, false⟩, ⟨"<=", 7, false⟩, ⟨">=", 7, false⟩, ⟨"==", 6, false⟩, ⟨"!=", 6, false⟩,
   ⟨"&&", 2, false⟩, ⟨"||", 1, false⟩, ⟨"??", 0, false⟩, ⟨"<", 7, false⟩, ⟨">", 7, false⟩,
   ⟨"+", 9, false⟩, ⟨"-", 9, false⟩, ⟨"*", 10, false⟩, ⟨"/", 10, false⟩, ⟨"%", 10, false⟩,
   ⟨"&", 5, false⟩, ⟨"^", 4, false⟩, ⟨"|", 3, false⟩]

def wordOperators : List Operator := [⟨"instanceof", 7, false⟩, ⟨"in", 7, false⟩]

/-- The binary operator at the cursor. -/
def operator? (mode : Mode) (c : Cursor) : Option Operator :=
  let w := c.nextWord
  if w != "" then
    wordOperators.find? fun o => o.text == w && (mode.inOperator || w != "in")
  else if (assignmentSymbol c).isSome then none
  else operators.find? fun o => c.trivia.startsWith o.text

/-- Reads operators that bind at least as tightly as `least`, with their right operands. -/
def climb (operandRule : Rule) (mode : Mode) :
    Nat → Nat → Concrete → Cursor → Option (Concrete × Cursor)
  | 0, _, left, c => some (left, c)
  | fuel + 1, least, left, c =>
    match operator? mode c with
    | none => some (left, c)
    | some o =>
      if o.level < least then some (left, c)
      else
        let inner := if o.fromRight then o.level else o.level + 1
        match (field "operator" (symbol o.text) ++ field "right" operandRule) c with
        | some ([sign, right], d) =>
          match climb operandRule mode fuel inner right d with
          | some (right, d) =>
            let whole := Concrete.spanning "binary_expression" (left.withField "left")
              [sign, right.withField "right"]
            climb operandRule mode fuel least whole d
          | none => none
        | _ => none

/-- Types that an expression is taken to have, each followed by more operators. -/
def assertions (g : Grammar) (mode : Mode) : Nat → Concrete → Cursor → Option (Concrete × Cursor)
  | 0, left, c => some (left, c)
  | fuel + 1, left, c =>
    let w := c.nextWord
    if (w == "as" || w == "satisfies") && !c.lineEndsBefore then
      match (oneOfWords ["as", "satisfies"] ++ (whole "const" (word "const") <|> g .type)) c with
      | some (more, d) =>
        match climb (operand g mode) mode d.bound 0
          (Concrete.spanning (w ++ "_expression") left more) d with
        | some (left, d) => assertions g mode fuel left d
        | none => none
      | none => none
    else some (left, c)

def binary (g : Grammar) (mode : Mode) : Rule := fun c =>
  match operand g mode c with
  | some ([left], d) => do
    let (left, d) ← climb (operand g mode) mode d.bound 0 left d
    let (left, d) ← assertions g mode d.bound left d
    return ([left], d)
  | _ => none

/-- The question mark of a conditional. -/
def questionMark : Rule := fun c =>
  let c := c.trivia
  match c.rest with
  | '?' :: '?' :: _ => none
  | '?' :: '.' :: d :: _ => if d.isDigit then lexeme "?" false 1 c else none
  | '?' :: _ => lexeme "?" false 1 c
  | _ => none

/-- The first branch of a conditional. Parentheses before the colon can look like an arrow function
with a type; then they are read again without one. -/
def firstBranch (g : Grammar) (mode : Mode) : Rule := fun c =>
  let inner : Mode := { mode with inOperator := true }
  match g (.expression inner) c with
  | some (nodes, d) =>
    if !d.nextIn ":" && mode.returnType then g (.expression { inner with returnType := false }) c
    else some (nodes, d)
  | none => none

def branches (g : Grammar) (mode : Mode) : Rule :=
  field "consequence" (firstBranch g mode) ++ symbol ":"
    ++ field "alternative" (g (.expression mode))

/-- An expression without commas. -/
def expression (g : Grammar) (mode : Mode) : Rule := fun c =>
  match binary g mode c with
  | some ([test], d) =>
    match questionMark d with
    | none => some ([test], d)
    | some (mark, e) => do
      let (more, e) ← branches g mode e
      gather "ternary_expression" (test.withField "condition" :: mark ++ more) e
  | _ => none

end TopTag.Source
