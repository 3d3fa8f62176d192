import TopTag.Source.Expression

/-!
# Statements

Most statements are known by their first word. A word that is only sometimes one of the language's
own decides by what follows it.
-/

namespace TopTag.Source

open Rule

/-- A block of statements. A semicolon left out after it belongs to it. -/
def block (g : Grammar) : Rule :=
  node "statement_block" (braced (many (g .statement)) ++ opt omittedSemicolon)

namespace Statement

/-! ## Declarations of variables -/

/-- A name or a pattern with its type and its value. -/
def declarator (g : Grammar) (mode : Mode) : Rule :=
  node "variable_declarator" (field "name" (g .pattern) ++ opt (symbolUnless "!" "=")
    ++ opt (field "type" (Types.annotated g)) ++ opt (initializer g mode))

def declarators (g : Grammar) (mode : Mode) : Rule := listed1 (declarator g mode)

def declarationKind (w : String) : String :=
  if w == "var" then "variable_declaration" else "lexical_declaration"

def bindings (g : Grammar) (mode : Mode) (ending : Rule) : Rule := fun c =>
  node (declarationKind c.nextWord)
    (field "kind" (oneOfWords ["let", "const", "var"]) ++ declarators g mode ++ ending) c

/-- Something follows that `let` can declare. -/
def declaresAfter (c : Cursor) : Bool :=
  c.afterWord.nextWord != "" || c.afterWord.nextIn "[" || c.afterWord.nextIn "\x7b"

/-- The word `let` begins a declaration. -/
def isLet (c : Cursor) : Bool :=
  declaresAfter c && !(["in", "instanceof"].contains c.afterWord.nextWord)

/-! ## Types and modules -/

def enumMember (g : Grammar) : Rule :=
  node "enum_assignment" (Class.memberName g ++ opt (initializer g {}))

def enumDeclaration (g : Grammar) : Rule :=
  node "enum_declaration" (opt (word "const") ++ word "enum" ++ name "identifier"
    ++ braced (listed (enumMember g)))

def interfaceDeclaration (g : Grammar) : Rule :=
  whole "interface_declaration" (word "interface" ++ name "type_identifier"
    ++ opt (before "<" (Types.parameters g)) ++ opt (word "extends" ++ listed1 (g .type))
    ++ Types.objectType g)

def typeAlias (g : Grammar) : Rule :=
  whole "type_alias_declaration" (word "type" ++ name "type_identifier"
    ++ opt (before "<" (Types.parameters g)) ++ symbol "=" ++ g .type ++ semicolon)

/-- The statement declares a type under a name. -/
def isTypeAlias (c : Cursor) : Bool :=
  c.afterWord.nextWord != "" && c.afterWord.afterWord.nextIn "=<"

def moduleName : Rule :=
  stringLiteral <|> (name "identifier" ++ many (symbol "." ++ name "identifier"))

/-- Declarations gathered under a name. -/
def moduleDeclaration (g : Grammar) : Rule :=
  node "internal_module" (oneOfWords ["namespace", "module"] ++ moduleName
    ++ (body g <|> semicolon))

def isModule (c : Cursor) : Bool :=
  (c.afterWord.nextWord != "" || c.afterWord.nextIn "\"'") && !c.afterWord.lineEndsBefore

/-! ## Imports -/

def aliased (kind : String) : Rule :=
  node kind (opt (when (fun c => c.afterWord.nextWord != "" && c.afterWord.nextWord != "as")
      (word "type"))
    ++ field "name" (name "identifier" <|> stringLiteral)
    ++ opt (word "as" ++ field "alias" (name "identifier" <|> stringLiteral)))

def importNames : Rule :=
  braced (listed (aliased "import_specifier")) <|> (symbol "*" ++ word "as" ++ name "identifier")

/-- What an import binds. -/
def importClause : Rule :=
  importNames <|> (name "identifier" ++ opt (symbol "," ++ importNames))

/-- Properties of the module that is asked for. -/
def importAttributes (g : Grammar) : Rule := opt (oneOfWords ["with", "assert"] ++ object g)

def fromClause (g : Grammar) : Rule :=
  word "from" ++ field "source" stringLiteral ++ importAttributes g

/-- Another name for a module or a member of one. -/
def importAlias : Rule :=
  node "import_alias" (word "import"
    ++ opt (when (fun c => c.afterWord.nextWord != "") (word "type")) ++ name "identifier"
    ++ symbol "="
    ++ ((word "require" ++ parenthesized stringLiteral)
      <|> (name "identifier" ++ many (symbol "." ++ name "identifier")))
    ++ semicolon)

def importStatement (g : Grammar) : Rule :=
  whole "import_statement" (importAlias
    <|> (word "import" ++ field "source" stringLiteral ++ importAttributes g ++ semicolon)
    <|> (word "import" ++ importClause ++ fromClause g ++ semicolon)
    <|> (word "import" ++ oneOfWords ["type", "typeof"] ++ importClause ++ fromClause g
      ++ semicolon))

/-! ## Declarations -/

/-- The word `function` follows on the same line. -/
def isAsyncFunction (c : Cursor) : Bool :=
  c.nextWord == "async" && c.afterWord.nextWord == "function" && !c.afterWord.lineEndsBefore

/-- The name of the function that is declared here is given. -/
def declaresFunction (c : Cursor) : Bool :=
  let afterWord := if c.nextWord == "async" then c.afterWord.afterWord else c.afterWord
  (c.nextWord == "function" || isAsyncFunction c)
    && match (opt (symbol "*") ++ name "identifier") afterWord with
      | some _ => true
      | none => false

/-- The name of the class that is declared here is given. -/
def declaresClass (c : Cursor) : Bool :=
  let c := if c.nextWord == "abstract" then c.afterWord else c
  c.nextWord == "class" && c.afterWord.nextWord != ""
    && !(["extends", "implements"].contains c.afterWord.nextWord)

/-- Past the decorators at the cursor. -/
def afterDecorators (g : Grammar) (c : Cursor) : Cursor :=
  match many (decorator g) c with
  | some (_, d) => d
  | none => c

/-- The rule for the declaration that begins at the cursor, by its first words. -/
def plainDeclaration? (g : Grammar) (c : Cursor) : Option Rule :=
  let w := c.nextWord
  if w == "var" then some (bindings g {} semicolon)
  else if w == "const" then
    if c.afterWord.nextWord == "enum" then some (enumDeclaration g)
    else some (bindings g {} semicolon)
  else if w == "let" && isLet c then some (bindings g {} semicolon)
  else if declaresFunction c then some (functionDeclaration g)
  else if declaresClass (afterDecorators g c) then some (classDeclaration g)
  else if w == "enum" && c.afterWord.nextWord != "" then some (enumDeclaration g)
  else if w == "interface" && c.afterWord.nextWord != "" then some (interfaceDeclaration g)
  else if w == "type" && isTypeAlias c then some (typeAlias g)
  else if (w == "namespace" || w == "module") && isModule c then some (moduleDeclaration g)
  else none

/-- The words after `declare` in a declaration without an implementation. -/
def ambientWords : List String :=
  ["var", "let", "const", "function", "async", "class", "abstract", "enum", "interface", "type",
   "namespace", "module", "global"]

def isAmbient (c : Cursor) : Bool :=
  c.nextWord == "declare" && ambientWords.contains c.afterWord.nextWord
    && !c.afterWord.lineEndsBefore

def ambientDeclaration (g : Grammar) : Rule := fun c => do
  let (first, d) ← word "declare" c
  let (more, d) ←
    if d.nextWord == "global" then (word "global" ++ body g) d
    else
      match plainDeclaration? g d with
      | some r => r d
      | none => none
  gather "ambient_declaration" (first ++ more) d

/-- The rule for any declaration that begins at the cursor. -/
def declaration? (g : Grammar) (c : Cursor) : Option Rule :=
  if isAmbient c then some (ambientDeclaration g) else plainDeclaration? g c

/-! ## Exports -/

def exportNames (g : Grammar) : Rule :=
  opt (when (fun c => c.afterWord.nextIn "*" || c.afterWord.nextIn "\x7b") (word "type"))
    ++ (((node "namespace_export" (symbol "*" ++ word "as" ++ (name "identifier" <|> stringLiteral))
          <|> symbol "*") ++ fromClause g)
      <|> (node "export_clause" (braced (listed (aliased "export_specifier")))
        ++ opt (fromClause g)))
    ++ semicolon

/-- A declaration in its field, or an expression up to a semicolon. -/
def exportedDefault (g : Grammar) : Rule := fun c =>
  match declaration? g c with
  | some r => field "declaration" r c
  | none => (field "value" (plainExpression g) ++ semicolon) c

/-- What is exported after the word and its decorators. -/
def exported (g : Grammar) : Rule := fun c =>
  let w := c.nextWord
  if w == "default" then (whole "default" (word "default") ++ exportedDefault g) c
  else if w == "import" then field "declaration" importAlias c
  else if w == "as" then (word "as" ++ word "namespace" ++ name "identifier" ++ semicolon) c
  else if c.nextIn "=" then (symbolUnless "=" "=>" ++ plainExpression g ++ semicolon) c
  else if c.nextIn "*" || c.nextIn "\x7b"
      || (w == "type" && (c.afterWord.nextIn "*" || c.afterWord.nextIn "\x7b")) then exportNames g c
  else
    match declaration? g c with
    | some r => field "declaration" r c
    | none => none

def exportStatement (g : Grammar) : Rule :=
  node "export_statement" (many (decorator g) ++ word "export" ++ exported g)

/-! ## Control -/

def condition (g : Grammar) : Rule := field "condition" (parenthesizedExpression g)

def ifStatement (g : Grammar) : Rule :=
  node "if_statement" (word "if" ++ condition g ++ field "consequence" (g .statement)
    ++ onWord "else" (field "alternative" (node "else_clause" (word "else" ++ g .statement))))

def whileStatement (g : Grammar) : Rule :=
  node "while_statement" (word "while" ++ condition g ++ field "body" (g .statement))

def doStatement (g : Grammar) : Rule :=
  node "do_statement" (word "do" ++ field "body" (g .statement) ++ word "while" ++ condition g
    ++ opt semicolon)

/-- The head of a loop over the items of a value. -/
def loopItem (g : Grammar) : Rule :=
  opt (oneOfWords ["let", "const", "var", "using"]) ++ (g .pattern)
    ++ opt (symbolUnless "=" "=>" ++ g (.expression { inOperator := false }))
    ++ oneOfWords ["of", "in"]

/-- The same for an item that is no new name. -/
def loopTarget (g : Grammar) : Rule := g .callee ++ oneOfWords ["of", "in"]

def emptyStatement : Rule := node "empty_statement" (symbol ";")

/-- The three parts of a loop's head. -/
def loopParts (g : Grammar) : Rule := fun c =>
  let start : Rule :=
    if ["let", "const", "var"].contains c.nextWord then
      bindings g { inOperator := false } (symbol ";")
    else emptyStatement <|> (expressions g { inOperator := false } ++ symbol ";")
  (start ++ (emptyStatement <|> (expressions g {} ++ symbol ";")) ++ opt (expressions g {})) c

def forStatement (g : Grammar) : Rule := fun c => do
  let (first, d) ← (word "for" ++ opt (word "await") ++ symbol "(") c
  let head := match loopItem g d with
    | some read => some read
    | none => loopTarget g d
  match head with
  | some (item, d) =>
    let (more, d) ← (expressions g {} ++ symbol ")" ++ field "body" (g .statement)) d
    gather "for_in_statement" (first ++ item ++ more) d
  | none =>
    let (more, d) ← (loopParts g ++ symbol ")" ++ field "body" (g .statement)) d
    gather "for_statement" (first ++ more) d

def switchBranch (g : Grammar) : Rule :=
  let statements := many (when (fun c => !(["case", "default"].contains c.nextWord)) (g .statement))
  node "switch_case" (word "case" ++ expressions g {} ++ symbol ":" ++ statements)
    <|> node "switch_default" (word "default" ++ symbol ":" ++ statements)

def switchStatement (g : Grammar) : Rule :=
  node "switch_statement" (word "switch" ++ field "value" (parenthesizedExpression g)
    ++ field "body" (node "switch_body" (braced (many (switchBranch g)))))

def tryStatement (g : Grammar) : Rule :=
  node "try_statement" (word "try" ++ body g
    ++ onWord "catch" (node "catch_clause" (word "catch"
      ++ opt (parenthesized (g .pattern ++ opt (Types.annotated g))) ++ body g))
    ++ onWord "finally" (node "finally_clause" (word "finally" ++ body g)))

def returnStatement (g : Grammar) : Rule :=
  node "return_statement" (word "return"
    ++ (omittedSemicolon <|> (opt (when (!·.nextIn ";") (expressions g {})) ++ semicolon)))

def throwStatement (g : Grammar) : Rule :=
  node "throw_statement" (word "throw" ++ expressions g {} ++ semicolon)

/-- A jump, to a label if one is given on the same line. -/
def jump (kind w : String) : Rule :=
  node kind (word w ++ (omittedSemicolon
    <|> (opt (name "statement_identifier") ++ semicolon)))

def labeled (g : Grammar) : Rule :=
  node "labeled_statement" (field "label" (name "statement_identifier") ++ symbol ":"
    ++ field "body" (g .statement))

def expressionStatement (g : Grammar) : Rule :=
  node "expression_statement" (expressions g {} ++ semicolon)

/-- The rule for a statement that begins with a word of the language. -/
def byWord? (g : Grammar) (w : String) : Option Rule :=
  match w with
  | "if" => some (ifStatement g)
  | "for" => some (forStatement g)
  | "while" => some (whileStatement g)
  | "do" => some (doStatement g)
  | "switch" => some (switchStatement g)
  | "try" => some (tryStatement g)
  | "with" => some (node "with_statement" (word "with" ++ field "object" (parenthesizedExpression g)
      ++ field "body" (g .statement)))
  | "break" => some (jump "break_statement" "break")
  | "continue" => some (jump "continue_statement" "continue")
  | "return" => some (returnStatement g)
  | "throw" => some (throwStatement g)
  | "debugger" => some (node "debugger_statement" (word "debugger" ++ semicolon))
  | "export" => some (exportStatement g)
  | _ => none

/-- Words that begin a declaration and nothing else. -/
def declarationWords : List String := ["enum", "interface", "abstract"]

/-- A statement that begins with a name. -/
def named (g : Grammar) (w : String) : Rule := fun c =>
  if declarationWords.contains w then none
  else if w == "import" && !c.afterWord.nextIn "(." then importStatement g c
  else if w != "" && c.afterWord.nextIn ":" then labeled g c
  else expressionStatement g c

/-- A statement after decorators: a class, exported or not. -/
def decorated (g : Grammar) : Rule := fun c =>
  if (afterDecorators g c).nextWord == "export" then exportStatement g c
  else if declaresClass (afterDecorators g c) then classDeclaration g c
  else expressionStatement g c

end Statement

def statement (g : Grammar) : Rule := fun c =>
  match c.next? with
  | none => none
  | some '\x7b' => g .block c
  | some ';' => Statement.emptyStatement c
  | some '@' => Statement.decorated g c
  | some _ =>
    let w := c.nextWord
    match Statement.byWord? g w with
    | some r => r c
    | none =>
      match Statement.declaration? g c with
      | some r => r c
      | none => Statement.named g w c

end TopTag.Source
