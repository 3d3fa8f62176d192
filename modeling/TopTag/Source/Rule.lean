import TopTag.Concrete.Node
import TopTag.Source.Lexeme

/-!
# Rules

A rule reads nodes of concrete syntax from a place in a text, or finds that they are not there.
Rules follow each other by `++` and give way to each other by `<|>`: the first one that reads
something decides. A rule that needs rules defined later takes them from a `Grammar`.
-/

namespace TopTag

namespace Concrete

/-- A node without children. -/
def leaf (kind : String) (named : Bool) (start stop : Nat) : Concrete :=
  .node { kind := kind, start := start, stop := stop, named := named } []

def withField (field : String) : Concrete → Concrete
  | .node h cs => .node { h with field := some field } cs

/-- The node that spans its children. -/
def spanning (kind : String) (first : Concrete) (others : List Concrete) : Concrete :=
  .node { kind := kind, start := first.head.start
          stop := ((others.getLast?).getD first).head.stop } (first :: others)

end Concrete

namespace Source

def Rule := Cursor → Option (List Concrete × Cursor)

instance : Append Rule := ⟨fun a b c => do
  let (first, c) ← a c
  let (second, c) ← b c
  return (first ++ second, c)⟩

instance : OrElse Rule := ⟨fun a b c =>
  match a c with
  | some read => some read
  | none => b () c⟩

instance : Inhabited Rule := ⟨fun _ => none⟩

namespace Rule

/-- Reads nothing. -/
def nothing : Rule := fun c => some ([], c)

def opt (r : Rule) : Rule := r <|> nothing

/-- Reads as long as the rule reads something, at most `fuel` times. -/
def repeated (r : Rule) : Nat → Rule
  | 0, c => some ([], c)
  | fuel + 1, c =>
    match r c with
    | some (nodes, d) =>
      if c.offset < d.offset then do
        let (more, d) ← repeated r fuel d
        return (nodes ++ more, d)
      else some ([], c)
    | none => some ([], c)

def many (r : Rule) : Rule := fun c => repeated r c.bound c

/-- Reads only where a condition holds. -/
def when (p : Cursor → Bool) (r : Rule) : Rule := fun c => if p c then r c else none

/-- What a rule reads if a word comes next, and nothing otherwise. -/
def onWord (w : String) (r : Rule) : Rule := fun c => if c.nextWord == w then r c else some ([], c)

/-- What a rule reads becomes the children of one node. -/
def node (kind : String) (r : Rule) : Rule := fun c =>
  match r c with
  | some (first :: others, d) => some ([Concrete.spanning kind first others], d)
  | some ([], d) => some ([Concrete.leaf kind true c.offset c.offset], d)
  | none => none

/-- Nodes that were read as the children of one node. -/
def gather (kind : String) (nodes : List Concrete) (c : Cursor) : Option (List Concrete × Cursor) :=
  match nodes with
  | first :: others => some ([Concrete.spanning kind first others], c)
  | [] => none

/-- What a rule reads becomes one node without children. -/
def whole (kind : String) (r : Rule) : Rule := fun c =>
  match r c with
  | some (first :: others, d) =>
    let n := Concrete.spanning kind first others
    some ([Concrete.leaf kind true n.head.start n.head.stop], d)
  | some ([], d) => some ([Concrete.leaf kind true c.offset c.offset], d)
  | none => none

/-- Puts what a rule reads into a field. -/
def field (name : String) (r : Rule) : Rule := fun c =>
  (r c).map fun (nodes, d) => (nodes.map (Concrete.withField name), d)

/-- A lexeme of a given length at the cursor. -/
def lexeme (kind : String) (named : Bool) (n : Nat) : Rule := fun c =>
  let d := c.drop n
  some ([Concrete.leaf kind named c.offset d.offset], d)

/-- The lexeme that a measure finds after white space and comments. -/
def measured (kind : String) (measure : List Char → Option Nat) : Rule := fun c =>
  let c := c.trivia
  match measure c.rest with
  | some n => lexeme kind true n c
  | none => none

/-- A symbol. -/
def symbol (s : String) : Rule := fun c =>
  let c := c.trivia
  if c.startsWith s then lexeme s false s.length c else none

/-- A symbol that none of the given characters follows. -/
def symbolUnless (s chars : String) : Rule := fun c =>
  let c := c.trivia
  if c.startsWith s && !(c.rest.drop s.length).head?.any chars.toList.contains then
    lexeme s false s.length c
  else none

/-- A symbol without white space before it. -/
def adjacent (s : String) : Rule := fun c =>
  if c.startsWith s then lexeme s false s.length c else none

/-- A word of the language. -/
def word (w : String) : Rule := fun c =>
  if c.nextWord == w then lexeme w false w.length c.trivia else none

def oneOfWords (ws : List String) : Rule := fun c =>
  let w := c.nextWord
  if ws.contains w then lexeme w false w.length c.trivia else none

/-- A name of any kind. -/
def name (kind : String) : Rule := measured kind nameLength?

/-- A name other than the given words. -/
def nameUnless (kind : String) (ws : List String) : Rule :=
  when (fun c => !ws.contains c.nextWord) (name kind)

def stringLiteral : Rule := measured "string" stringLength?

def numberLiteral : Rule := measured "number" numberLength?

/-- Items between commas, of which any may be left out. -/
def listed (item : Rule) : Rule := opt item ++ many (symbol "," ++ opt item)

/-- Items between commas, at least one. -/
def listed1 (item : Rule) : Rule := item ++ many (symbol "," ++ item)

def braced (r : Rule) : Rule := symbol "\x7b" ++ r ++ symbol "\x7d"

def bracketed (r : Rule) : Rule := symbol "[" ++ r ++ symbol "]"

def parenthesized (r : Rule) : Rule := symbol "(" ++ r ++ symbol ")"

/-- The next character is one of those given. -/
def before (chars : String) (r : Rule) : Rule := when (·.nextIn chars) r

end Rule

/-- How an expression may go on. -/
structure Mode where
  /-- The operator `in` may occur; it may not in the head of a loop. -/
  inOperator : Bool := true
  /-- A type may follow the parameters of an arrow function; between the two marks of a conditional
  a colon after parentheses can be the second mark. -/
  returnType : Bool := true
  deriving DecidableEq

/-- The rules that other rules refer to. -/
inductive Nonterminal where
  | statement
  | block
  | expression (mode : Mode)
  | operand (mode : Mode)
  /-- An expression that can be called or has members. -/
  | callee
  | type
  | pattern
  | parameters
  | element
  deriving DecidableEq

abbrev Grammar := Nonterminal → Rule

open Rule

/-- An expression in its ordinary surroundings. -/
def plainExpression (g : Grammar) : Rule := g (.expression {})

/-- Expressions with commas between them. -/
def expressions (g : Grammar) (mode : Mode) : Rule := fun c =>
  match listed1 (g (.expression mode)) c with
  | some (first :: second :: others, d) =>
    some ([Concrete.spanning "sequence_expression" first (second :: others)], d)
  | read => read

/-- A member's name after a point. -/
def propertyName : Rule :=
  field "property" (whole "private_property_identifier" (symbol "#" ++ name "identifier")
    <|> name "property_identifier")

end Source

end TopTag
