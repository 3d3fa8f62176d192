import TopTag.Source.Types

/-!
# Patterns and parameters

What a declaration binds: a name, or a pattern that takes an object or an array apart. Parameters
are patterns with types and default values.
-/

namespace TopTag.Source

open Rule

/-- A value after an equals sign. -/
def initializer (g : Grammar) (mode : Mode) : Rule :=
  symbolUnless "=" "=>" ++ field "value" (g (.expression mode))

namespace Pattern

def rest (g : Grammar) : Rule := node "rest_pattern" (symbol "..." ++ g .pattern)

/-- A default after a pattern. -/
def withDefault (g : Grammar) (kind : String) (r : Rule) : Rule := fun c =>
  match r c with
  | none => none
  | some (left, d) =>
    match (symbolUnless "=" "=>" ++ plainExpression g) d, left with
    | some (more, e), first :: others =>
      some ([Concrete.spanning kind first (others ++ more)], e)
    | _, _ => some (left, d)

/-- A key of an object with the pattern for its value. -/
def pair (g : Grammar) : Rule :=
  node "pair_pattern" (Types.memberName g ++ symbol ":"
    ++ withDefault g "assignment_pattern" (g .pattern))

def objectItem (g : Grammar) : Rule :=
  rest g <|> pair g
    <|> withDefault g "object_assignment_pattern" (name "shorthand_property_identifier_pattern")

def object (g : Grammar) : Rule := node "object_pattern" (braced (listed (objectItem g)))

def array (g : Grammar) : Rule :=
  node "array_pattern"
    (bracketed (listed (rest g <|> withDefault g "assignment_pattern" (g .pattern))))

end Pattern

def pattern (g : Grammar) : Rule := fun c =>
  match c.next? with
  | some '\x7b' => Pattern.object g c
  | some '[' => Pattern.array g c
  | some '.' => Pattern.rest g c
  | _ => if c.nextWord == "this" then whole "this" (word "this") c else name "identifier" c

/-! ## Decorators -/

/-- The arguments of a call. -/
def arguments (g : Grammar) : Rule :=
  node "arguments" (parenthesized
    (listed (node "spread_element" (symbol "..." ++ plainExpression g) <|> plainExpression g)))

def decorator (g : Grammar) : Rule :=
  node "decorator" (symbol "@"
    ++ (node "parenthesized_expression" (parenthesized (plainExpression g))
      <|> (name "identifier" ++ many (symbolUnless "." "." ++ name "property_identifier")
        ++ opt (when (·.nextIn "<") (Types.arguments g))
        ++ opt (before "(" (arguments g)))))

/-! ## Parameters -/

def parameterModifiers : List String := ["public", "private", "protected", "override", "readonly"]

def parameterModifier : Rule :=
  when (fun c => parameterModifiers.contains c.nextWord
      && (c.afterWord.nextWord != "" || c.afterWord.nextIn "[" || c.afterWord.nextIn "\x7b"))
    (oneOfWords parameterModifiers)

/-- One parameter. -/
def parameter (g : Grammar) : Rule := fun c =>
  let head := many (decorator g) ++ many parameterModifier ++ field "pattern" (g .pattern)
  let tail := opt (field "type" (Types.annotated g)) ++ opt (initializer g {})
  (node "optional_parameter" (head ++ symbolUnless "?" "?." ++ tail)
    <|> node "required_parameter" (head ++ tail)) c

def formalParameters (g : Grammar) : Rule :=
  node "formal_parameters"
    (parenthesized (opt (listed1 (parameter g) ++ opt (symbol ","))))

end TopTag.Source
