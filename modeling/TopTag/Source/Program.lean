import TopTag.Source.Statement

/-!
# Programs

A source text is a program: statements up to its end. `Concrete.ofSource` gives the program's
concrete tree, or a malformed node where the text is none.

The rules refer to each other through a grammar; `grammarTo` closes the circle by recursion on a
bound for the depth to which they do.
-/

namespace TopTag.Source

/-- The rule for each reference, given the rules it refers to. -/
def rule (g : Grammar) : Grammar
  | .statement => statement g
  | .block => block g
  | .expression mode => expression g mode
  | .operand mode => operand g mode
  | .callee => callee g
  | .type => type g
  | .pattern => pattern g
  | .parameters => formalParameters g
  | .element => element g

/-- The rules for texts that refer at most `fuel` times into each other. -/
def grammarTo : Nat → Nonterminal → Cursor → Option (List Concrete × Cursor)
  | 0, _, _ => none
  | fuel + 1, n, c => rule (grammarTo fuel) n c

/-- A line that names the program's interpreter. -/
def interpreterLine : Rule := fun c =>
  if c.startsWith "#!" then
    Rule.lexeme "hash_bang_line" true (c.rest.takeWhile (· != '\n')).length c
  else none

/-- No lexeme begins with one character and refers on without reading it more often than this. -/
def depthPerCharacter : Nat := 16

/-- The statements of a text that holds nothing else. -/
def statements? (s : String) : Option (List Concrete) :=
  let g : Grammar := grammarTo (depthPerCharacter * (s.length + 1))
  match (Rule.opt interpreterLine ++ Rule.many (g .statement)) (Cursor.ofString s) with
  | some (nodes, c) => if c.trivia.rest.isEmpty then some nodes else none
  | none => none

end Source

open Source

/-- The concrete tree of a text. A program begins with its first lexeme or comment and ends with
the text. -/
def Concrete.ofSource (s : String) : Concrete :=
  let stop := byteLength s.toList
  match statements? s with
  | some nodes =>
    .node { kind := "program", start := (Cursor.ofString s).skipSpacing.offset, stop := stop } nodes
  | none => .node { kind := "ERROR", start := 0, stop := stop, hasError := true } []

end TopTag
