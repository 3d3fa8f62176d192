import TopTag.Tree.Place

/-!
# Markup in a tree

The kinds of node that matter for finding markup: elements, fragments, conditionals, conjunctions
and parentheses, and what an attribute node looks like.
-/

namespace TopTag

namespace Tree

def isElement (t : Tree) : Bool := t.isA "JSXElement"

def isFragment (t : Tree) : Bool := t.isA "JSXFragment"

def isConditional (t : Tree) : Bool := t.isA "ConditionalExpression"

/-- A logical expression whose operator is `&&`. -/
def isConjunction (t : Tree) : Bool := t.isA "LogicalExpression" && (t.get "operator").isText "&&"

def isParenthesized (t : Tree) : Bool := t.isA "ParenthesizedExpression"

def isContainer (t : Tree) : Bool := t.isA "JSXExpressionContainer"

/-- The plain name of an attribute node; `null` for a value of any other shape. -/
def attributeName (t : Tree) : Tree :=
  if t.isA "JSXAttribute" && (t.get "name").isA "JSXIdentifier" then (t.get "name").get "name"
  else .null

/-- The attribute node with a plain name and a string for its value. -/
def stringAttribute (name value : String) : Tree :=
  .object [("type", .text "JSXAttribute"),
    ("name", .object [("type", .text "JSXIdentifier"), ("name", .text name)]),
    ("value", .object [("type", .text "StringLiteral"), ("value", .text value)])]

end Tree

namespace Spot

/-- What stands inside all the parentheses around a value. -/
def unwrapParentheses (s : Spot) : Spot :=
  if _h : s.tree.isParenthesized = true then (s.get "expression").unwrapParentheses else s
termination_by s.tree.weight
decreasing_by exact Tree.weight_get_lt_of_isA _h _

theorem weight_unwrapParentheses_le (s : Spot) :
    s.unwrapParentheses.tree.weight ≤ s.tree.weight := by
  fun_induction unwrapParentheses s with
  | case1 s h ih => exact Nat.le_trans ih (Nat.le_of_lt (Tree.weight_get_lt_of_isA h _))
  | case2 s h => exact Nat.le_refl _

/-- The last operand of a chain of conjunctions. -/
def unwrapConjunction (s : Spot) : Spot :=
  if _h : s.tree.isConjunction = true then (s.get "right").unwrapParentheses.unwrapConjunction
  else s
termination_by s.tree.weight
decreasing_by
  exact Nat.lt_of_le_of_lt (weight_unwrapParentheses_le _)
    (Tree.weight_get_lt_of_isA (Bool.and_eq_true_iff.mp _h).1 _)

theorem weight_unwrapConjunction_le (s : Spot) :
    s.unwrapConjunction.tree.weight ≤ s.tree.weight := by
  fun_induction unwrapConjunction s with
  | case1 s h ih =>
    exact Nat.le_trans ih (Nat.le_trans (weight_unwrapParentheses_le _)
      (Nat.le_of_lt (Tree.weight_get_lt_of_isA (Bool.and_eq_true_iff.mp h).1 _)))
  | case2 s h => exact Nat.le_refl _

/-- The value that a returned expression comes down to. -/
def normalized (s : Spot) : Spot := s.unwrapParentheses.unwrapConjunction

theorem weight_normalized_le (s : Spot) : s.normalized.tree.weight ≤ s.tree.weight :=
  Nat.le_trans (weight_unwrapConjunction_le _) (weight_unwrapParentheses_le _)

end Spot

end TopTag
