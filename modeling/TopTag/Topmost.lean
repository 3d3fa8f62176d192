import TopTag.FileContext
import TopTag.Markup
import TopTag.Tree.Walk

/-!
# Topmost elements

A component is a function declaration, or a variable declarator whose initial value is a function.
Inside a component every return site is looked at on its own: the argument of a `return`, and the
body of an arrow function that has no block. The opening tags of the elements that a return site
renders are marked, and so are those of elements given as attribute values anywhere in the file.
-/

namespace TopTag

def functionKinds : List String := ["FunctionExpression", "ArrowFunctionExpression"]

/-- The kind of an initial value names a function. A kind that is a list or an object cannot be
looked up. -/
def isFunctionKind (kind : Tree) : Except Fault Bool :=
  match kind with
  | .list _ => .error .compoundKind
  | .object _ => .error .compoundKind
  | _ => .ok (functionKinds.any kind.isText)

def isComponentRoot (t : Tree) : Except Fault Bool := do
  let kind ← t.require "type"
  if kind.isText "FunctionDeclaration" then return true
  else if kind.isText "VariableDeclarator" && (t.get "init").isNode then
    isFunctionKind (t.get "init").kind
  else return false

/-- Marks the opening tag of an element. -/
def markElement (s : Spot) : Marking Unit := do
  let opening ← s.require "openingElement"
  Marking.mark opening

/-- Marks a value if it is an element. -/
def markIfElement (s : Spot) : Marking Unit :=
  if s.tree.isElement then markElement s else pure ()

/-- Marks an element that stands in braces: bare, at the end of a conjunction, or as a branch of a
conditional. -/
def markEmbedded (s : Spot) : Marking Unit :=
  let e := s.unwrapParentheses
  if e.tree.isElement then markElement e
  else if e.tree.isConjunction then markIfElement e.unwrapConjunction
  else if e.tree.isConditional then do
    markIfElement (e.get "consequent").unwrapParentheses
    markIfElement (e.get "alternate").unwrapParentheses
  else pure ()

def markChild (s : Spot) : Marking Unit :=
  if s.tree.isElement then markElement s
  else if s.tree.isContainer then markEmbedded (s.get "expression")
  else pure ()

/-- The entries of a list at their places. -/
def spotsFrom (place : Place) : Nat → List Tree → List Spot
  | _, [] => []
  | i, t :: rest => ⟨place ++ [.item i], t⟩ :: spotsFrom place (i + 1) rest

/-- Marks every element among a fragment's children. -/
def markFragmentChildren (s : Spot) : Marking Unit := do
  let children ← s.tree.consult "children"
  let entries ← children.entries
  (spotsFrom (s.place ++ [.field "children"]) 0 entries).forM markChild

/-- The work that pending values stand for: each is one step, and may turn into two values that
together weigh less. -/
def pendingSpotWeight (pending : List Spot) : Nat :=
  total (fun s => 2 * s.tree.weight + 1) pending

/-- Taking the first of the pending values leaves less to do. -/
theorem pending_shorter (s : Spot) (pending : List Spot) :
    pendingSpotWeight pending < pendingSpotWeight (s :: pending) := by
  simp only [pendingSpotWeight, total_cons]
  omega

/-- The branches of a conditional are less to do than the expression that comes down to it. -/
theorem pending_branches_lighter {s : Spot} (h : s.normalized.tree.isConditional = true)
    (pending : List Spot) :
    pendingSpotWeight (s.normalized.get "consequent" :: s.normalized.get "alternate" :: pending) <
      pendingSpotWeight (s :: pending) := by
  have hbranches : (s.normalized.tree.get "consequent").weight
      + (s.normalized.tree.get "alternate").weight < s.normalized.tree.weight :=
    Tree.weight_get_add_lt h (by decide)
  have hle := Spot.weight_normalized_le s
  simp only [pendingSpotWeight, total_cons, Spot.tree_get]
  omega

/-- Marks what a list of returned expressions renders, the first one first; the branches of a
conditional take its place in the list. -/
def markReturnedAll : List Spot → Marking Unit
  | [] => pure ()
  | s :: pending =>
    let e := s.normalized
    if e.tree.isElement then do
      markElement e
      markReturnedAll pending
    else if e.tree.isFragment then do
      markFragmentChildren e
      markReturnedAll pending
    else if _h : e.tree.isConditional = true then
      markReturnedAll (e.get "consequent" :: e.get "alternate" :: pending)
    else markReturnedAll pending
termination_by pending => pendingSpotWeight pending
decreasing_by
  · exact pending_shorter s pending
  · exact pending_shorter s pending
  · exact pending_branches_lighter _h pending
  · exact pending_shorter s pending

/-- Marks the elements that a returned expression renders. -/
def markReturned (s : Spot) : Marking Unit := markReturnedAll [s]

/-- The expression that a node returns, if it is a return site. -/
def returnSite? (s : Spot) : Option Spot :=
  if s.tree.kind.isText "ReturnStatement" then some (s.get "argument")
  else if s.tree.kind.isText "ArrowFunctionExpression" then
    let body := s.get "body"
    if body.tree.isNode && !body.tree.kind.isText "BlockStatement" then some body else none
  else none

def markReturnSite (s : Spot) : Marking Unit :=
  match returnSite? s with
  | some e => markReturned e
  | none => pure ()

/-- Marks what the return sites below a component render. -/
def resolveReturnSites (component : Spot) : Marking Unit := do
  let nodes ← descendants component
  nodes.forM markReturnSite

def scanVisit (count : Nat) (v : Visit) : Marking Nat := do
  if ← isComponentRoot v.spot.tree then
    resolveReturnSites v.spot
    return count + 1
  else return count

/-- Resolves the return sites of every component; gives the number of components. -/
def scanComponents (s : Spot) : Marking Nat := (walk s).foldlM scanVisit 0

/-- A container that is the value of an attribute. -/
def isAttributeValue (v : Visit) : Bool :=
  v.key == some "value" && v.parent.any fun p => p.isA "JSXAttribute"

def markAttributeValue (v : Visit) : Marking Unit := do
  let kind ← v.spot.tree.require "type"
  if kind.isText "JSXExpressionContainer" && isAttributeValue v then
    markEmbedded (v.spot.get "expression")
  else pure ()

/-- Marks the elements given as attribute values anywhere below a node. -/
def resolveAttributeValues (s : Spot) : Marking Unit := (walk s).forM markAttributeValue

/-- Marks every topmost element; gives the number of components. -/
def locate (s : Spot) : Marking Nat := do
  let components ← scanComponents s
  resolveAttributeValues s
  return components

end TopTag
