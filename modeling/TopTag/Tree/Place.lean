import TopTag.Fault

/-!
# Places in a tree

A place is the path of steps from the root of a tree to one of its values. A `Spot` is a value
together with its place. Two values are the same one exactly when they stand at the same place,
except that `null`, `true` and `false` are each one value wherever they stand.
-/

namespace TopTag

inductive Step where
  | field (key : String)
  | item (index : Nat)
  deriving DecidableEq

abbrev Place := List Step

/-- What tells one value of a tree from another. -/
inductive Identity where
  | place (place : Place)
  | null
  | bool (value : Bool)
  deriving DecidableEq

structure Spot where
  place : Place
  tree : Tree

namespace Spot

def root (t : Tree) : Spot := ⟨[], t⟩

def identity (s : Spot) : Identity :=
  match s.tree with
  | .null => .null
  | .bool value => .bool value
  | _ => .place s.place

/-- The value of a field at its place; one that is absent reads as `null`. -/
def get (s : Spot) (key : String) : Spot := ⟨s.place ++ [.field key], s.tree.get key⟩

def require (s : Spot) (key : String) : Except Fault Spot :=
  (s.tree.require key).map fun t => ⟨s.place ++ [.field key], t⟩

@[simp] theorem tree_get (s : Spot) (key : String) : (s.get key).tree = s.tree.get key := rfl

end Spot

namespace Tree

/-- The value at a place. -/
def at? : Tree → Place → Option Tree
  | t, [] => some t
  | t, .field key :: rest => (t.field? key).bind (·.at? rest)
  | .list items, .item i :: rest => items[i]?.bind (·.at? rest)
  | _, .item _ :: _ => none

/-- Changes the first field of the given name. -/
def updateField (f : Tree → Tree) (key : String) : List (String × Tree) → List (String × Tree)
  | [] => []
  | (k, t) :: rest => if k == key then (k, f t) :: rest else (k, t) :: updateField f key rest

/-- Changes the value at a place and nothing else; a place that is not in the tree changes
nothing. -/
def update (f : Tree → Tree) : Place → Tree → Tree
  | [], t => f t
  | .field key :: rest, .object fields => .object (updateField (update f rest) key fields)
  | .item i :: rest, .list items => .list (items.modify i (update f rest))
  | _, t => t

end Tree

def Step.shown : Step → String
  | .field key => key
  | .item index => toString index

/-- The steps of a place with slashes between them. -/
def Place.shown (place : Place) : String := String.intercalate "/" (place.map Step.shown)

end TopTag
