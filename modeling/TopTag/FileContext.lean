import TopTag.Tree.Place

/-!
# The context of a file

While a file is tagged, its context keeps the path to write and which opening tags are topmost. A
tag is marked by its identity, so two equal tags at different places are two marks. Marks are never
removed, and marking twice is marking once.
-/

namespace TopTag

structure FileContext where
  filePath : String
  marked : List Identity := []

namespace FileContext

def isMarked (c : FileContext) (i : Identity) : Bool := c.marked.contains i

def mark (c : FileContext) (i : Identity) : FileContext :=
  if c.isMarked i then c else { c with marked := c.marked ++ [i] }

/-- The number of marks. -/
def size (c : FileContext) : Nat := c.marked.length

/-- The places of the marked values that are objects of a tree. -/
def markedPlaces (c : FileContext) (t : Tree) : List Place :=
  c.marked.filterMap fun
    | .place place => if (t.at? place).any Tree.isObject then some place else none
    | _ => none

end FileContext

/-- A computation that marks as it goes and may stop at a fault; the marks made before it stay. -/
abbrev Marking := ExceptT Fault (StateM FileContext)

namespace Marking

def mark (s : Spot) : Marking Unit := modify fun c => c.mark s.identity

/-- Runs a computation in a context. -/
def exec {α : Type} (m : Marking α) (c : FileContext) : Except Fault α × FileContext := m.run.run c

end Marking

end TopTag
