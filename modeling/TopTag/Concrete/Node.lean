/-!
# Concrete syntax

A concrete node covers a range of bytes of a source. It has a kind, may be named, and may stand in
a field of its parent. Malformed text shows as nodes of kind `ERROR` and as missing nodes.
-/

namespace TopTag

/-- What a concrete node is, apart from its children. -/
structure Concrete.Head where
  kind : String
  start : Nat
  stop : Nat
  named : Bool := true
  field : Option String := none
  missing : Bool := false
  /-- The node or something below it is malformed. -/
  hasError : Bool := false
  deriving Inhabited

inductive Concrete where
  | node (head : Concrete.Head) (children : List Concrete)
  deriving Inhabited

namespace Concrete

def head : Concrete → Head
  | .node h _ => h

def children : Concrete → List Concrete
  | .node _ cs => cs

def kind (n : Concrete) : String := n.head.kind

/-- The first child in a field. -/
def child? (n : Concrete) (field : String) : Option Concrete :=
  n.children.find? fun c => c.head.field == some field

/-- The named children other than comments. -/
def parts (n : Concrete) : List Concrete :=
  n.children.filter fun c => c.head.named && c.kind != "comment"

mutual

/-- The number of nodes on the longest path down. -/
def height : Concrete → Nat
  | .node _ cs => heightAll cs + 1

def heightAll : List Concrete → Nat
  | [] => 0
  | c :: rest => max (height c) (heightAll rest)

end

/-- A node that is itself malformed. -/
def isError (n : Concrete) : Bool := n.kind == "ERROR" || n.head.missing

mutual

/-- The malformed node that the error flags lead to; the node itself where they lead nowhere. -/
def firstError : Concrete → Concrete
  | .node h cs => if (Concrete.node h cs).isError then .node h cs else firstErrorAmong h cs cs

/-- The malformed node below the first of some children that is flagged. -/
def firstErrorAmong (h : Head) (all : List Concrete) : List Concrete → Concrete
  | [] => .node h all
  | c :: rest =>
    if c.head.hasError || c.head.missing then firstError c else firstErrorAmong h all rest

end

end Concrete

end TopTag
