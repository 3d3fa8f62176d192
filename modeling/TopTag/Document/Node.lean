import TopTag.Document.Tag
import TopTag.Document.Token

/-!
# Nodes of a document

A document is a graph of scalars, sequences and mappings: an alias stands for a node that has an
anchor, which may be one that the alias lies in. Nodes have numbers, and collections hold the
numbers of their parts. `Graph.ofTokens` builds the graph from the tokens of a text.
-/

namespace TopTag.Document

inductive Content where
  | scalar (text : String)
  | sequence (items : List Nat)
  | mapping (pairs : List (Nat × Nat))

structure Node where
  tag : Tag
  content : Content

abbrev Graph := Array Node

/-- The graph under construction and the tokens that are left. -/
structure Builder where
  tokens : List Token
  handles : List (String × String)
  anchors : List (String × Nat)
  nodes : Graph

abbrev Build := StateT Builder Result

namespace Build

/-- The next token. A text that breaks before it is an error. -/
def peek : Build Token := do
  match (← get).tokens with
  | .broken e :: _ => throw e
  | t :: _ => return t
  | [] => throw .malformed

def skip : Build Unit := modify fun b => { b with tokens := b.tokens.tail }

/-- Passes a token that has to come next. -/
def expect (t : Token) : Build Unit := do
  if (← peek) == t then skip else throw .malformed

/-- Passes a token if it comes next. -/
def accept (t : Token) : Build Bool := do
  if (← peek) == t then
    skip
    return true
  else return false

/-- Adds a node, under its anchor if it has one; no two nodes share an anchor. -/
def add (name : Option String) (node : Node) : Build Nat := do
  let b ← get
  let n := b.nodes.size
  let anchors ←
    match name with
    | none => pure b.anchors
    | some name =>
      if (b.anchors.lookup name).isSome then throw .malformed else pure ((name, n) :: b.anchors)
  set { b with nodes := b.nodes.push node, anchors := anchors }
  return n

/-- The scalar that stands where nothing is written. -/
def empty : Build Nat := add none ⟨.null, .scalar ""⟩

def fill (n : Nat) (content : Content) : Build Nat := do
  modify fun b => { b with nodes := b.nodes.modify n fun node => { node with content := content } }
  return n

/-- The tag that a handle and a suffix name; `none` asks for the tag that the content suggests. -/
def tagName (handle : Option String) (suffix : String) : Build (Option String) := do
  let name ←
    match handle with
    | none => pure suffix
    | some handle =>
      match (← get).handles.lookup handle with
      | some start => pure (start ++ suffix)
      | none => throw .malformed
  return some name

/-- A node's properties. -/
structure Properties where
  anchor : Option String := none
  tag : Option String := none

def Properties.isEmpty (p : Properties) : Bool := p.anchor.isNone && p.tag.isNone

/-- The tag given, or the one that a content suggests in its place. -/
def Properties.tagOr (p : Properties) (suggested : Tag) : Tag :=
  match p.tag with
  | none => suggested
  | some name => if name == "!" then suggested else Tag.ofName name

/-- The tag of a scalar. Without a tag only a plain one gets it from its form. -/
def Properties.scalarTag (p : Properties) (text : String) (plain : Bool) : Tag :=
  p.tagOr (if plain || p.tag.isSome then Tag.ofForm text else .str)

/-- An anchor and a tag in either order. -/
def properties : Build Properties := do
  match ← peek with
  | .anchor name =>
    skip
    match ← peek with
    | .tag handle suffix =>
      skip
      return ⟨some name, ← tagName handle suffix⟩
    | _ => return ⟨some name, none⟩
  | .tag handle suffix =>
    skip
    match ← peek with
    | .anchor name =>
      skip
      return ⟨some name, ← tagName handle suffix⟩
    | _ => return ⟨none, ← tagName handle suffix⟩
  | _ => return {}

/-- Where a node stands: in a flow collection, in a block, or in a block mapping, where the entries
of a sequence need no indentation. -/
inductive Setting where
  | flow
  | block
  | field
  deriving DecidableEq

/-- A node, or the empty scalar before one of the tokens `enders`. -/
def orEmpty (enders : List Token) (node : Build Nat) : Build Nat := do
  if enders.contains (← peek) then empty else node

/-- The value of a key after its indicator; without the indicator it is empty. -/
def valueOf (enders : List Token) (node : Build Nat) : Build Nat := do
  if ← accept .value then orEmpty enders node else empty

/-- A mapping of one pair in a flow sequence, its key's indicator being next. -/
def singlePair (node : Build Nat) : Build Nat := do
  let n ← add none ⟨.map, .mapping []⟩
  skip
  let key ← orEmpty [.value, .flowEntry, .flowSequenceEnd] node
  let value ← valueOf [.flowEntry, .flowSequenceEnd] node
  fill n (.mapping [(key, value)])

/-- One entry of a block sequence. -/
def blockItem (node : Build Nat) : Build (Option Nat) := do
  if ← accept .blockEntry then return some (← orEmpty [.blockEntry, .blockEnd] node)
  else
    expect .blockEnd
    return none

/-- One entry of a sequence without an indentation of its own. -/
def bareItem (node : Build Nat) : Build (Option Nat) := do
  if ← accept .blockEntry then
    return some (← orEmpty [.blockEntry, .key, .value, .blockEnd] node)
  else return none

def blockPair (node : Build Nat) : Build (Option (Nat × Nat)) := do
  if ← accept .key then
    let key ← orEmpty [.key, .value, .blockEnd] node
    let value ← valueOf [.key, .value, .blockEnd] node
    return some (key, value)
  else
    expect .blockEnd
    return none

def flowItem (first : Bool) (node : Build Nat) : Build (Option Nat) := do
  if ← accept .flowSequenceEnd then return none
  if !first then expect .flowEntry
  match ← peek with
  | .key => return some (← singlePair node)
  | .flowSequenceEnd =>
    skip
    return none
  | _ => return some (← node)

def flowPair (first : Bool) (node : Build Nat) : Build (Option (Nat × Nat)) := do
  if ← accept .flowMappingEnd then return none
  if !first then expect .flowEntry
  match ← peek with
  | .key =>
    skip
    let key ← orEmpty [.value, .flowEntry, .flowMappingEnd] node
    let value ← valueOf [.flowEntry, .flowMappingEnd] node
    return some (key, value)
  | .flowMappingEnd =>
    skip
    return none
  | _ =>
    let key ← node
    return some (key, ← empty)

/-- Entries up to the end of a collection. -/
def entries {α : Type} (entry : Bool → Build (Option α)) : Nat → Bool → Build (List α)
  | 0, _ => throw .malformed
  | fuel + 1, first => do
    match ← entry first with
    | none => return []
    | some a => return a :: (← entries entry fuel false)

/-- A node, given how the nodes in it are read. -/
def nodeStep (node : Setting → Build Nat) (bound : Nat) (setting : Setting) : Build Nat := do
  match ← peek with
  | .alias name =>
    skip
    match (← get).anchors.lookup name with
    | some n => return n
    | none => throw .malformed
  | _ =>
    let p ← properties
    let t ← peek
    match t with
    | .scalar text plain =>
      skip
      add p.anchor ⟨p.scalarTag text plain, .scalar text⟩
    | .flowSequenceStart =>
      let n ← add p.anchor ⟨p.tagOr .seq, .sequence []⟩
      skip
      fill n (.sequence (← entries (flowItem · (node .flow)) bound true))
    | .flowMappingStart =>
      let n ← add p.anchor ⟨p.tagOr .map, .mapping []⟩
      skip
      fill n (.mapping (← entries (flowPair · (node .flow)) bound true))
    | _ =>
      if setting == .field && t == .blockEntry then
        let n ← add p.anchor ⟨p.tagOr .seq, .sequence []⟩
        fill n (.sequence (← entries (fun _ => bareItem (node .block)) bound true))
      else if setting != .flow && t == .blockSequenceStart then
        let n ← add p.anchor ⟨p.tagOr .seq, .sequence []⟩
        skip
        fill n (.sequence (← entries (fun _ => blockItem (node .block)) bound true))
      else if setting != .flow && t == .blockMappingStart then
        let n ← add p.anchor ⟨p.tagOr .map, .mapping []⟩
        skip
        fill n (.mapping (← entries (fun _ => blockPair (node .field)) bound true))
      else if p.isEmpty then throw .malformed
      else add p.anchor ⟨p.tagOr .null, .scalar ""⟩

/-- A node that lies at most `fuel` collections deep. -/
def node (bound : Nat) : Nat → Setting → Build Nat
  | 0, _ => throw .malformed
  | fuel + 1, setting => nodeStep (node bound fuel) bound setting

/-! ## Documents -/

def defaultHandles : List (String × String) := [("!", "!"), ("!!", Tag.standardHandle)]

/-- The directives before a document; the version is given once, and each handle once. -/
def directives : Nat → Bool → List (String × String) → Build (List (String × String))
  | 0, _, _ => throw .malformed
  | fuel + 1, versionGiven, given => do
    match ← peek with
    | .version major =>
      if versionGiven || major != 1 then throw .malformed
      skip
      directives fuel true given
    | .tagDirective handle text =>
      if (given.lookup handle).isSome then throw .malformed
      skip
      directives fuel versionGiven ((handle, text) :: given)
    | .otherDirective =>
      skip
      directives fuel versionGiven given
    | _ => return given

def isDirective : Token → Bool
  | .version _ | .tagDirective .. | .otherDirective => true
  | _ => false

/-- The only document of a text; `none` for a text that has none. -/
def document : Build (Option Nat) := do
  let bound := (← get).tokens.length + 1
  let first ← peek
  if first == .streamEnd then return none
  let explicit := isDirective first || first == .documentStart
  let root ←
    if explicit then
      let given ← directives bound false []
      modify fun b => { b with handles := given ++ defaultHandles }
      expect .documentStart
      let t ← peek
      if isDirective t || [.documentStart, .documentEnd, .streamEnd].contains t then empty
      else node bound bound .block
    else node bound bound .block
  let rec ends : Nat → Build Unit
    | 0 => throw .malformed
    | fuel + 1 => do
      if ← accept .documentEnd then ends fuel else expect .streamEnd
  ends bound
  return some root

end Build

/-- The graph of a document's nodes and the number of its root. -/
def Graph.ofTokens (tokens : List Token) : Result (Graph × Option Nat) := do
  let (root, b) ← Build.document.run ⟨tokens, Build.defaultHandles, [], #[]⟩
  return (b.nodes, root)

end TopTag.Document
