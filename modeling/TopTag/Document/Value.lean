import TopTag.Document.Node

/-!
# The value of a document

Building a document's value gives every node that can be reached a datum. A collection's datum is
there before its parts have theirs, so a collection may lie in itself, and its parts are built in
the order in which the collections were met. The first node that cannot be built decides the error.
-/

namespace TopTag.Document

/-- The nodes, their data so far, and the collections whose parts are not built yet. -/
structure Builds where
  graph : Graph
  data : Array (Option Datum)
  pending : List Nat

abbrev Construct := StateT Builds Result

namespace Construct

def node (n : Nat) : Construct Node := do
  match (← get).graph[n]? with
  | some node => return node
  | none => throw .malformed

/-- A scalar's text. A mapping has one if a field with the scalar's key leads to it. -/
def scalarText : Nat → Nat → Construct String
  | 0, _ => throw .malformed
  | fuel + 1, n => do
    match (← node n).content with
    | .scalar text => return text
    | .sequence _ => throw .malformed
    | .mapping pairs =>
      match ← pairs.findM? fun p => return (← node p.1).tag == .value with
      | some p => scalarText fuel p.2
      | none => throw .malformed

def textOf (n : Nat) : Construct String := do scalarText ((← get).graph.size + 1) n

def isScalar (n : Nat) : Construct Bool := do
  match (← node n).content with
  | .scalar _ => return true
  | _ => return false

/-- Leaves a collection's parts for later. -/
def postpone (n : Nat) (datum : Datum) : Construct Datum := do
  modify fun b => { b with pending := b.pending ++ [n] }
  return datum

def newDatum (n : Nat) : Construct Datum := do
  match (← node n).tag with
  | .null =>
    let _ ← textOf n
    return .null
  | .bool => return .bool (← readTruth (← textOf n))
  | .int => return .int (← readInteger (← textOf n))
  | .float => return .float (← readFloat (← textOf n))
  | .binary =>
    readBytes (← textOf n)
    return .bytes
  | .timestamp =>
    let text ← textOf n
    if ← isScalar n then
      readDate text
      return .date
    else throw .compoundDate
  | .str => return .text (← textOf n)
  | .seq | .omap | .pairs => postpone n .list
  | .map => postpone n .mapping
  | .set => postpone n .set
  | .merge | .value | .unknown => throw .malformed

/-- A node's datum, built when it is first asked for. -/
def datum (n : Nat) : Construct Datum := do
  match (← get).data[n]? with
  | some (some d) => return d
  | _ =>
    let d ← newDatum n
    modify fun b => { b with data := b.data.setIfInBounds n (some d) }
    return d

def setTag (n : Nat) (tag : Tag) : Construct Unit :=
  modify fun b => { b with graph := b.graph.modify n fun node => { node with tag := tag } }

def setPairs (n : Nat) (pairs : List (Nat × Nat)) : Construct Unit :=
  modify fun b =>
    { b with graph := b.graph.modify n fun node => { node with content := .mapping pairs } }

def pairsOf (n : Nat) : Construct (List (Nat × Nat)) := do
  match (← node n).content with
  | .mapping pairs => return pairs
  | _ => throw .malformed

/-- The pairs that a merged value gives: those of a mapping, or of a sequence of mappings from the
last to the first. `flatten` makes a mapping take over what it merges itself. -/
def mergedPairs (flatten : Nat → Construct Unit) (n : Nat) : Construct (List (Nat × Nat)) := do
  match (← node n).content with
  | .mapping _ =>
    flatten n
    pairsOf n
  | .sequence items =>
    let parts ← items.mapM fun item => do
      let _ ← pairsOf item
      flatten item
      pairsOf item
    return parts.reverse.flatten
  | .scalar _ => throw .malformed

/-- Takes the merge keys out of a mapping from the pair at `index` on and puts the pairs they give
in front of its own. A scalar's key becomes a text. -/
def flattenFrom (flatten : Nat → Construct Unit) (n : Nat) :
    Nat → Nat → List (Nat × Nat) → Construct Unit
  | 0, _, _ => throw .malformed
  | fuel + 1, index, merged => do
    let pairs ← pairsOf n
    match pairs[index]? with
    | none => if merged.isEmpty then pure () else setPairs n (merged ++ pairs)
    | some (key, value) =>
      match (← node key).tag with
      | .merge =>
        setPairs n (pairs.eraseIdx index)
        let more ← mergedPairs flatten value
        flattenFrom flatten n fuel index (merged ++ more)
      | .value =>
        setTag key .str
        flattenFrom flatten n fuel (index + 1) merged
      | _ => flattenFrom flatten n fuel (index + 1) merged

/-- Every merge takes a merge key away, so their number bounds how deep merges go. -/
def flattenWithin (bound : Nat) : Nat → Nat → Construct Unit
  | 0, _ => throw .malformed
  | fuel + 1, n => flattenFrom (flattenWithin bound fuel) n bound 0 []

/-- No document of this many nodes has a mapping with more pairs after its merges. -/
def pairBound (graph : Graph) : Nat := (graph.size + 2) * (graph.size + 2)

def flatten (n : Nat) : Construct Unit := do
  let graph := (← get).graph
  flattenWithin (pairBound graph) (graph.size + 1) n

/-- Only what holds no parts can be a key. -/
def isKey : Datum → Bool
  | .list | .mapping | .set => false
  | _ => true

def buildPair (p : Nat × Nat) : Construct Unit := do
  if isKey (← datum p.1) then
    let _ ← datum p.2
  else throw .malformed

/-- Builds the parts of a collection. -/
def buildParts (n : Nat) : Construct Unit := do
  let here ← node n
  match here.tag, here.content with
  | .seq, .sequence items => items.forM fun item => do
    let _ ← datum item
  | .map, .mapping _ | .set, .mapping _ =>
    flatten n
    (← pairsOf n).forM buildPair
  | .omap, .sequence items | .pairs, .sequence items => items.forM fun item => do
    match (← node item).content with
    | .mapping [(key, value)] =>
      let _ ← datum key
      let _ ← datum value
    | _ => throw .malformed
  | _, _ => throw .malformed

/-- Builds the collections in the order in which they were met. Each node is met once. -/
def buildPending : Nat → Construct Unit
  | 0 => return ()
  | fuel + 1 => do
    let b ← get
    match b.pending with
    | [] => return ()
    | n :: rest =>
      set { b with pending := rest }
      buildParts n
      buildPending fuel

end Construct

end Document

open Document

/-- A value with everything in it. -/
structure Document where
  graph : Graph
  data : Array (Option Datum)
  root : Nat

namespace Document

/-- What reads documents: from a text the value that it describes, or `none` for a text without a
document. -/
abbrev Reader : Type := String → Result (Option Document)

/-- The value that a text describes; `none` for a text without a document. -/
def ofText? (s : String) : Result (Option Document) := do
  let (graph, root) ← Graph.ofTokens (Token.ofText s)
  match root with
  | none => return none
  | some root =>
    let build : Construct Unit := do
      let _ ← Construct.datum root
      Construct.buildPending (graph.size + 1)
    let (_, b) ← build.run ⟨graph, Array.replicate graph.size none, []⟩
    return some ⟨b.graph, b.data, root⟩

def datum (d : Document) (n : Nat) : Datum := ((d.data[n]?).getD none).getD .null

/-- The keys of a mapping that are texts, each with the number of its value. -/
def textPairs (d : Document) (n : Nat) : List (String × Nat) :=
  match d.graph[n]? with
  | some ⟨_, .mapping pairs⟩ => pairs.filterMap fun p =>
    match d.datum p.1 with
    | .text key => some (key, p.2)
    | _ => none
  | _ => []

/-- The fields of a mapping whose keys are texts. -/
def fields (d : Document) (n : Nat) : Fields :=
  Fields.ofPairs ((d.textPairs n).map fun p => (p.1, d.datum p.2))

/-- The number of the value that a mapping holds under a key: the last one given. -/
def lookup? (d : Document) (n : Nat) (key : String) : Option Nat :=
  (d.textPairs n).reverse.lookup key

end Document

end TopTag
