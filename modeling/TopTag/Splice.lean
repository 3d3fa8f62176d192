import TopTag.Attribute
import TopTag.Tree.Shown

/-!
# Splicing attributes into a text

Attributes that were read from a text carry offsets into it; those that do not were added later.
`render` writes the added ones into the text, behind the last attribute of their tag that ends
somewhere, or behind the tag's name. Everything else in the text stays as it was.
-/

namespace TopTag

/-- A text to insert, and the offset it goes to as the tree has it. -/
structure Insertion where
  offset : Tree
  text : String

namespace Splice

/-- Double quotes are written as a character reference. -/
def escapeList : List Char → List Char
  | [] => []
  | c :: rest => if c = '"' then "&quot;".toList ++ escapeList rest else c :: escapeList rest

def escape (s : String) : String := String.ofList (escapeList s.toList)

/-- An attribute as it stands in a tag. -/
def attributeText (a : Tree) : Except Fault String := do
  match a.attributeName with
  | .null =>
    let kind ← a.consult "type"
    let kind ← kind.quoted
    throw (.unwritableAttribute kind)
  | name =>
    match a.get "value" with
    | .null => name.shown
    | value =>
      let kind ← value.consult "type"
      if kind.isText "StringLiteral" then
        let content ← ((value.field? "value").getD (.text "")).shown
        let name ← name.shown
        return name ++ "=\"" ++ escape content ++ "\""
      else
        let kind ← kind.quoted
        throw (.unwritableValue kind)

/-- The entries that a word is not mentioned in. -/
def lacking (word : String) : List Tree → Except Fault (List Tree)
  | [] => .ok []
  | a :: rest => do
    let found ← a.mentions word
    let others ← lacking word rest
    return if found then others else a :: others

/-- The last of the entries that mention a word. -/
def lastMentioning? (word : String) : List Tree → Except Fault (Option Tree)
  | [] => .ok none
  | a :: rest => do
    let found ← a.mentions word
    let later ← lastMentioning? word rest
    return later.or (if found then some a else none)

/-- The offset behind which new attributes of a tag go. -/
def anchor (tag : Tree) (attributes : List Tree) : Except Fault Tree := do
  let last ← lastMentioning? "end" attributes
  match (last.getD (tag.get "name")).field? "end" with
  | some offset => return offset
  | none => throw .noAnchor

def spaced : List Tree → Except Fault String
  | [] => .ok ""
  | a :: rest => do
    let first ← attributeText a
    let others ← spaced rest
    return " " ++ first ++ others

/-- What has to be inserted for one visited node. -/
def insertion? (node : Tree) : Except Fault (Option Insertion) := do
  let kind ← node.require "type"
  if kind.isText "JSXOpeningElement" then
    let attributes ← (node.get "attributes").entries
    let added ← lacking "start" attributes
    if added.isEmpty then return none
    else
      let offset ← anchor node attributes
      let text ← spaced added
      return some ⟨offset, text⟩
  else return none

def insertionsOf : List Visit → Except Fault (List Insertion)
  | [] => .ok []
  | v :: rest => do
    let first ← insertion? v.spot.tree
    let others ← insertionsOf rest
    return first.toList ++ others

/-- The insertions that a tree asks for, in the order of the walk. -/
def insertions (tree : Tree) : Except Fault (List Insertion) := insertionsOf (walk (Spot.root tree))

/-- An offset as a whole number. -/
def position? : Tree → Option Int
  | .int value => some value
  | .bool value => some (if value then 1 else 0)
  | _ => none

/-- The index that a whole number stands for: a negative one counts from the end, and one beyond
either end stops there. -/
def clamp (length : Nat) (position : Int) : Nat :=
  if position < 0 then (length + position).toNat else min position.toNat length

def insertAt (source : List Char) (position : Int) (text : List Char) : List Char :=
  let n := clamp source.length position
  source.take n ++ text ++ source.drop n

/-- Insertions with their positions, or a fault when one has none. -/
def positioned : List Insertion → Except Fault (List (Int × String))
  | [] => .ok []
  | i :: rest => do
    match position? i.offset with
    | some n =>
      let others ← positioned rest
      return (n, i.text) :: others
    | none => throw .badOffset

/-- From the rear to the front; those at one position keep their order. -/
def rearFirst (is : List (Int × String)) : List (Int × String) :=
  is.mergeSort fun a b => b.1 ≤ a.1

def applyAll (source : List Char) (is : List (Int × String)) : List Char :=
  is.foldl (fun text i => insertAt text i.1 i.2.toList) source

/-- Carries out the insertions. A single one without an offset goes between two copies of the
text. -/
def apply (source : String) (is : List Insertion) : Except Fault String :=
  match is with
  | [⟨.null, text⟩] => .ok (source ++ text ++ source)
  | is => do
    let placed ← positioned is
    return String.ofList (applyAll source.toList (rearFirst placed))

end Splice

/-- The text with every added attribute of the tree spliced in. -/
def render (source : String) (tree : Tree) : Except Fault String := do
  let is ← Splice.insertions tree
  Splice.apply source is

end TopTag
