import TopTag.Splice
import TopTag.Tagging

/-!
# Sessions

A session is a tree with one file context, and a run of commands on places of the tree. Marks go
into the context and attributes into the tree; a command that fails keeps what it did before and
does not end the session.
-/

namespace TopTag

namespace Session

inductive Action where
  | scanComponents
  | resolveReturnSites
  | resolveAttributeValues
  | markReturned
  | markFragmentChildren
  | markEmbedded
  | locateTopmost
  | mark
  | isMarked
  | newContext (filePath : String)
  | inject (name : String)
  | hasAttribute (name : Option String)
  | tag (path : PathInput) (settings : Settings)
  | render (source : String)

structure Command where
  action : Action
  place : Place

inductive Answer where
  | nothing
  | flag (value : Bool)
  | count (value : Nat)
  | text (value : String)

structure State where
  tree : Tree
  context : FileContext

/-- What a command answers, with the records it left. -/
structure Reply where
  result : Except Fault Answer
  logs : List Record

/-- Runs a marking computation in the session's context. -/
def State.marking {α : Type} (s : State) (m : Marking α) (answer : α → Answer) : Reply × State :=
  match m.exec s.context with
  | (result, c) => (⟨result.map answer, []⟩, { s with context := c })

def State.spot (s : State) (place : Place) : Spot := ⟨place, (s.tree.at? place).getD .null⟩

def State.run (s : State) (command : Command) : Reply × State :=
  let spot := s.spot command.place
  match command.action with
  | .scanComponents => s.marking (TopTag.scanComponents spot) .count
  | .resolveReturnSites => s.marking (TopTag.resolveReturnSites spot) fun _ => .nothing
  | .resolveAttributeValues => s.marking (TopTag.resolveAttributeValues spot) fun _ => .nothing
  | .markReturned => s.marking (TopTag.markReturned spot) fun _ => .nothing
  | .markFragmentChildren => s.marking (TopTag.markFragmentChildren spot) fun _ => .nothing
  | .markEmbedded => s.marking (TopTag.markEmbedded spot) fun _ => .nothing
  | .mark => s.marking (Marking.mark spot) fun _ => .nothing
  | .locateTopmost =>
    match TopTag.locateTopmost spot s.context with
    | (.ok record, c) => (⟨.ok (.text c.filePath), [record]⟩, { s with context := c })
    | (.error fault, c) => (⟨.error fault, []⟩, { s with context := c })
  | .isMarked => (⟨.ok (.flag (s.context.isMarked spot.identity)), []⟩, s)
  | .newContext filePath => (⟨.ok .nothing, []⟩, { s with context := ⟨filePath, []⟩ })
  | .inject name =>
    match TopTag.inject s.context name s.tree command.place with
    | (pass, some fault) => (⟨.error fault, []⟩, { s with tree := pass.tree })
    | (pass, none) => (⟨.ok (.count pass.added), []⟩, { s with tree := pass.tree })
  | .hasAttribute name => (⟨(TopTag.hasAttribute spot.tree name).map .flag, []⟩, s)
  | .tag path settings =>
    match tagAt s.tree command.place path settings with
    | ⟨tree, logs, some fault⟩ => (⟨.error fault, logs⟩, { s with tree := tree })
    | ⟨tree, logs, none⟩ => (⟨.ok .nothing, logs⟩, { s with tree := tree })
  | .render source => (⟨(TopTag.render source spot.tree).map .text, []⟩, s)

/-- The places of the session's marked objects as texts, in ascending order. -/
def State.markedTexts (s : State) : List String :=
  ((s.context.markedPlaces s.tree).map Place.shown).mergeSort fun a b => !decide (b < a)

end Session

end TopTag
