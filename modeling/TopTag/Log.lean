import TopTag.Fault

/-!
# Log records

What the library reports about its work. Every record belongs to a channel below the library's own.
-/

namespace TopTag

inductive Level where
  | debug
  | warning
  deriving DecidableEq

structure Record where
  level : Level
  channel : String
  message : String
  deriving DecidableEq

namespace Log

/-- The library's channel, or the one of the given name below it. -/
def channel (name : Option String) : String :=
  match name with
  | none => "component_tagger"
  | some n => if n.isEmpty then "component_tagger" else "component_tagger." ++ n

def locator : String := channel (some "locator")

def tagger : String := channel (some "tagger")

def located (marks components : Nat) (path : String) : Record :=
  ⟨.debug, locator,
    s!"Located {marks} topmost element(s) across {components} component(s) in {path}"⟩

def added (count : Nat) (name path : String) : Record :=
  ⟨.debug, tagger, s!"Added {count} {name} attribute(s) in {path}"⟩

def disabled (path : String) : Record :=
  ⟨.debug, tagger, s!"Tagging disabled; leaving {path} untouched"⟩

def noDisplayPath (quotedPath reason : String) : Record :=
  ⟨.warning, tagger, s!"Could not derive display path from {quotedPath}: {reason}"⟩

/-- The record of a text. One whose text cannot be written is not made, and stops nothing. -/
def recordsOf (text : Except Fault String) (record : String → Record) : List Record :=
  match text with
  | .ok text => [record text]
  | .error _ => []

end Log

end TopTag
