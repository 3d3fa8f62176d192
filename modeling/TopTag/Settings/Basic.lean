import TopTag.Datum
import TopTag.Text.Ranges

/-!
# Settings

The three options of the library, and how they are read from a mapping. Each key has a second
spelling; of two spellings given, the one that entered the mapping later counts. A value that does
not fit an option leaves its default, except that an attribute name has to be a text with something
in it. An integer can be a text unless it has too many digits.
-/

namespace TopTag

namespace Datum

/-- The text of a text or of a number. -/
def asText? : Datum → Option String
  | .text value => some value
  | .int value => some (toString value)
  | .float value => some (Decimal.plain.write value)
  | _ => none

def trueWords : List String := ["true", "yes", "1", "on"]

def falseWords : List String := ["false", "no", "0", "off"]

/-- A truth value, an integer, or a word that stands for a truth value. -/
def asBool? : Datum → Option Bool
  | .bool value => some value
  | .int value => some (value != 0)
  | .text value =>
    let word := Text.lower (Text.trim value)
    if trueWords.contains word then some true
    else if falseWords.contains word then some false
    else none
  | _ => none

end Datum

structure Settings where
  rootMarker : String := "src/"
  attributeName : String := "__file-path"
  enabled : Bool := true
  deriving DecidableEq

inductive SettingsError where
  /-- The settings file's text is not a document. -/
  | malformed (name : String)
  /-- The settings file holds something other than a mapping. -/
  | notMapping (name : String)
  | sectionNotMapping
  | blankAttributeName
  /-- An integer that is to be a text has too many digits. -/
  | tooManyDigits
  deriving DecidableEq

def SettingsError.message : SettingsError → String
  | .malformed name => "Failed to parse " ++ name
  | .notMapping name => name ++ " must contain a mapping at the root"
  | .sectionNotMapping => "The 'tagger' section must be a mapping"
  | .blankAttributeName => "attribute_name must be a non-empty string"
  | .tooManyDigits => Decimal.overlongMessage

namespace Settings

/-- The key that a spelling stands for. -/
def canonicalKey (key : String) : String :=
  if key == "rootMarker" then "root_marker"
  else if key == "attributeName" then "attribute_name"
  else key

def canonicalFields (fields : Fields) : Fields :=
  Fields.ofPairs (fields.map fun f => (canonicalKey f.1, f.2))

/-- The text of a value, if it is of a kind that has one. -/
def textOf (value : Datum) : Except SettingsError (Option String) :=
  if value.isOverlong then .error .tooManyDigits else .ok value.asText?

def rootMarkerOf (value : Datum) : Except SettingsError String :=
  (textOf value).map (·.getD ({} : Settings).rootMarker)

def attributeNameOf (value : Datum) : Except SettingsError String := do
  match ← textOf value with
  | some name =>
    if Text.isBlankText name then throw .blankAttributeName else return Text.trim name
  | none => throw .blankAttributeName

/-- The settings that the values of the three options give. -/
def ofValues (marker name enabled : Option Datum) : Except SettingsError Settings := do
  let defaults : Settings := {}
  let rootMarker ← marker.elim (pure defaults.rootMarker) rootMarkerOf
  let attributeName ← name.elim (pure defaults.attributeName) attributeNameOf
  return ⟨rootMarker, attributeName, (enabled.bind Datum.asBool?).getD defaults.enabled⟩

def ofFields (fields : Fields) : Except SettingsError Settings :=
  let given := canonicalFields fields
  ofValues (given.get? "root_marker") (given.get? "attribute_name") (given.get? "enabled")

end Settings

end TopTag
