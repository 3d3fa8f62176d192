import TopTag.Datum
import TopTag.Document.Date
import TopTag.Document.Number

/-!
# Tags

A tag says what kind of value a node stands for. A plain scalar without one gets its tag from the
form of its text.
-/

namespace TopTag.Document

inductive Tag where
  | null
  | bool
  | int
  | float
  | binary
  | timestamp
  | str
  | seq
  | map
  | set
  | omap
  | pairs
  /-- The key of a mapping whose fields another mapping takes over. -/
  | merge
  /-- The key of a mapping's own scalar. -/
  | value
  | unknown
  deriving DecidableEq

namespace Tag

/-- What a tag's handle of two marks stands for. -/
def standardHandle : String := "tag:yaml.org,2002:"

def standardNames : List (String × Tag) :=
  [("null", .null), ("bool", .bool), ("int", .int), ("float", .float), ("binary", .binary),
   ("timestamp", .timestamp), ("str", .str), ("seq", .seq), ("map", .map), ("set", .set),
   ("omap", .omap), ("pairs", .pairs), ("merge", .merge), ("value", .value)]

def ofName (name : String) : Tag :=
  match standardNames.find? fun p => standardHandle ++ p.1 == name with
  | some (_, tag) => tag
  | none => .unknown

def truthWords : List String :=
  ["yes", "Yes", "YES", "no", "No", "NO", "true", "True", "TRUE", "false", "False", "FALSE",
   "on", "On", "ON", "off", "Off", "OFF"]

def nullWords : List String := ["~", "null", "Null", "NULL"]

/-- A text without the line feed at its end. -/
def withoutLastBreak (cs : List Char) : List Char :=
  if cs.getLast? == some '\n' then cs.dropLast else cs

/-- The tag that the form of a text gives it. A line feed at its end plays no part. -/
def ofForm (s : String) : Tag :=
  let cs := withoutLastBreak s.toList
  let word := String.ofList cs
  if s.isEmpty then .null
  else if truthWords.contains word then .bool
  else if isFloatText cs then .float
  else if isIntegerText cs then .int
  else if word == "<<" then .merge
  else if nullWords.contains word then .null
  else if Date.isDateText cs then .timestamp
  else if word == "=" then .value
  else if word == "!" || word == "&" || word == "*" then .unknown
  else .str

end Tag

/-! ## The value of a scalar -/

/-- The truth value that a word stands for in any case of its letters. -/
def readTruth (s : String) : Result Bool :=
  let word := Text.lower s
  if word == "yes" || word == "true" || word == "on" then .ok true
  else if word == "no" || word == "false" || word == "off" then .ok false
  else .error .unknownWord

def isBase64 (c : Char) : Bool := c.isAlphanum || c == '+' || c == '/'

/-- Bytes come in groups of four letters of which the last may be padded; characters outside the
alphabet are passed over. `filled` letters of the current group are read and `pads` marks follow
them. -/
def isPadded : Nat → Nat → List Char → Bool
  | filled, _, [] => filled == 0
  | filled, pads, c :: cs =>
    if c == '=' then
      if 2 ≤ filled then
        if 4 ≤ filled + (pads + 1) then true else isPadded filled (pads + 1) cs
      else isPadded filled pads cs
    else if isBase64 c then isPadded ((filled + 1) % 4) 0 cs
    else isPadded filled pads cs

def readBytes (s : String) : Result Unit :=
  if s.toList.all (·.toNat < 128) && isPadded 0 0 s.toList then .ok () else .error .malformed

def readDate (s : String) : Result Unit :=
  match Date.ofText? (Tag.withoutLastBreak s.toList) with
  | none => .error .notDate
  | some date => if date.isValid then .ok () else .error .unreadable

end TopTag.Document
