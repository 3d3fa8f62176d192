import TopTag.Tree.Shown

/-!
# Display paths

The path written onto a tag is the file's path from the first occurrence of the project's root
marker on. A path may be given as text, as a path object, as bytes or as some value that is no path
at all; the last two have no display path.
-/

namespace TopTag

/-- A file's path as the caller has it. -/
inductive PathInput where
  | absent
  | text (value : String)
  | path (value : String)
  | bytes (value : List UInt8)
  | other (value : Tree)

/-- Why a value has no display path. -/
inductive PathError where
  | bytes
  | notPath (shape : String)
  deriving DecidableEq

def PathError.message : PathError → String
  | .bytes => "Expected a text path, got bytes"
  | .notPath shape => "expected str, bytes or os.PathLike object, not " ++ shape

namespace DisplayPath

/-- The path of a file that has none. -/
def unknown : String := "unknown"

/-- The longest suffix of a text that begins with the marker. -/
def suffixFrom? (marker : List Char) : List Char → Option (List Char)
  | [] => if marker.isEmpty then some [] else none
  | c :: rest =>
    if marker.isPrefixOf (c :: rest) then some (c :: rest) else suffixFrom? marker rest

/-- A text path from its first root marker on. Without a marker, or where it does not occur, the
path is kept whole. -/
def ofText (path marker : String) : String :=
  if path.isEmpty then unknown
  else if marker.isEmpty then path
  else
    match suffixFrom? marker.toList path.toList with
    | some suffix => String.ofList suffix
    | none => path

end DisplayPath

namespace PathInput

/-- Splits at slashes. -/
def segments : List Char → List (List Char)
  | [] => [[]]
  | c :: rest =>
    if c = '/' then [] :: segments rest
    else
      match segments rest with
      | [] => [[c]]
      | s :: more => (c :: s) :: more

/-- The slashes that a path object keeps at its start: two stay two, any other number is one. -/
def rootOf (cs : List Char) : List Char :=
  match (cs.takeWhile (· = '/')).length with
  | 0 => []
  | 2 => ['/', '/']
  | _ => ['/']

/-- The segments of a path other than empty ones and single dots. -/
def steps (cs : List Char) : List (List Char) :=
  (segments cs).filter fun s => !(s.isEmpty || s == ['.'])

/-- The text of a path object. -/
def pathText (s : String) : String :=
  let cs := s.toList
  let text := rootOf cs ++ List.intercalate ['/'] (steps cs)
  if text.isEmpty then "." else String.ofList text

def shown : PathInput → Except Fault String
  | .absent => .ok "None"
  | .text value => .ok value
  | .path value => .ok (pathText value)
  | .bytes value => .ok (Text.quoteBytes value)
  | .other value => value.shown

def quoted : PathInput → Except Fault String
  | .absent => .ok "None"
  | .text value => .ok (Text.quote value)
  | .path value => .ok (Text.quote (pathText value))
  | .bytes value => .ok (Text.quoteBytes value)
  | .other value => value.quoted

def displayPath (marker : String) : PathInput → Except PathError String
  | .absent => .ok DisplayPath.unknown
  | .text value => .ok (DisplayPath.ofText value marker)
  | .path value => .ok (DisplayPath.ofText (pathText value) marker)
  | .bytes _ => .error .bytes
  | .other value => .error (.notPath value.shapeName)

end PathInput

end TopTag
