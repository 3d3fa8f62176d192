import TopTag.Document.Value
import TopTag.Settings.Basic
import TopTag.Text.Utf8

/-!
# The settings file

Settings come from a document: a mapping that holds them itself or in its section for this library.
The document is looked for at a place of a volume, which may be a directory that holds the file
under its usual name. Without a file the settings are the default ones. How a text becomes a
document is up to the reader that `Settings.load` takes; `Settings.ofVolume` takes the one of this
library.
-/

namespace TopTag

/-- Files and directories under one directory, named by the components of their paths. -/
structure Volume where
  directories : List (List String)
  files : List (List String × List UInt8)

namespace Volume

inductive Entry where
  | file (bytes : List UInt8)
  | directory
  | missing

/-- The components of a path that count. -/
def components (path : String) : List String :=
  (path.splitOn "/").filter fun part => part != "" && part != "."

def isDirectory (v : Volume) (place : List String) : Bool :=
  place.isEmpty || v.directories.any place.isPrefixOf
    || v.files.any fun f => place.isPrefixOf f.1 && place.length < f.1.length

def entry (v : Volume) (place : List String) : Entry :=
  match v.files.reverse.find? fun f => f.1 == place with
  | some f => .file f.2
  | none => if v.isDirectory place then .directory else .missing

/-- A place reached from the volume's root: how many directories above it, and the way down. -/
structure Position where
  above : Nat := 0
  down : List String := []

namespace Position

def up (p : Position) : Position :=
  if p.down.isEmpty then { p with above := p.above + 1 } else { p with down := p.down.dropLast }

def enter (p : Position) (name : String) : Position :=
  if name == ".." then p.up else { p with down := p.down ++ [name] }

end Position

/-- What is at a position; nothing but directories is known of what lies above the volume. -/
def entryAt (v : Volume) (p : Position) : Entry :=
  if p.above == 0 then v.entry p.down else if p.down.isEmpty then .directory else .missing

/-- The position that a path leads to from the root, whatever is there. -/
def resolve (parts : List String) : Position := parts.foldl Position.enter {}

/-- Every step of the path is taken from a directory, and it ends at one. -/
def leadsToDirectory (v : Volume) (parts : List String) : Bool :=
  (List.range (parts.length + 1)).all fun n =>
    match v.entryAt (resolve (parts.take n)) with
    | .directory => true
    | _ => false

end Volume

/-- Why settings could not be read from a volume. -/
inductive LoadError where
  | settings (error : SettingsError)
  /-- A scalar of the document cannot be read. -/
  | document (error : Document.DocumentError)
  /-- The file is not a text. -/
  | notText
  /-- A directory stands where the file should. -/
  | isDirectory

namespace Settings

def fileName : String := ".component-tagger.yml"

/-- Every way to end a line as a line feed. -/
def withLineFeeds : List Char → List Char
  | '\r' :: '\n' :: cs => '\n' :: withLineFeeds cs
  | '\r' :: cs => '\n' :: withLineFeeds cs
  | c :: cs => c :: withLineFeeds cs
  | [] => []

def sectionName : String := "tagger"

/-- The settings in a document, `name` being its file's. -/
def ofDocument (name : String) (d : Document) : Except SettingsError Settings :=
  match d.datum d.root with
  | .null => .ok {}
  | .mapping =>
    match d.lookup? d.root sectionName with
    | none => ofFields (d.fields d.root)
    | some n =>
      match d.datum n with
      | .mapping => ofFields (d.fields n)
      | _ => .error .sectionNotMapping
  | _ => .error (.notMapping name)

/-- The settings that a text describes, `name` being its file's. A blank text has the default
ones. -/
def ofText (read : Document.Reader) (name : String) (text : String) : Except LoadError Settings :=
  if Text.isBlankText text then .ok {}
  else
    match read text with
    | .error .malformed => .error (.settings (.malformed name))
    | .error e => .error (.document e)
    | .ok none => .ok {}
    | .ok (some d) => (ofDocument name d).mapError .settings

/-- The settings that a path leads to, in a file that `read` makes a document of. -/
def load (read : Document.Reader) (v : Volume) (path : String) : Except LoadError Settings :=
  let parts := Volume.components path
  let parts := if v.leadsToDirectory parts then parts ++ [fileName] else parts
  let place := Volume.resolve parts
  match v.entryAt place with
  | .missing => .ok {}
  | .directory => .error .isDirectory
  | .file bytes =>
    match Text.Utf8.decode? bytes with
    | none => .error .notText
    | some cs => ofText read (place.down.getLast?.getD "") (String.ofList (withLineFeeds cs))

/-- The settings that a path leads to, in a file as this library reads documents. -/
def ofVolume (v : Volume) (path : String) : Except LoadError Settings :=
  load Document.ofText? v path

end Settings

end TopTag
