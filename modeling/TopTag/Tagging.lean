import TopTag.Attribute
import TopTag.DisplayPath
import TopTag.Log
import TopTag.Settings.Basic
import TopTag.Topmost

/-!
# Tagging a tree

`tagTree` marks the topmost elements of a tree and appends the file's display path to each of their
opening tags. A path that cannot be displayed is reported and replaced; it never stops the work.
-/

namespace TopTag

/-- What tagging leaves: the tree as far as it was changed, the records, and the fault that stopped
it, if one did. -/
structure Tagged where
  tree : Tree
  logs : List Record
  fault : Option Fault

/-- The path to write, with a warning when the one given has no display form. -/
def displayPathOrUnknown (path : PathInput) (marker : String) : String × List Record :=
  match path.displayPath marker with
  | .ok text => (text, [])
  | .error e =>
    (DisplayPath.unknown, Log.recordsOf path.quoted fun text => Log.noDisplayPath text e.message)

/-- Marks the topmost elements below a spot and reports how many there are. -/
def locateTopmost (s : Spot) (c : FileContext) : Except Fault Record × FileContext :=
  match (locate s).exec c with
  | (.error fault, c) => (.error fault, c)
  | (.ok components, c) => (.ok (Log.located c.size components c.filePath), c)

/-- Tags the part of a tree that stands at a place. -/
def tagAt (root : Tree) (place : Place) (path : PathInput) (settings : Settings) : Tagged :=
  if settings.enabled then
    let (display, warnings) := displayPathOrUnknown path settings.rootMarker
    match locateTopmost ⟨place, (root.at? place).getD .null⟩ ⟨display, []⟩ with
    | (.error fault, _) => ⟨root, warnings, some fault⟩
    | (.ok located, c) =>
      match inject c settings.attributeName root place with
      | (pass, some fault) => ⟨pass.tree, warnings ++ [located], some fault⟩
      | (pass, none) =>
        ⟨pass.tree,
          warnings ++ [located, Log.added pass.added settings.attributeName display], none⟩
  else ⟨root, Log.recordsOf path.shown Log.disabled, none⟩

def tagTree (tree : Tree) (path : PathInput) (settings : Settings) : Tagged :=
  tagAt tree [] path settings

end TopTag
