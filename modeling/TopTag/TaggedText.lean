import TopTag.Concrete.Conversion
import TopTag.Source.Program
import TopTag.Splice
import TopTag.Tagging

/-!
# Tagging a text

From a text and its concrete tree to the text with the attributes written in: conversion, tagging,
splicing.
-/

namespace TopTag

/-- A text or what stood in its way, with the records up to there. -/
structure TaggedText where
  result : Except ParseError String
  logs : List Record

/-- Tags a tree that was read from a text and splices the new attributes into that text. -/
def tagParsed (source : String) (tree : Tree) (path : PathInput) (settings : Settings) :
    TaggedText :=
  match tagTree tree path settings with
  | ⟨_, logs, some fault⟩ => ⟨.error (.fault fault), logs⟩
  | ⟨tree, logs, none⟩ => ⟨(render source tree).mapError .fault, logs⟩

/-- Tags a text whose concrete tree is given. -/
def tagConcrete (source : String) (root : Concrete) (path : PathInput) (settings : Settings) :
    TaggedText :=
  match fileOfConcrete source root with
  | .error e => ⟨.error e, []⟩
  | .ok tree => tagParsed source tree path settings

/-- The tree of a text. -/
def treeOfSource (source : String) : Except ParseError Tree :=
  fileOfConcrete source (Concrete.ofSource source)

/-- Tags a text. Where tagging is off the text is not even read. -/
def tagSource (source : String) (path : PathInput) (settings : Settings) : TaggedText :=
  if settings.enabled then tagConcrete source (Concrete.ofSource source) path settings
  else ⟨.ok source, []⟩

/-- Tags a text several times over, each time with the text that the last success gave. -/
def tagPasses (source : String) : List (PathInput × Settings) → List TaggedText
  | [] => []
  | (path, settings) :: rest =>
    let tagged := tagSource source path settings
    let next := match tagged.result with
      | .ok text => text
      | .error _ => source
    tagged :: tagPasses next rest

end TopTag
