import TopTag.Source.Rule

/-!
# Templates

A text between backticks holds its own characters, escapes, and holes that other rules read.
-/

namespace TopTag.Source

open Rule

/-- The length of the run of a template's own characters. -/
def templateRun : List Char → Nat
  | '$' :: '\x7b' :: _ => 0
  | c :: cs => if c == '\\' || c == Char.ofNat 0x60 then 0 else 1 + templateRun cs
  | [] => 0

/-- The pieces of a text between backticks, each hole read by the rule given. -/
def templatePieces (hole : Rule) : Nat → Rule
  | 0, _ => none
  | fuel + 1, c =>
    let piece : Rule := fun c =>
      match c.rest with
      | '\\' :: _ :: _ => lexeme "escape_sequence" true 2 c
      | '$' :: '\x7b' :: _ =>
        node "template_substitution" (adjacent "$\x7b" ++ hole ++ symbol "\x7d") c
      | _ =>
        let n := templateRun c.rest
        if n == 0 then none else lexeme "string_fragment" true n c
    match adjacent "`" c with
    | some read => some read
    | none => do
      let (first, d) ← piece c
      let (more, d) ← templatePieces hole fuel d
      return (first ++ more, d)

def templateRest (hole : Rule) : Rule := fun c => templatePieces hole c.bound c

/-- A text between backticks. -/
def template (hole : Rule) : Rule := node "template_string" (symbol "`" ++ templateRest hole)

end TopTag.Source
