import TopTag.Document.Cursor

/-!
# Scalar texts

The three ways to write a scalar: in quotes, as a block of lines, and plain. Each reader begins at
the scalar's first character and gives its text with the cursor past it.
-/

namespace TopTag.Document

/-! ## In quotes -/

/-- The single characters that an escape stands for. -/
def escapes : List (Char × Nat) :=
  [('0', 0x00), ('a', 0x07), ('b', 0x08), ('t', 0x09), ('\t', 0x09), ('n', 0x0A), ('v', 0x0B),
   ('f', 0x0C), ('r', 0x0D), ('e', 0x1B), (' ', 0x20), ('"', 0x22), ('\\', 0x5C), ('/', 0x2F),
   ('N', 0x85), ('_', 0xA0), ('L', 0x2028), ('P', 0x2029)]

/-- How many digits follow an escape that gives a code point. -/
def escapeWidths : List (Char × Nat) := [('x', 2), ('u', 4), ('U', 8)]

/-- Blank lines inside quotes, each as its line break. -/
def quotedBreaks : Nat → Cursor → Result (List Char × Cursor)
  | 0, _ => .error .malformed
  | fuel + 1, c =>
    if c.atDivider then .error .malformed
    else
      let c := c.skip isSpaceOrTab
      if isBreak c.peek then do
        let (text, c) := c.lineBreak
        let (more, c) ← quotedBreaks fuel c
        return (text ++ more, c)
      else .ok ([], c)

/-- One escape, the cursor standing past its backslash. -/
def escape (c : Cursor) : Result (List Char × Cursor) :=
  let ch := c.peek
  match escapes.lookup ch with
  | some code => .ok ([Char.ofNat code], c.next)
  | none =>
    match escapeWidths.lookup ch with
    | some width =>
      let digits := c.next.rest.take width
      match hexNumber? digits with
      | some code =>
        if digits.length < width then .error .malformed
        else if 0x10FFFF < code then .error .unreadable
        else .ok ([Char.ofNat code], c.next.advance width)
      | none => .error .malformed
    | none =>
      if isBreak ch then quotedBreaks (c.rest.length + 1) c.lineBreak.2 else .error .malformed

/-- Characters that go into a quoted scalar as they are. -/
def isPlainQuoted (c : Char) : Bool := !(c == '\'' || c == '"' || c == '\\' || isBoundary c)

/-- The part of a quoted scalar up to a blank, a break or the closing quote. -/
def quotedWord (double : Bool) : Nat → Cursor → Result (List Char × Cursor)
  | 0, _ => .error .malformed
  | fuel + 1, c => do
    let (word, c) := c.split isPlainQuoted
    let ch := c.peek
    if !double && ch == '\'' && c.peekAt 1 == '\'' then
      let (more, c) ← quotedWord double fuel (c.advance 2)
      return (word ++ '\'' :: more, c)
    else if (double && ch == '\'') || (!double && (ch == '"' || ch == '\\')) then
      let (more, c) ← quotedWord double fuel c.next
      return (word ++ ch :: more, c)
    else if double && ch == '\\' then
      let (text, c) ← escape c.next
      let (more, c) ← quotedWord double fuel c
      return (word ++ text ++ more, c)
    else return (word, c)

/-- The text that a line break with the blank lines after it stands for. -/
def foldBreaks (first more : List Char) : List Char :=
  if first != ['\n'] then first ++ more else if more.isEmpty then [' '] else more

/-- Blanks inside quotes; a line break among them folds. -/
def quotedBlanks (c : Cursor) : Result (List Char × Cursor) := do
  let (blanks, c) := c.split isSpaceOrTab
  if c.peek == nul then throw .malformed
  else if isBreak c.peek then
    let (first, c) := c.lineBreak
    let (more, c) ← quotedBreaks (c.rest.length + 1) c
    return (foldBreaks first more, c)
  else return (blanks, c)

def quotedRest (quote : Char) : Nat → Cursor → Result (List Char × Cursor)
  | 0, _ => .error .malformed
  | fuel + 1, c =>
    if c.peek == quote then .ok ([], c.next)
    else do
      let (blanks, c) ← quotedBlanks c
      let (word, c) ← quotedWord (quote == '"') (c.rest.length + 1) c
      let (more, c) ← quotedRest quote fuel c
      return (blanks ++ word ++ more, c)

def quotedScalar (c : Cursor) : Result (List Char × Cursor) := do
  let quote := c.peek
  let (word, c) ← quotedWord (quote == '"') (c.rest.length + 1) c.next
  let (more, c) ← quotedRest quote (c.rest.length + 1) c
  return (word ++ more, c)

/-! ## As a block of lines -/

inductive Chomping where
  | strip
  | clip
  | keep
  deriving DecidableEq

def chomping? (c : Char) : Option Chomping :=
  if c == '+' then some .keep else if c == '-' then some .strip else none

/-- A digit from one to nine; zero is malformed and anything else is no digit. -/
def increment (c : Char) : Result (Option Nat) :=
  if c == '0' then .error .malformed
  else if c.isDigit then .ok (some (c.toNat - '0'.toNat))
  else .ok none

/-- The indicators of a block scalar in either order. -/
def blockIndicators (c : Cursor) : Result (Chomping × Option Nat × Cursor) := do
  let (chomping, width, c) ←
    match chomping? c.peek with
    | some chomping =>
      let c := c.next
      let width ← increment c.peek
      pure (chomping, width, if width.isSome then c.next else c)
    | none =>
      let width ← increment c.peek
      if width.isSome then
        let c := c.next
        match chomping? c.peek with
        | some chomping => pure (chomping, width, c.next)
        | none => pure (.clip, width, c)
      else pure (.clip, none, c)
  if isSpaceOrEnd c.peek then return (chomping, width, c) else throw .malformed

/-- The blank lines before a block, and the widest indentation seen among them. -/
def blockIndentation : Nat → Nat → Cursor → List Char × Nat × Cursor
  | 0, widest, c => ([], widest, c)
  | fuel + 1, widest, c =>
    if c.peek == ' ' then
      let c := c.next
      blockIndentation fuel (max widest c.column) c
    else if isBreak c.peek then
      let (text, c) := c.lineBreak
      let (more, widest, c) := blockIndentation fuel widest c
      (text ++ more, widest, c)
    else ([], widest, c)

/-- Past the spaces up to a column. -/
def skipIndentation (indent : Nat) (c : Cursor) : Cursor :=
  c.advance (min (indent - c.column) (c.run isSpace).length)

/-- The blank lines inside a block of the given indentation. -/
def blockBreaks (indent : Nat) : Nat → Cursor → List Char × Cursor
  | 0, c => ([], c)
  | fuel + 1, c =>
    let c := skipIndentation indent c
    if isBreak c.peek then
      let (text, c) := c.lineBreak
      let (more, c) := blockBreaks indent fuel c
      (text ++ more, c)
    else ([], c)

/-- The lines of a block from the blank lines `breaks` on, the cursor standing past them: the text,
the last line break, the blank lines at the end and the cursor past them. -/
def blockLines (folded : Bool) (indent : Nat) :
    Nat → List Char → Cursor → List Char × List Char × List Char × Cursor
  | 0, breaks, c => ([], [], breaks, c)
  | fuel + 1, breaks, c =>
    if c.column == indent && c.peek != nul then
      let leading := !isSpaceOrTab c.peek
      let (line, c) := c.split (!isBreakOrEnd ·)
      let (last, c) := c.lineBreak
      let (after, c) := blockBreaks indent (c.rest.length + 1) c
      if c.column == indent && c.peek != nul then
        let joint :=
          if folded && last == ['\n'] && leading && !isSpaceOrTab c.peek then
            if after.isEmpty then [' '] else []
          else last
        let (more, last, tail, c) := blockLines folded indent fuel after c
        (breaks ++ line ++ joint ++ more, last, tail, c)
      else (breaks ++ line, last, after, c)
    else ([], [], breaks, c)

/-- A block scalar in a collection indented by `outer`. -/
def blockScalar (outer : Int) (c : Cursor) : Result (List Char × Cursor) := do
  let folded := c.peek == '>'
  let (chomping, width, c) ← blockIndicators c.next
  let c ← c.endLine
  let least := (max (outer + 1) 1).toNat
  let (breaks, indent, c) :=
    match width with
    | none =>
      let (breaks, widest, c) := blockIndentation (c.rest.length + 1) 0 c
      (breaks, max least widest, c)
    | some width =>
      let indent := least + width - 1
      let (breaks, c) := blockBreaks indent (c.rest.length + 1) c
      (breaks, indent, c)
  let (text, last, tail, c) := blockLines folded indent (c.rest.length + 1) breaks c
  let ending := match chomping with
    | .strip => []
    | .clip => last
    | .keep => last ++ tail
  return (text ++ ending, c)

/-! ## Plain -/

def isFlowIndicator (c : Char) : Bool :=
  c == ',' || c == '[' || c == ']' || c == '\x7b' || c == '\x7d'

/-- The characters of a plain scalar up to a blank or an indicator. -/
def plainWord (flow : Bool) : List Char → List Char
  | [] => []
  | ch :: rest =>
    let following := rest.headD nul
    if isBoundary ch
        || (ch == ':' && (isBoundary following || (flow && isFlowIndicator following)))
        || (flow && (ch == '?' || isFlowIndicator ch)) then []
    else ch :: plainWord flow rest

/-- Blank lines inside a plain scalar; `none` when a divider ends the document there. -/
def plainBreaks : Nat → Cursor → Option (List Char) × Cursor
  | 0, c => (some [], c)
  | fuel + 1, c =>
    if c.peek == ' ' then plainBreaks fuel c.next
    else if isBreak c.peek then
      let (text, c) := c.lineBreak
      if c.atDivider then (none, c)
      else
        let (more, c) := plainBreaks fuel c
        (more.map (text ++ ·), c)
    else (some [], c)

/-- The blanks after a word of a plain scalar: what they stand for if the scalar goes on, whether a
line ended, and the cursor past them. -/
def plainBlanks (c : Cursor) : List Char × Bool × Cursor :=
  let (blanks, c) := c.split isSpace
  if isBreak c.peek then
    let (first, c) := c.lineBreak
    if c.atDivider then ([], true, c)
    else
      match plainBreaks (c.rest.length + 1) c with
      | (none, c) => ([], true, c)
      | (some more, c) => (foldBreaks first more, true, c)
  else (blanks, false, c)

/-- A plain scalar whose lines have to be indented by `indent` outside flow collections: its text,
whether a key may follow, and the cursor past it with its blanks. -/
def plainLines (flow : Bool) (indent : Int) : Nat → List Char → Bool → Cursor →
    List Char × Bool × Cursor
  | 0, _, keyNext, c => ([], keyNext, c)
  | fuel + 1, blanks, keyNext, c =>
    let word := if c.peek == '#' then [] else plainWord flow c.rest
    if word.isEmpty then ([], keyNext, c)
    else
      let (after, ended, c) := plainBlanks (c.advance word.length)
      if after.isEmpty || c.peek == '#' || (!flow && (c.column : Int) < indent) then
        (blanks ++ word, ended, c)
      else
        let (more, keyNext, c) := plainLines flow indent fuel after ended c
        (blanks ++ word ++ more, keyNext, c)

end TopTag.Document
