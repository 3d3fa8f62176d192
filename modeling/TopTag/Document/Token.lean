import TopTag.Document.ScalarText
import TopTag.Text.Utf8

/-!
# Tokens of a document

A document's text is a sequence of tokens. Indentation becomes tokens that open and close block
collections, and a scalar turns out to be a key when a colon follows it on the same line, so the
token for the key is put in front of it afterwards.
-/

namespace TopTag.Document

inductive Token where
  | streamEnd
  | version (major : Nat)
  | tagDirective (handle uri : String)
  | otherDirective
  | documentStart
  | documentEnd
  | blockSequenceStart
  | blockMappingStart
  | blockEnd
  | flowSequenceStart
  | flowSequenceEnd
  | flowMappingStart
  | flowMappingEnd
  | blockEntry
  | flowEntry
  | key
  | value
  | alias (name : String)
  | anchor (name : String)
  | tag (handle : Option String) (suffix : String)
  | scalar (text : String) (plain : Bool)
  /-- The text cannot be read any further. -/
  | broken (error : DocumentError)
  deriving DecidableEq

/-! ## Tokens with a content of their own -/

/-- The name after an anchor's or an alias's indicator. -/
def anchorName (c : Cursor) : Result (String × Cursor) :=
  let (name, c) := c.next.split isWordChar
  let ch := c.peek
  if name.isEmpty then .error .malformed
  else if isBoundary ch || ['?', ':', ',', ']', '\x7d', '%', '@', Char.ofNat 0x60].contains ch then
    .ok (String.ofList name, c)
  else .error .malformed

def isUriChar (c : Char) : Bool := c.isAlphanum || "-;/?:@&=+$,_.!~*'()[]".toList.contains c

/-- The bytes that a run of percent escapes gives. -/
def uriBytes : Nat → Cursor → Result (List UInt8 × Cursor)
  | 0, _ => .error .malformed
  | fuel + 1, c =>
    if c.peek == '%' then
      match hexNumber? [c.peekAt 1, c.peekAt 2] with
      | none => .error .malformed
      | some code => do
        let (more, c) ← uriBytes fuel (c.advance 3)
        return (code.toUInt8 :: more, c)
    else .ok ([], c)

def uriParts : Nat → Cursor → Result (List Char × Cursor)
  | 0, _ => .error .malformed
  | fuel + 1, c =>
    if c.peek == '%' then do
      let (bytes, c) ← uriBytes (c.rest.length + 1) c
      match Text.Utf8.decode? bytes with
      | none => throw .malformed
      | some text =>
        let (more, c) ← uriParts fuel c
        return (text ++ more, c)
    else if isUriChar c.peek then do
      let (part, c) := c.split isUriChar
      let (more, c) ← uriParts fuel c
      return (part ++ more, c)
    else .ok ([], c)

/-- A tag's suffix or a tag directive's second part; it is never empty. -/
def uri (c : Cursor) : Result (String × Cursor) :=
  if c.peek == '%' || isUriChar c.peek then do
    let (text, c) ← uriParts (c.rest.length + 1) c
    return (String.ofList text, c)
  else .error .malformed

/-- A tag's handle: a word between exclamation marks, or one mark before a space. -/
def tagHandle (c : Cursor) : Result (String × Cursor) :=
  if c.peek != '!' then .error .malformed
  else if c.peekAt 1 == ' ' then .ok ("!", c.next)
  else
    let (word, d) := c.next.split isWordChar
    if d.peek == '!' then .ok (String.ofList ('!' :: word ++ ['!']), d.next) else .error .malformed

def tagToken (c : Cursor) : Result (Token × Cursor) := do
  let ch := c.peekAt 1
  let (token, c) ←
    if ch == '<' then
      let (suffix, c) ← uri (c.advance 2)
      if c.peek == '>' then pure (Token.tag none suffix, c.next) else throw .malformed
    else if isBoundary ch then pure (Token.tag none "!", c.next)
    else if (c.next.run (!isSpaceOrEnd ·)).contains '!' then
      let (handle, c) ← tagHandle c
      let (suffix, c) ← uri c
      pure (Token.tag (some handle) suffix, c)
    else
      let (suffix, c) ← uri c.next
      pure (Token.tag (some "!") suffix, c)
  if isSpaceOrEnd c.peek then return (token, c) else throw .malformed

def decimalNumber (cs : List Char) : Nat := cs.foldl (fun n c => n * 10 + (c.toNat - '0'.toNat)) 0

def versionNumber (c : Cursor) : Result (Nat × Cursor) :=
  let (digits, c) := c.split Char.isDigit
  if digits.isEmpty then .error .malformed else .ok (decimalNumber digits, c)

def directive (c : Cursor) : Result (Token × Cursor) := do
  let (name, c) := c.next.split isWordChar
  if name.isEmpty || !isSpaceOrEnd c.peek then throw .malformed
  let (token, c) ←
    if String.ofList name == "YAML" then
      let (major, c) ← versionNumber (c.skip isSpace)
      if c.peek != '.' then throw .malformed
      let (_, c) ← versionNumber c.next
      if isSpaceOrEnd c.peek then pure (Token.version major, c) else throw .malformed
    else if String.ofList name == "TAG" then
      let (handle, c) ← tagHandle (c.skip isSpace)
      if c.peek != ' ' then throw .malformed
      let (text, c) ← uri (c.skip isSpace)
      if isSpaceOrEnd c.peek then pure (Token.tagDirective handle text, c) else throw .malformed
    else pure (Token.otherDirective, c.skip (!isBreakOrEnd ·))
  let c ← c.endLine
  return (token, c)

/-! ## The sequence of tokens -/

/-- A token that becomes a key if a colon follows it. -/
structure KeyCandidate where
  /-- How many tokens precede it. -/
  position : Nat
  /-- Without the colon the text is malformed. -/
  required : Bool
  index : Nat
  line : Nat
  column : Nat

structure Lexer where
  cursor : Cursor
  tokens : List Token
  flowLevel : Nat
  keyAllowed : Bool
  candidates : List (Nat × KeyCandidate)
  indent : Int
  indents : List Int

namespace Lexer

def start (s : String) : Lexer := ⟨Cursor.ofString s, [], 0, true, [], -1, []⟩

def inFlow (l : Lexer) : Bool := l.flowLevel != 0

def emit (l : Lexer) (t : Token) : Lexer := { l with tokens := l.tokens ++ [t] }

def emitAt (l : Lexer) (position : Nat) (t : Token) : Lexer :=
  { l with tokens := l.tokens.take position ++ t :: l.tokens.drop position }

/-- Past spaces, comments and line ends. Outside flow collections a key may follow a line end. -/
def toNextToken : Nat → Lexer → Lexer
  | 0, l => l
  | fuel + 1, l =>
    let c := l.cursor.skip isSpace
    let c := if c.peek == '#' then c.skip (!isBreakOrEnd ·) else c
    if isBreak c.peek then
      toNextToken fuel
        { l with cursor := c.lineBreak.2, keyAllowed := l.keyAllowed || !l.inFlow }
    else { l with cursor := c }

/-- A candidate is a key only on its own line and within 1024 characters. -/
def dropStale (l : Lexer) : Result Lexer :=
  let isStale (k : KeyCandidate) : Bool :=
    k.line != l.cursor.line || l.cursor.index - k.index > 1024
  if l.candidates.any fun k => isStale k.2 && k.2.required then .error .malformed
  else .ok { l with candidates := l.candidates.filter fun k => !isStale k.2 }

def dropCandidate (l : Lexer) : Result Lexer :=
  match l.candidates.lookup l.flowLevel with
  | some k =>
    if k.required then .error .malformed
    else .ok { l with candidates := l.candidates.filter fun k => k.1 != l.flowLevel }
  | none => .ok l

/-- Notes that the token to come may be a key. -/
def noteCandidate (l : Lexer) : Result Lexer :=
  if l.keyAllowed then do
    let l ← l.dropCandidate
    let k : KeyCandidate :=
      { position := l.tokens.length
        required := !l.inFlow && l.indent == l.cursor.column
        index := l.cursor.index
        line := l.cursor.line
        column := l.cursor.column }
    return { l with candidates := (l.flowLevel, k) :: l.candidates }
  else .ok l

/-- Closes the block collections indented deeper than a column. -/
def unwindFrom (column : Int) : List Int → Lexer → Lexer
  | [], l => l
  | outer :: rest, l =>
    if column < l.indent then
      unwindFrom column rest ({ l with indent := outer, indents := rest }.emit .blockEnd)
    else l

def unwind (l : Lexer) (column : Int) : Lexer :=
  if l.inFlow then l else unwindFrom column l.indents l

/-- Opens a block collection at a column unless one is open there. -/
def openBlock (l : Lexer) (column : Int) (position : Nat) (t : Token) : Lexer :=
  if l.indent < column then
    { l with indent := column, indents := l.indent :: l.indents }.emitAt position t
  else l

def take (l : Lexer) (n : Nat) : Lexer := { l with cursor := l.cursor.advance n }

def divider (l : Lexer) (t : Token) : Result Lexer := do
  let l ← (l.unwind (-1)).dropCandidate
  return ({ l with keyAllowed := false }.emit t).take 3

def openFlow (l : Lexer) (t : Token) : Result Lexer := do
  let l ← l.noteCandidate
  return ({ l with flowLevel := l.flowLevel + 1, keyAllowed := true }.emit t).take 1

def closeFlow (l : Lexer) (t : Token) : Result Lexer := do
  if l.flowLevel == 0 then throw .malformed
  let l ← l.dropCandidate
  return ({ l with flowLevel := l.flowLevel - 1, keyAllowed := false }.emit t).take 1

def flowEntry (l : Lexer) : Result Lexer := do
  let l ← { l with keyAllowed := true }.dropCandidate
  return (l.emit .flowEntry).take 1

/-- An indicator that opens a block collection of its own outside flow collections. -/
def blockIndicator (l : Lexer) (opener t : Token) (keyNext : Bool) : Result Lexer := do
  if !l.inFlow && !l.keyAllowed then throw .malformed
  let l := if l.inFlow then l else l.openBlock l.cursor.column l.tokens.length opener
  let l ← { l with keyAllowed := keyNext }.dropCandidate
  return (l.emit t).take 1

def valueIndicator (l : Lexer) : Result Lexer :=
  match l.candidates.lookup l.flowLevel with
  | some k =>
    let l := { l with candidates := l.candidates.filter fun k => k.1 != l.flowLevel }
    let l := l.emitAt k.position .key
    let l := if l.inFlow then l else l.openBlock k.column k.position .blockMappingStart
    .ok (({ l with keyAllowed := false }.emit .value).take 1)
  | none => l.blockIndicator .blockMappingStart .value (!l.inFlow)

/-- A token read from the cursor that may turn out to be a key. -/
def content (l : Lexer) (read : Cursor → Result (Token × Cursor)) : Result Lexer := do
  let l ← l.noteCandidate
  let (t, c) ← read l.cursor
  return { l with cursor := c, keyAllowed := false }.emit t

def block (l : Lexer) : Result Lexer := do
  let l ← { l with keyAllowed := true }.dropCandidate
  let (text, c) ← blockScalar l.indent l.cursor
  return { l with cursor := c }.emit (.scalar (String.ofList text) false)

def plain (l : Lexer) : Result Lexer := do
  let l ← l.noteCandidate
  let (text, keyNext, c) :=
    plainLines l.inFlow (l.indent + 1) (l.cursor.rest.length + 1) [] false l.cursor
  return { l with cursor := c, keyAllowed := keyNext }.emit (.scalar (String.ofList text) true)

/-- A character that cannot begin a plain scalar unless something follows it. -/
def isIndicator (c : Char) : Bool :=
  "-?:,[]#&*!|>'\"%@".toList.contains c || c == '\x7b' || c == '\x7d' || c == Char.ofNat 0x60

def beginsPlain (l : Lexer) : Bool :=
  let ch := l.cursor.peek
  !(isBoundary ch || isIndicator ch)
    || (!isBoundary (l.cursor.peekAt 1)
      && (ch == '-' || (!l.inFlow && (ch == '?' || ch == ':'))))

/-- Reads one token that begins at the cursor. -/
def token (l : Lexer) : Result Lexer :=
  let ch := l.cursor.peek
  let atMargin := l.cursor.column == 0
  let separated := l.inFlow || isBoundary (l.cursor.peekAt 1)
  if ch == '%' && atMargin then do
    let l ← (l.unwind (-1)).dropCandidate
    let (t, c) ← directive l.cursor
    return { l with cursor := c, keyAllowed := false }.emit t
  else if ch == '-' && atMargin && l.cursor.atDivider then l.divider .documentStart
  else if ch == '.' && atMargin && l.cursor.atDivider then l.divider .documentEnd
  else if ch == '[' then l.openFlow .flowSequenceStart
  else if ch == '\x7b' then l.openFlow .flowMappingStart
  else if ch == ']' then l.closeFlow .flowSequenceEnd
  else if ch == '\x7d' then l.closeFlow .flowMappingEnd
  else if ch == ',' then l.flowEntry
  else if ch == '-' && isBoundary (l.cursor.peekAt 1) then
    l.blockIndicator .blockSequenceStart .blockEntry true
  else if ch == '?' && separated then l.blockIndicator .blockMappingStart .key (!l.inFlow)
  else if ch == ':' && separated then l.valueIndicator
  else if ch == '*' then
    l.content fun c => (anchorName c).map fun (name, c) => (.alias name, c)
  else if ch == '&' then
    l.content fun c => (anchorName c).map fun (name, c) => (.anchor name, c)
  else if ch == '!' then l.content tagToken
  else if (ch == '|' || ch == '>') && !l.inFlow then l.block
  else if ch == '\'' || ch == '"' then
    l.content fun c => (quotedScalar c).map fun (text, c) =>
      (.scalar (String.ofList text) false, c)
  else if l.beginsPlain then l.plain
  else .error .malformed

/-- Reads the next token, or closes what is open at the end of the text. -/
def step (l : Lexer) : Result Lexer := do
  let l ← (l.toNextToken (l.cursor.rest.length + 1)).dropStale
  let l := l.unwind l.cursor.column
  if l.cursor.peek == nul then
    let l ← (l.unwind (-1)).dropCandidate
    return l.emit .streamEnd
  else l.token

/-- Reads tokens up to the end of the text or to the place where it breaks. -/
def tokensFrom : Nat → Lexer → List Token
  | 0, l => (l.emit (.broken .malformed)).tokens
  | fuel + 1, l =>
    match l.step with
    | .error e => (l.emit (.broken e)).tokens
    | .ok next =>
      if next.tokens.getLast? == some .streamEnd then next.tokens else tokensFrom fuel next

end Lexer

/-- The characters that may stand in a document. -/
def isAllowed (c : Char) : Bool :=
  let n := c.toNat
  n == 0x09 || n == 0x0A || n == 0x0D || (0x20 ≤ n && n ≤ 0x7E) || n == 0x85
    || (0xA0 ≤ n && n ≤ 0xFFFD) || 0x10000 ≤ n

/-- The tokens of a text; a byte order mark at its start does not count. -/
def Token.ofText (s : String) : List Token :=
  let l := Lexer.start s
  let l := if l.cursor.peek == byteOrderMark then l.take 1 else l
  if s.toList.all isAllowed then l.tokensFrom (s.length + 2) else [.broken .malformed]

end TopTag.Document
