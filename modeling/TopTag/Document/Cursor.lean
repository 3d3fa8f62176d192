/-!
# A cursor over a document's text

Positions in a document count lines and columns, since indentation carries its structure. Past the
end of the text every character reads as NUL, which no document holds.
-/

namespace TopTag.Document

/-- Why a document cannot be read. -/
inductive DocumentError where
  /-- The text is no document, or asks for a value that cannot be built. -/
  | malformed
  /-- A text that should be a number, a date or a code point is none. -/
  | unreadable
  /-- A number has no digits at all. -/
  | noDigits
  /-- A word that should stand for a truth value does not. -/
  | unknownWord
  /-- A text that should be a date does not have the form of one. -/
  | notDate
  /-- A mapping stands where a date should. -/
  | compoundDate
  deriving DecidableEq

abbrev Result := Except DocumentError

structure Cursor where
  rest : List Char
  index : Nat
  line : Nat
  column : Nat

def nul : Char := Char.ofNat 0

/-- The characters that end a line. -/
def isBreak (c : Char) : Bool :=
  c == '\n' || c == '\r' || c == Char.ofNat 0x85 || c == Char.ofNat 0x2028
    || c == Char.ofNat 0x2029

def isBreakOrEnd (c : Char) : Bool := c == nul || isBreak c

def isSpaceOrEnd (c : Char) : Bool := c == ' ' || isBreakOrEnd c

/-- What may follow an indicator: a space, a tab, a break or the end. -/
def isBoundary (c : Char) : Bool := c == '\t' || isSpaceOrEnd c

def isSpace (c : Char) : Bool := c == ' '

def isSpaceOrTab (c : Char) : Bool := c == ' ' || c == '\t'

/-- A character of a name. -/
def isWordChar (c : Char) : Bool := c.isAlphanum || c == '-' || c == '_'

def byteOrderMark : Char := Char.ofNat 0xFEFF

namespace Cursor

def ofString (s : String) : Cursor := ⟨s.toList, 0, 0, 0⟩

def peek (c : Cursor) : Char := c.rest.headD nul

def peekAt (c : Cursor) (n : Nat) : Char := (c.rest.drop n).headD nul

/-- Past one character. A carriage return before a line feed does not end the line. -/
def next (c : Cursor) : Cursor :=
  match c.rest with
  | [] => c
  | ch :: rest =>
    if isBreak ch && !(ch == '\r' && rest.head? == some '\n') then
      ⟨rest, c.index + 1, c.line + 1, 0⟩
    else ⟨rest, c.index + 1, c.line, if ch == byteOrderMark then c.column else c.column + 1⟩

def advance : Nat → Cursor → Cursor
  | 0, c => c
  | n + 1, c => advance n c.next

/-- The longest run of characters in a class. -/
def run (p : Char → Bool) (c : Cursor) : List Char := c.rest.takeWhile p

def skip (p : Char → Bool) (c : Cursor) : Cursor := c.advance (c.run p).length

/-- The run of characters in a class, and the cursor past it. -/
def split (p : Char → Bool) (c : Cursor) : List Char × Cursor := (c.run p, c.skip p)

/-- A line break as the text it stands for, and the cursor past it; no text where there is none.
Only the two separators stand for themselves. -/
def lineBreak (c : Cursor) : List Char × Cursor :=
  let ch := c.peek
  if ch == '\r' && c.peekAt 1 == '\n' then (['\n'], c.advance 2)
  else if ch == '\r' || ch == '\n' || ch == Char.ofNat 0x85 then (['\n'], c.next)
  else if ch == Char.ofNat 0x2028 || ch == Char.ofNat 0x2029 then ([ch], c.next)
  else ([], c)

/-- A line of three equal characters and a boundary divides documents. -/
def atDivider (c : Cursor) : Bool :=
  let three := c.rest.take 3
  (three == ['-', '-', '-'] || three == ['.', '.', '.']) && isBoundary (c.peekAt 3)

/-- The rest of a line that may hold a comment and nothing else. -/
def endLine (c : Cursor) : Result Cursor :=
  let c := c.skip isSpace
  let c := if c.peek == '#' then c.skip (!isBreakOrEnd ·) else c
  if isBreakOrEnd c.peek then .ok c.lineBreak.2 else .error .malformed

end Cursor

/-- The value of a hexadecimal digit. -/
def hexDigit? (c : Char) : Option Nat :=
  if '0' ≤ c && c ≤ '9' then some (c.toNat - '0'.toNat)
  else if 'a' ≤ c && c ≤ 'f' then some (c.toNat - 'a'.toNat + 10)
  else if 'A' ≤ c && c ≤ 'F' then some (c.toNat - 'A'.toNat + 10)
  else none

/-- The number that a list of hexadecimal digits writes. -/
def hexNumber? : List Char → Option Nat
  | cs => cs.foldlM (fun n c => (hexDigit? c).map (n * 16 + ·)) 0

end TopTag.Document
