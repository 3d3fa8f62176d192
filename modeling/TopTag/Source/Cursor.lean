import TopTag.Text.Ranges

/-!
# A cursor over source text

A place in a text is what is left of it together with the number of bytes before it. White space and
comments may stand between any two lexemes; `Cursor.trivia` passes over them. Loops over a text are
bounded by the number of bytes that are left.
-/

namespace TopTag.Source

structure Cursor where
  rest : List Char
  /-- How many bytes precede `rest`. -/
  offset : Nat
  /-- How many bytes the whole text has. -/
  size : Nat

def byteLength (cs : List Char) : Nat := cs.foldl (fun n c => n + c.utf8Size) 0

/-- The characters that make up a number of bytes. -/
def takeBytes : Nat → List Char → List Char
  | _, [] => []
  | n, c :: cs => if n == 0 then [] else c :: takeBytes (n - c.utf8Size) cs

/-- White space between lexemes, the zero-width characters among it. -/
def spacingRanges : List (Nat × Nat) :=
  [(0x09, 0x0D), (0x20, 0x20), (0x85, 0x85), (0xA0, 0xA0), (0x1680, 0x1680), (0x2000, 0x200B),
   (0x2028, 0x2029), (0x202F, 0x202F), (0x205F, 0x2060), (0x3000, 0x3000), (0xFEFF, 0xFEFF)]

def isSpacing (c : Char) : Bool := Text.inRanges spacingRanges c

def isLineEnd (c : Char) : Bool :=
  c == '\n' || c == '\r' || c == Char.ofNat 0x2028 || c == Char.ofNat 0x2029

/-- The number of characters up to the end of a block comment whose opening has been read. -/
def blockCommentRest? : List Char → Option Nat
  | [] => none
  | '*' :: '/' :: _ => some 2
  | _ :: cs => (blockCommentRest? cs).map (· + 1)

/-- The length of the comment that a text begins with. -/
def commentLength? : List Char → Option Nat
  | '/' :: '/' :: cs => some (2 + (cs.takeWhile (!isLineEnd ·)).length)
  | '/' :: '*' :: cs => (blockCommentRest? cs).map (2 + ·)
  | _ => none

namespace Cursor

def ofString (s : String) : Cursor := ⟨s.toList, 0, byteLength s.toList⟩

/-- More than the number of steps that a loop can take from here if each reads something. -/
def bound (c : Cursor) : Nat := c.size - c.offset + 1

/-- Past a number of characters. -/
def drop (n : Nat) (c : Cursor) : Cursor :=
  { c with rest := c.rest.drop n, offset := c.offset + byteLength (c.rest.take n) }

def startsWith (c : Cursor) (s : String) : Bool := s.toList.isPrefixOf c.rest

def skipSpacing (c : Cursor) : Cursor := c.drop (c.rest.takeWhile isSpacing).length

/-- Past spacing and at most `fuel` comments. -/
def skipTrivia : Nat → Cursor → Cursor
  | 0, c => c
  | fuel + 1, c =>
    let c := c.skipSpacing
    match commentLength? c.rest with
    | some n => skipTrivia fuel (c.drop n)
    | none => c

/-- Past white space and comments. -/
def trivia (c : Cursor) : Cursor := skipTrivia c.bound c

/-- The first character that is neither white space nor in a comment. -/
def next? (c : Cursor) : Option Char := c.trivia.rest.head?

/-- That character is one of those given. -/
def nextIn (c : Cursor) (chars : String) : Bool := c.next?.any chars.toList.contains

/-- A line ends between the cursor and the next lexeme. -/
def lineEndsBefore (c : Cursor) : Bool :=
  (takeBytes (c.trivia.offset - c.offset) c.rest).any isLineEnd

end Cursor

end TopTag.Source
