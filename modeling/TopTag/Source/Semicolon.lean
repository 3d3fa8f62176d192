import TopTag.Source.Rule

/-!
# Semicolons

A statement ends with a semicolon or where one may be left out: at the end of the text, before a
closing brace, and at the end of a line unless the next line can only go on with the statement. A
semicolon that is left out has no length and stands where the last lexeme ends, or after the
comments that share its line.
-/

namespace TopTag.Source

/-- White space for the search of a line end. -/
def semicolonSpaceRanges : List (Nat × Nat) :=
  [(0x09, 0x0D), (0x20, 0x20), (0x1680, 0x1680), (0x2000, 0x2006), (0x2008, 0x200A),
   (0x2028, 0x2029), (0x205F, 0x205F), (0x3000, 0x3000)]

def isSemicolonSpace (c : Char) : Bool := Text.inRanges semicolonSpaceRanges c

/-- Past white space and comments, for the look at the next line. -/
def nextLine : Nat → Cursor → Cursor
  | 0, c => c
  | fuel + 1, c =>
    let c := c.drop (c.rest.takeWhile isSemicolonSpace).length
    match commentLength? c.rest with
    | some n => nextLine fuel (c.drop n)
    | none => c

/-- A line that begins so can only go on with the statement before it. -/
def continuesStatement (cs : List Char) : Bool :=
  match cs with
  | [] => false
  | '+' :: d :: _ => d != '+'
  | '-' :: d :: _ => d != '-'
  | '!' :: d :: _ => d == '='
  | c :: _ =>
    ",.;*%><=?^|&/:+-".toList.contains c || c == Char.ofNat 0x60
      || ["in", "instanceof"].contains (nameOf cs)

/-- A semicolon may be left out at the cursor, the comments before it having been read. -/
def mayOmitHere (c : Cursor) : Bool :=
  let blanks := c.rest.takeWhile isSemicolonSpace
  let rest := c.rest.drop blanks.length
  if blanks.contains '\n' then
    !continuesStatement (nextLine c.bound c).rest
  else rest.isEmpty || rest.head? == some '\x7d'

/-- A semicolon left out at the cursor or after at most `fuel` comments on its line. -/
def omittedAfter : Nat → Rule
  | 0, _ => none
  | fuel + 1, c =>
    if mayOmitHere c then some ([Concrete.leaf "" false c.offset c.offset], c)
    else
      let d := c.drop (c.rest.takeWhile fun ch => isSemicolonSpace ch && ch != '\n').length
      match commentLength? d.rest with
      | some n => omittedAfter fuel (d.drop n)
      | none => none

def omittedSemicolon : Rule := fun c => omittedAfter c.bound c

def semicolon : Rule := Rule.symbol ";" <|> omittedSemicolon

end TopTag.Source
