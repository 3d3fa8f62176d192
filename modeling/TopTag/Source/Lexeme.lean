import TopTag.Source.Cursor

/-!
# Lexemes

How many characters of a text the lexeme at its start takes: names, numbers, strings and regular
expressions. `none` says that no such lexeme starts there.
-/

namespace TopTag.Source

/-! ## Names -/

def punctuation : List Char := ":;\"'@#.,|^&<=>+-*/\\%?!~()[]".toList
  ++ [Char.ofNat 0x60, '\x7b', '\x7d']

/-- A character of a name; a name begins with one that is no digit. -/
def isNameChar (c : Char) : Bool :=
  0x20 < c.toNat && !isSpacing c && !punctuation.contains c

def isHexDigit (c : Char) : Bool :=
  c.isDigit || ('a' ≤ c && c ≤ 'f') || ('A' ≤ c && c ≤ 'F')

/-- A character of a name written by its code point. -/
def nameEscapeLength? : List Char → Option Nat
  | '\\' :: 'u' :: '\x7b' :: cs =>
    let digits := cs.takeWhile isHexDigit
    if !digits.isEmpty && (cs.drop digits.length).head? == some '\x7d' then some (digits.length + 4)
    else none
  | '\\' :: 'u' :: cs =>
    if (cs.take 4).length == 4 && (cs.take 4).all isHexDigit then some 6 else none
  | _ => none

/-- The length of the run of name characters at the start of a text, of which the first `known` are
such characters for certain. -/
def nameRun : Nat → List Char → Nat
  | _, [] => 0
  | known + 1, _ :: cs => 1 + nameRun known cs
  | 0, c :: cs =>
    if isNameChar c then 1 + nameRun 0 cs
    else
      match nameEscapeLength? (c :: cs) with
      | some n => 1 + nameRun (n - 1) cs
      | none => 0

def nameLength? (cs : List Char) : Option Nat :=
  let n := nameRun 0 cs
  if n == 0 || cs.head?.any Char.isDigit then none else some n

/-- The name that a text begins with; empty where there is none. -/
def nameOf (cs : List Char) : String :=
  match nameLength? cs with
  | some n => String.ofList (cs.take n)
  | none => ""

/-- The name that comes next; empty where there is none. -/
def Cursor.nextWord (c : Cursor) : String := nameOf c.trivia.rest

/-- The cursor past the name that comes next. -/
def Cursor.afterWord (c : Cursor) : Cursor :=
  let c := c.trivia
  c.drop ((nameLength? c.rest).getD 0)

def isAsciiNameStart (c : Char) : Bool := c.isAlpha || c == '_' || c == '$'

def isAsciiNameChar (c : Char) : Bool := c.isAlphanum || c == '_' || c == '$'

/-- A name of a tag or an attribute, which may hold dashes after an ASCII beginning. -/
def markupNameLength? (cs : List Char) : Option Nat :=
  let start := (cs.takeWhile isAsciiNameChar).length
  let rest := cs.drop start
  if cs.head?.any isAsciiNameStart && rest.head? == some '-' then
    some (start + (rest.takeWhile fun c => isAsciiNameChar c || c == '-').length)
  else nameLength? cs

/-! ## Numbers -/

/-- The length of a run of digits that single marks may divide. -/
def digitRun (p : Char → Bool) : List Char → Nat
  | [] => 0
  | [c] => if p c then 1 else 0
  | c :: d :: cs =>
    if p c then
      if d == '_' then
        match cs with
        | e :: _ => if p e then 2 + digitRun p cs else 1
        | [] => 1
      else 1 + digitRun p (d :: cs)
    else 0

def decimalRun (cs : List Char) : Nat := digitRun Char.isDigit cs

/-- The length of an exponent; zero where there is none. -/
def exponentRun : List Char → Nat
  | e :: cs =>
    if e == 'e' || e == 'E' then
      let sign := if cs.head?.any fun c => c == '+' || c == '-' then 1 else 0
      let digits := decimalRun (cs.drop sign)
      if digits == 0 then 0 else 1 + sign + digits
    else 0
  | [] => 0

/-- A number without a base's mark. -/
def decimalLength? (cs : List Char) : Option Nat :=
  let whole := decimalRun cs
  let rest := cs.drop whole
  let fraction := if rest.head? == some '.' then 1 + decimalRun (rest.drop 1) else 0
  if whole == 0 && fraction < 2 then none
  else
    let exponent := exponentRun (rest.drop fraction)
    let length := whole + fraction + exponent
    let big := if fraction == 0 && exponent == 0 && rest.head? == some 'n' then 1 else 0
    some (length + big)

/-- The digits of a base after its mark. -/
def basedLength? (p : Char → Bool) (cs : List Char) : Option Nat :=
  let n := digitRun p cs
  if n == 0 then none
  else some (2 + n + if (cs.drop n).head? == some 'n' then 1 else 0)

def numberLength? : List Char → Option Nat
  | '0' :: m :: cs =>
    if m == 'x' || m == 'X' then basedLength? isHexDigit cs
    else if m == 'b' || m == 'B' then basedLength? (fun c => c == '0' || c == '1') cs
    else if m == 'o' || m == 'O' then basedLength? (fun c => '0' ≤ c && c ≤ '7') cs
    else decimalLength? ('0' :: m :: cs)
  | cs => decimalLength? cs

/-! ## Strings and regular expressions -/

/-- The length of a string's rest with its closing quote. A backslash takes the character after it
along, and a line does not end inside a string otherwise. -/
def stringRest? (quote : Char) : List Char → Option Nat
  | [] => none
  | ['\\'] => none
  | '\\' :: '\r' :: '\n' :: cs => (stringRest? quote cs).map (3 + ·)
  | '\\' :: _ :: cs => (stringRest? quote cs).map (2 + ·)
  | c :: cs =>
    if c == quote then some 1
    else if c == '\n' || c == '\r' then none
    else (stringRest? quote cs).map (1 + ·)

def stringLength? : List Char → Option Nat
  | c :: cs => if c == '"' || c == '\'' then (stringRest? c cs).map (1 + ·) else none
  | [] => none

/-- Whether a character of a regular expression leaves the reader inside a class. -/
def classAfter (inClass : Bool) (c : Char) : Bool :=
  if c == '[' then true else if c == ']' then false else inClass

/-- The length of a regular expression's rest with its closing slash; inside a class of characters a
slash does not close it. -/
def regexRest? : Bool → List Char → Option Nat
  | _, [] => none
  | _, ['\\'] => none
  | inClass, '\\' :: d :: cs =>
    if d == '\n' then none else (regexRest? inClass cs).map (2 + ·)
  | inClass, c :: cs =>
    if c == '\n' then none
    else if c == '/' && !inClass then some 1
    else (regexRest? (classAfter inClass c) cs).map (1 + ·)

def regexLength? : List Char → Option Nat
  | '/' :: cs =>
    if cs.head?.any fun c => c == '/' || c == '*' then none
    else (regexRest? false cs).map fun n =>
      1 + n + ((cs.drop n).takeWhile fun c => 'a' ≤ c && c ≤ 'z').length
  | _ => none

end TopTag.Source
