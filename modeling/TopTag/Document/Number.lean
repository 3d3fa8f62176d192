import TopTag.Datum
import TopTag.Document.Cursor
import TopTag.Text.Ranges

/-!
# Numbers in a document

Which plain texts are numbers, and which number a text stands for. Underscores between digits do
not count. An integer is written in base two, eight, ten or sixteen, and either kind of number may
be a row of base-sixty places divided by colons.
-/

namespace TopTag.Document

def isDigitOrMark (c : Char) : Bool := c.isDigit || c == '_'

/-- A text without its sign, and whether the sign is a minus. -/
def splitSign : List Char → Bool × List Char
  | '-' :: cs => (true, cs)
  | '+' :: cs => (false, cs)
  | cs => (false, cs)

/-- A place of base sixty: a digit, or two of which the first is at most five. -/
def isSixtieth : List Char → Bool
  | [d] => d.isDigit
  | [t, d] => '0' ≤ t && t ≤ '5' && d.isDigit
  | _ => false

/-- The parts of a text between the occurrences of a character. -/
def splitAll (c : Char) : List Char → List (List Char)
  | [] => [[]]
  | x :: xs =>
    if x == c then [] :: splitAll c xs
    else
      match splitAll c xs with
      | [] => [[x]]
      | part :: parts => (x :: part) :: parts

/-! ## Which texts are numbers -/

def isIntegerText (cs : List Char) : Bool :=
  match (splitSign cs).2 with
  | ['0'] => true
  | '0' :: 'b' :: ds => !ds.isEmpty && ds.all fun d => d == '0' || d == '1' || d == '_'
  | '0' :: 'x' :: ds => !ds.isEmpty && ds.all fun d => (hexDigit? d).isSome || d == '_'
  | '0' :: ds => ds.all fun d => ('0' ≤ d && d ≤ '7') || d == '_'
  | d :: ds =>
    d.isDigit &&
      match splitAll ':' ds with
      | first :: places => first.all isDigitOrMark && places.all isSixtieth
      | [] => false
  | [] => false

/-- Nothing, or the sign of an exponent with digits after it. -/
def isExponent : List Char → Bool
  | [] => true
  | e :: sign :: ds =>
    (e == 'e' || e == 'E') && (sign == '+' || sign == '-') && !ds.isEmpty && ds.all Char.isDigit
  | _ => false

/-- Digits and marks, then an exponent or nothing. -/
def isFraction (cs : List Char) : Bool := isExponent (cs.dropWhile isDigitOrMark)

/-- A row of base-sixty places whose first may be any number. -/
def isSixtyRow (cs : List Char) : Bool :=
  match splitAll ':' cs with
  | first :: place :: places => first.all isDigitOrMark && (place :: places).all isSixtieth
  | _ => false

def infinityWords : List String := [".inf", ".Inf", ".INF"]

def nanWords : List String := [".nan", ".NaN", ".NAN"]

def isFloatText (cs : List Char) : Bool :=
  let body := (splitSign cs).2
  let whole := body.takeWhile (· != '.')
  let rest := body.dropWhile (· != '.')
  infinityWords.contains (String.ofList body) || nanWords.contains (String.ofList cs)
    || (match cs with
      | '.' :: d :: ds => d.isDigit && isFraction ds
      | _ => false)
    || (match whole, rest with
      | d :: ds, '.' :: fraction =>
        d.isDigit && ((ds.all isDigitOrMark && isFraction fraction)
          || (isSixtyRow whole && fraction.all isDigitOrMark))
      | _, _ => false)

/-! ## What a text stands for -/

/-- The number that digits write in a base of at most sixteen; `none` for an empty text and for
anything that is no digit of the base. -/
def digits? (base : Nat) (cs : List Char) : Option Nat :=
  if cs.isEmpty then none
  else cs.foldlM (fun n c => do
    let d ← hexDigit? c
    if d < base then some (n * base + d) else none) 0

/-- The letters that may follow a zero before the digits of a base. -/
def baseLetters (base : Nat) : List Char :=
  if base == 2 then ['b', 'B'] else if base == 8 then ['o', 'O']
  else if base == 16 then ['x', 'X'] else []

/-- An integer in a base, with a sign and its base's mark if it has them, blanks around it aside.
Its digits may be those of any script. -/
def integer? (base : Nat) (cs : List Char) : Option Int :=
  let (negative, body) := splitSign ((Text.trimList cs).map Text.plainDigit)
  let body := match body with
    | '0' :: letter :: rest => if (baseLetters base).contains letter then rest else body
    | _ => body
  if base == 10 && Decimal.digitLimit < body.length then none
  else (digits? base body).map fun n => if negative then -(n : Int) else n

/-- The number that a row of base-sixty places writes. -/
def sixtyRow (places : List Int) : Int := places.foldl (fun n d => n * 60 + d) 0

def orUnreadable {α : Type} : Option α → Result α
  | some a => .ok a
  | none => .error .unreadable

def unsignedInteger (cs : List Char) : Result Int :=
  match cs with
  | [] => .error .noDigits
  | ['0'] => .ok 0
  | '0' :: 'b' :: ds => orUnreadable (integer? 2 ds)
  | '0' :: 'x' :: ds => orUnreadable (integer? 16 ds)
  | '0' :: _ => orUnreadable (integer? 8 cs)
  | _ => orUnreadable (((splitAll ':' cs).mapM (integer? 10)).map sixtyRow)

/-- The integer that a text stands for. -/
def readInteger (s : String) : Result Int :=
  let (negative, body) := splitSign (s.toList.filter (· != '_'))
  (unsignedInteger body).map fun n => if negative then -n else n

def infinity : Float := 1.0 / 0.0

def notANumber : Float := 0.0 / 0.0

/-- The float nearest to `mantissa` times ten to the power of `exponent`. -/
def floatOfDecimal (mantissa : Nat) (exponent : Int) : Float :=
  if mantissa == 0 then 0.0
  else if exponent < 0 then Float.ofScientific mantissa true exponent.natAbs
  else Float.ofScientific mantissa false exponent.natAbs

/-- A power of ten beyond which every number is zero or infinite. -/
def exponentLimit : Nat := 100000

/-- A decimal with a fraction and an exponent if it has them. -/
def unsignedDecimal? (cs : List Char) : Option Float :=
  if cs == "inf".toList || cs == "infinity".toList then some infinity
  else if cs == "nan".toList then some notANumber
  else
    let whole := cs.takeWhile Char.isDigit
    let rest := cs.dropWhile Char.isDigit
    let (fraction, rest) := match rest with
      | '.' :: rest => (rest.takeWhile Char.isDigit, rest.dropWhile Char.isDigit)
      | _ => ([], rest)
    match digits? 10 (whole ++ fraction) with
    | none => none
    | some mantissa =>
      let scale : Int := fraction.length
      match rest with
      | [] => some (floatOfDecimal mantissa (-scale))
      | e :: rest =>
        if e == 'e' || e == 'E' then
          let (negative, ds) := splitSign rest
          (digits? 10 ds).map fun n =>
            let n : Int := min n exponentLimit
            floatOfDecimal mantissa ((if negative then -n else n) - scale)
        else none

def decimal? (cs : List Char) : Option Float :=
  let (negative, body) := splitSign ((Text.trimList cs).map Text.plainDigit)
  (unsignedDecimal? body).map fun x => if negative then -x else x

/-- The float that a row of base-sixty places writes, summed from its last place. -/
def sixtyRowFloat (places : List Float) : Float :=
  (places.reverse.foldl (fun (sum, base) d => (sum + d * base, base * 60.0))
    ((0.0 : Float), (1.0 : Float))).1

/-- The float that a text stands for. -/
def readFloat (s : String) : Result Float :=
  match (Text.lower s).toList.filter (· != '_') with
  | [] => .error .noDigits
  | cs =>
    let (negative, body) := splitSign cs
    let sign : Float := if negative then -1.0 else 1.0
    if body == ".inf".toList then .ok (sign * infinity)
    else if body == ".nan".toList then .ok notANumber
    else if body.contains ':' then
      orUnreadable (((splitAll ':' body).mapM decimal?).map fun places =>
        sign * sixtyRowFloat places)
    else orUnreadable ((decimal? body).map (sign * ·))

end TopTag.Document
