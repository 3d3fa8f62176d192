import TopTag.Decimal.Shortest

/-!
# Decimal text

How a double is laid out as text: positional or with an exponent, and what stands for the values
that have no digits. The decisions are the fields of `Layout`. An integer is written digit by digit,
as long as it has not too many of them.
-/

namespace TopTag.Decimal

structure Layout where
  /-- The first digit's power of ten from which on an exponent is written. -/
  exponentFrom : Int
  /-- The first digit's power of ten below which an exponent is written. -/
  exponentBelow : Int
  /-- The least number of digits of an exponent. -/
  exponentWidth : Nat
  infinity : String
  notANumber : String

/-- A positional number always has a point with a digit on either side. -/
def Layout.positional (digits : List Char) (top : Int) : List Char :=
  if top < 0 then '0' :: '.' :: List.replicate (-top - 1).toNat '0' ++ digits
  else
    let whole := top.toNat + 1
    let padded := digits ++ List.replicate (whole - digits.length) '0'
    let tail := padded.drop whole
    padded.take whole ++ '.' :: (if tail.isEmpty then ['0'] else tail)

def Layout.exponential (l : Layout) (digits : List Char) (top : Int) : List Char :=
  let fraction := digits.drop 1
  let exponent := Nat.toDigits 10 top.natAbs
  digits.take 1 ++ (if fraction.isEmpty then [] else '.' :: fraction)
    ++ 'e' :: (if top < 0 then '-' else '+')
    :: List.replicate (l.exponentWidth - exponent.length) '0' ++ exponent

def Layout.unsigned (l : Layout) (d : Scientific) : List Char :=
  let digits := Nat.toDigits 10 d.coefficient
  let top : Int := d.exponent + digits.length - 1
  if top < l.exponentBelow ∨ l.exponentFrom ≤ top then l.exponential digits top
  else Layout.positional digits top

/-- The text of a double. A zero keeps its sign. -/
def Layout.write (l : Layout) (x : Float) : String :=
  if x.isNaN then l.notANumber
  else
    let bits := x.toBits
    let sign := if bits >>> 63 = 1 then "-" else ""
    let magnitude := bits &&& 0x7FFFFFFFFFFFFFFF
    if x.isInf then sign ++ l.infinity
    else if magnitude = 0 then sign ++ String.ofList (l.unsigned ⟨0, 0⟩)
    else sign ++ String.ofList (l.unsigned (Binary.ofBits magnitude).shortest)

/-- The fewest digits that read back; positional from 1e-4 up to, not including, 1e16. -/
def plain : Layout := ⟨16, -4, 2, "inf", "nan"⟩

/-- The most decimal digits that an integer is read from or written with. -/
def digitLimit : Nat := 4300

/-- An integer with more digits than can be written. -/
def isOverlong (value : Int) : Bool := Nat.pow 10 digitLimit ≤ value.natAbs

/-- What is said of an integer that cannot be written. -/
def overlongMessage : String :=
  "Exceeds the limit (4300 digits) for integer string conversion; " ++
    "use sys.set_int_max_str_digits() to increase the limit"

end TopTag.Decimal
