/-!
# The shortest decimal of a binary number

A positive binary number `mantissa * 2 ^ exponent` is read back from every decimal in its rounding
interval. `Binary.shortest` gives the decimal with the fewest digits in that interval, and the one
nearest to the number among those.
-/

namespace TopTag.Decimal

/-- The number `mantissa * 2 ^ exponent`; `halved` when its lower neighbour is half as far away as
its upper one. -/
structure Binary where
  mantissa : Nat
  exponent : Int
  halved : Bool

/-- The number `coefficient * 10 ^ exponent`. -/
structure Scientific where
  coefficient : Nat
  exponent : Int
  deriving DecidableEq

/-- A fraction of natural numbers. -/
structure Ratio where
  num : Nat
  den : Nat

/-- `n * base ^ exponent` over `den`. -/
def Ratio.scale (r : Ratio) (base : Nat) (exponent : Int) : Ratio :=
  if 0 ≤ exponent then ⟨r.num * base.pow exponent.toNat, r.den⟩
  else ⟨r.num, r.den * base.pow (-exponent).toNat⟩

/-- Four times a binary number's mantissa and the ends of its rounding interval, in quarters of a
unit in the last place. -/
structure Interval where
  low : Nat
  value : Nat
  high : Nat
  closed : Bool
  den : Nat

def Binary.interval (b : Binary) (shift : Int) : Interval :=
  let quarters (n : Nat) : Ratio := ((Ratio.mk n 1).scale 2 (b.exponent - 2)).scale 10 (-shift)
  { low := (quarters (4 * b.mantissa - if b.halved then 1 else 2)).num
    value := (quarters (4 * b.mantissa)).num
    high := (quarters (4 * b.mantissa + 2)).num
    closed := b.mantissa % 2 == 0
    den := (quarters 0).den }

def Interval.holds (i : Interval) (candidate : Nat) : Bool :=
  let scaled := candidate * i.den
  if i.closed then i.low ≤ scaled && scaled ≤ i.high else i.low < scaled && scaled < i.high

/-- The neighbour of the value on the grid of whole numbers that lies in the interval; the nearer
one of two, the even one of two equally near. -/
def Interval.pick? (i : Interval) : Option Nat :=
  let below := i.value / i.den
  let above := below + 1
  match i.holds below, i.holds above with
  | false, false => none
  | true, false => some below
  | false, true => some above
  | true, true =>
    let left := i.value - below * i.den
    let right := above * i.den - i.value
    if left < right then some below
    else if right < left then some above
    else if below % 2 == 0 then some below else some above

/-- The power of ten of a positive number's first digit. -/
def Binary.magnitude (b : Binary) : Int :=
  let r := (Ratio.mk b.mantissa 1).scale 2 b.exponent
  let guess : Int := (Nat.toDigits 10 r.num).length - (Nat.toDigits 10 r.den).length
  let power := (Ratio.mk 1 1).scale 10 guess
  if power.num * r.den ≤ r.num * power.den then guess else guess - 1

/-- Drops trailing zeros from a coefficient, at most `fuel` of them. -/
def Scientific.strip : Nat → Scientific → Scientific
  | 0, d => d
  | fuel + 1, d =>
    if d.coefficient ≠ 0 ∧ d.coefficient % 10 = 0 then
      strip fuel ⟨d.coefficient / 10, d.exponent + 1⟩
    else d

/-- The most digits a double needs. -/
def maxDigits : Nat := 17

def Binary.shortest (b : Binary) : Scientific :=
  let top := b.magnitude
  let found := (List.range maxDigits).findSome? fun (extra : Nat) =>
    let shift : Int := top - extra
    ((b.interval shift).pick?).map fun c => Scientific.mk c shift
  (found.getD ⟨0, 0⟩).strip (maxDigits + 1)

/-- The binary number with the magnitude of a finite non-zero double. -/
def Binary.ofBits (bits : UInt64) : Binary :=
  let fraction := (bits &&& 0xFFFFFFFFFFFFF).toNat
  let biased := ((bits >>> 52) &&& 0x7FF).toNat
  if biased = 0 then ⟨fraction, -1074, false⟩
  else ⟨fraction + 0x10000000000000, (biased : Int) - 1075, fraction == 0 && 1 < biased⟩

end TopTag.Decimal
