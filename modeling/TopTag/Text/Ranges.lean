/-!
# Classes of characters given by ranges

A class of characters is a list of closed ranges of code points. `isBlank` is the class that
trimming removes: the separators and the control characters that stand for space. The digits of each
script are a range of ten.
-/

namespace TopTag.Text

/-- `c` lies in one of the closed ranges. -/
def inRanges (ranges : List (Nat × Nat)) (c : Char) : Bool :=
  ranges.any fun (low, high) => low ≤ c.toNat && c.toNat ≤ high

def blankRanges : List (Nat × Nat) :=
  [(0x09, 0x0D), (0x1C, 0x20), (0x85, 0x85), (0xA0, 0xA0), (0x1680, 0x1680),
   (0x2000, 0x200A), (0x2028, 0x2029), (0x202F, 0x202F), (0x205F, 0x205F), (0x3000, 0x3000)]

/-- White space, the information separators and the line separators; no zero-width character. -/
def isBlank (c : Char) : Bool := inRanges blankRanges c

def trimList (cs : List Char) : List Char :=
  ((cs.dropWhile isBlank).reverse.dropWhile isBlank).reverse

/-- The text without the blanks at its two ends. -/
def trim (s : String) : String := String.ofList (trimList s.toList)

/-- Every character is blank, as in the empty text. -/
def isBlankText (s : String) : Bool := s.toList.all isBlank

/-- The ASCII letters in lower case; every other character as it is. -/
def lower (s : String) : String := String.ofList (s.toList.map Char.toLower)

/-- The digits zero of the scripts, in ascending order. After each one its script has the digits
from one to nine. -/
def zeroDigits : List Nat :=
  [0x30, 0x660, 0x6F0, 0x7C0, 0x966, 0x9E6, 0xA66, 0xAE6, 0xB66, 0xBE6, 0xC66, 0xCE6, 0xD66,
   0xDE6, 0xE50, 0xED0, 0xF20, 0x1040, 0x1090, 0x17E0, 0x1810, 0x1946, 0x19D0, 0x1A80, 0x1A90,
   0x1B50, 0x1BB0, 0x1C40, 0x1C50, 0xA620, 0xA8D0, 0xA900, 0xA9D0, 0xA9F0, 0xAA50, 0xABF0,
   0xFF10, 0x104A0, 0x10D30, 0x11066, 0x110F0, 0x11136, 0x111D0, 0x112F0, 0x11450, 0x114D0,
   0x11650, 0x116C0, 0x11730, 0x118E0, 0x11950, 0x11C50, 0x11D50, 0x11DA0, 0x16A60, 0x16AC0,
   0x16B50, 0x1D7CE, 0x1D7D8, 0x1D7E2, 0x1D7EC, 0x1D7F6, 0x1E140, 0x1E2F0, 0x1E950, 0x1FBF0]

/-- A digit of any script as the digit of ASCII; every other character as it is. -/
def plainDigit (c : Char) : Char :=
  match zeroDigits.find? fun low => low ≤ c.toNat && c.toNat < low + 10 with
  | some low => Char.ofNat ('0'.toNat + (c.toNat - low))
  | none => c

end TopTag.Text
