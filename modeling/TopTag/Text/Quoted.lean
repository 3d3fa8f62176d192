import TopTag.Text.Printable

/-!
# Quoted text

The one-line form of a text or of a byte string. A text stands in single quotes, or in double
quotes when it holds a single quote and no double one. The backslash, the quote in use and
everything that does not show is escaped.
-/

namespace TopTag.Text

/-- The last `width` hexadecimal digits of `n`, in lower case. -/
def hexDigits (width n : Nat) : List Char :=
  let digits := Nat.toDigits 16 n
  List.replicate (width - digits.length) '0' ++ digits

/-- The quote that needs the fewer escapes. -/
def quoteFor (cs : List Char) : Char :=
  if cs.contains '\'' && !cs.contains '"' then '"' else '\''

/-- The escape of a character that has a short one inside `quote`. -/
def shortEscape? (quote c : Char) : Option (List Char) :=
  if c = quote ∨ c = '\\' then some ['\\', c]
  else if c = '\t' then some ['\\', 't']
  else if c = '\n' then some ['\\', 'n']
  else if c = '\r' then some ['\\', 'r']
  else none

def codeEscape (n : Nat) : List Char :=
  if n < 0x100 then '\\' :: 'x' :: hexDigits 2 n
  else if n < 0x10000 then '\\' :: 'u' :: hexDigits 4 n
  else '\\' :: 'U' :: hexDigits 8 n

def escapeChar (quote c : Char) : List Char :=
  (shortEscape? quote c).getD (if isPrintable c then [c] else codeEscape c.toNat)

def quoteList (cs : List Char) : List Char :=
  let quote := quoteFor cs
  quote :: cs.flatMap (escapeChar quote) ++ [quote]

def quote (s : String) : String := String.ofList (quoteList s.toList)

/-- A byte string: ASCII as characters, every other byte by its two digits. -/
def quoteBytes (bytes : List UInt8) : String :=
  let cs := bytes.map fun b => Char.ofNat b.toNat
  let quote := quoteFor cs
  let escape (c : Char) : List Char :=
    (shortEscape? quote c).getD
      (if 0x20 ≤ c.toNat ∧ c.toNat < 0x7F then [c] else codeEscape c.toNat)
  String.ofList ('b' :: quote :: cs.flatMap escape ++ [quote])

end TopTag.Text
