import TopTag.Fault
import TopTag.Text.Utf8

/-!
# Source text

Concrete nodes speak of bytes and trees of characters. A `SourceText` is a text with its bytes and,
unless it is ASCII, a table that gives for each byte the index of the character it belongs to.
-/

namespace TopTag

structure SourceText where
  text : String
  bytes : Array UInt8
  index : Option (Array Nat)

namespace SourceText

def isAscii (cs : List Char) : Bool := cs.all fun c => c.toNat < 0x80

/-- For each byte of the encoding the index of its character, counted from `i`, and last the number
of characters. -/
def byteIndex : Nat → List Char → List Nat
  | i, [] => [i]
  | i, c :: rest => List.replicate (String.utf8EncodeChar c).length i ++ byteIndex (i + 1) rest

def ofString (s : String) : SourceText :=
  let cs := s.toList
  { text := s
    bytes := (Text.Utf8.encode cs).toArray
    index := if isAscii cs then none else some (byteIndex 0 cs).toArray }

/-- The index of the character that a byte belongs to. In ASCII they are the same number. -/
def charOffset (s : SourceText) (byte : Nat) : Except Fault Nat :=
  match s.index with
  | none => .ok byte
  | some table =>
    match table[byte]? with
    | some i => .ok i
    | none => .error .offsetOutOfRange

/-- The text of a range of bytes. -/
def slice (s : SourceText) (start stop : Nat) : List Char :=
  Text.Utf8.decodeLossy (s.bytes.extract start stop).toList

/-- The line of a byte, counted from one, and the bytes between it and the start of that line. -/
def position (s : SourceText) (byte : Nat) : Nat × Nat :=
  let before := (s.bytes.extract 0 byte).toList
  let newline : UInt8 := 10
  (before.count newline + 1, (before.reverse.takeWhile (· != newline)).length)

end SourceText

end TopTag
