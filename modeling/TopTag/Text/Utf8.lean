/-!
# UTF-8

Texts as bytes and back. `decode?` refuses malformed bytes. `decodeLossy` reads on past them: each
longest piece of bytes that begins a character and cannot be completed becomes one replacement
character.
-/

namespace TopTag.Text.Utf8

def encode (cs : List Char) : List UInt8 := cs.flatMap String.utf8EncodeChar

/-- Reads `count` continuation bytes onto `code`, the first of them between `low` and `high`. The
second component holds the bytes after the last one accepted. -/
def readTail (low high : UInt8) : Nat → Nat → List UInt8 → Option Nat × List UInt8
  | 0, code, bytes => (some code, bytes)
  | _ + 1, _, [] => (none, [])
  | count + 1, code, b :: rest =>
    if low ≤ b ∧ b ≤ high then readTail 0x80 0xBF count (code * 64 + (b.toNat - 0x80)) rest
    else (none, b :: rest)

theorem length_readTail_le (low high : UInt8) (count code : Nat) (bytes : List UInt8) :
    (readTail low high count code bytes).2.length ≤ bytes.length := by
  induction count generalizing low high code bytes with
  | zero => simp [readTail]
  | succ count ih =>
    cases bytes with
    | nil => simp [readTail]
    | cons b rest =>
      rw [readTail]
      split
      · exact Nat.le_succ_of_le (ih _ _ _ _)
      · simp

/-- The character that begins with `lead`, or `none` for a malformed piece, and the bytes after
either. -/
def readChar (lead : UInt8) (rest : List UInt8) : Option Nat × List UInt8 :=
  if lead < 0x80 then (some lead.toNat, rest)
  else if 0xC2 ≤ lead ∧ lead ≤ 0xDF then readTail 0x80 0xBF 1 (lead.toNat - 0xC0) rest
  else if lead = 0xE0 then readTail 0xA0 0xBF 2 0 rest
  else if lead = 0xED then readTail 0x80 0x9F 2 0xD rest
  else if 0xE1 ≤ lead ∧ lead ≤ 0xEF then readTail 0x80 0xBF 2 (lead.toNat - 0xE0) rest
  else if lead = 0xF0 then readTail 0x90 0xBF 3 0 rest
  else if lead = 0xF4 then readTail 0x80 0x8F 3 4 rest
  else if 0xF1 ≤ lead ∧ lead ≤ 0xF3 then readTail 0x80 0xBF 3 (lead.toNat - 0xF0) rest
  else (none, rest)

theorem length_readChar_le (lead : UInt8) (rest : List UInt8) :
    (readChar lead rest).2.length ≤ rest.length := by
  unfold readChar
  repeat' split
  all_goals first | exact Nat.le_refl _ | exact length_readTail_le _ _ _ _ _

def replacement : Char := Char.ofNat 0xFFFD

def decodeLossy : List UInt8 → List Char
  | [] => []
  | lead :: rest =>
    let read := readChar lead rest
    (read.1.map Char.ofNat).getD replacement :: decodeLossy read.2
termination_by bytes => bytes.length
decreasing_by exact Nat.lt_succ_of_le (length_readChar_le lead rest)

def decode? : List UInt8 → Option (List Char)
  | [] => some []
  | lead :: rest =>
    let read := readChar lead rest
    read.1.bind fun code => (decode? read.2).map (Char.ofNat code :: ·)
termination_by bytes => bytes.length
decreasing_by exact Nat.lt_succ_of_le (length_readChar_le lead rest)

end TopTag.Text.Utf8
