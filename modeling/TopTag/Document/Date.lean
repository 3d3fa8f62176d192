import TopTag.Document.Cursor

/-!
# Dates in a document

A date is a year, a month and a day, with or without a time of day and its distance from universal
time. A text may have the form of a date and name no day of the calendar.
-/

namespace TopTag.Document

structure TimeOfDay where
  hour : Nat
  minute : Nat
  second : Nat
  /-- The distance from universal time in minutes, whatever its direction. -/
  distance : Nat

structure Date where
  year : Nat
  month : Nat
  day : Nat
  time : Option TimeOfDay

namespace Date

/-- A number of `least` to `most` digits, and what follows it. -/
def digits? (least most : Nat) (cs : List Char) : Option (Nat × List Char) :=
  let ds := (cs.take most).takeWhile Char.isDigit
  if ds.length < least then none
  else some (ds.foldl (fun n d => n * 10 + (d.toNat - '0'.toNat)) 0, cs.drop ds.length)

def literal? (c : Char) : List Char → Option (List Char)
  | x :: xs => if x == c then some xs else none
  | [] => none

def isGap (c : Char) : Bool := c == ' ' || c == '\t'

/-- The distance from universal time at the end of a text. -/
def distance? (cs : List Char) : Option Nat :=
  match cs.dropWhile isGap with
  | [] => if cs.isEmpty then some 0 else none
  | ['Z'] => some 0
  | sign :: rest =>
    if sign == '+' || sign == '-' then do
      let (hours, rest) ← digits? 1 2 rest
      match rest with
      | [] => some (hours * 60)
      | _ =>
        let (minutes, rest) ← digits? 2 2 (← literal? ':' rest)
        if rest.isEmpty then some (hours * 60 + minutes) else none
    else none

/-- What divides a day from its time: a letter or blanks. -/
def gap? : List Char → Option (List Char)
  | c :: cs =>
    if c == 'T' || c == 't' then some cs
    else if isGap c then some (cs.dropWhile isGap)
    else none
  | [] => none

def time? (cs : List Char) : Option TimeOfDay := do
  let (hour, cs) ← digits? 1 2 (← gap? cs)
  let (minute, cs) ← digits? 2 2 (← literal? ':' cs)
  let (second, cs) ← digits? 2 2 (← literal? ':' cs)
  let cs := match cs with
    | '.' :: cs => cs.dropWhile Char.isDigit
    | _ => cs
  return ⟨hour, minute, second, ← distance? cs⟩

/-- The date that a text has the form of. -/
def ofText? (cs : List Char) : Option Date := do
  let (year, cs) ← digits? 4 4 cs
  let (month, cs) ← digits? 1 2 (← literal? '-' cs)
  let (day, cs) ← digits? 1 2 (← literal? '-' cs)
  match cs with
  | [] => return ⟨year, month, day, none⟩
  | _ => return ⟨year, month, day, some (← time? cs)⟩

/-- A plain text is a date if it has the form of one; a day alone needs all its ten characters. -/
def isDateText (cs : List Char) : Bool :=
  match ofText? cs with
  | some date => date.time.isSome || cs.length == 10
  | none => false

def isLeapYear (year : Nat) : Bool := year % 4 == 0 && (year % 100 != 0 || year % 400 == 0)

def daysInMonth (year month : Nat) : Nat :=
  if month == 2 then if isLeapYear year then 29 else 28
  else if [4, 6, 9, 11].contains month then 30
  else 31

/-- The day is in the calendar, the time within a day, and its distance less than a day. -/
def isValid (date : Date) : Bool :=
  1 ≤ date.year && 1 ≤ date.month && date.month ≤ 12 && 1 ≤ date.day
    && date.day ≤ daysInMonth date.year date.month
    && match date.time with
      | none => true
      | some t => t.hour < 24 && t.minute < 60 && t.second < 60 && t.distance < 24 * 60

end Date

end TopTag.Document
