import TopTag.Decimal.Layout

/-!
# Data

What a mapping of settings holds: values of a few kinds under keys whose order counts.
-/

namespace TopTag

/-- A value of a mapping. What a compound value holds plays no part. -/
inductive Datum where
  | null
  | bool (value : Bool)
  | int (value : Int)
  | float (value : Float)
  | text (value : String)
  | date
  | bytes
  | list
  | mapping
  | set
  deriving Inhabited

namespace Datum

/-- An integer with more digits than can be written. -/
def isOverlong : Datum → Bool
  | .int value => Decimal.isOverlong value
  | _ => false

end Datum

/-- Keys with their values, in the order in which the keys entered. -/
abbrev Fields := List (String × Datum)

namespace Fields

/-- A key that is there already keeps its position and takes the new value. -/
def insert (fields : Fields) (key : String) (value : Datum) : Fields :=
  match fields with
  | [] => [(key, value)]
  | (k, v) :: rest => if k == key then (k, value) :: rest else (k, v) :: insert rest key value

def ofPairs (pairs : List (String × Datum)) : Fields :=
  pairs.foldl (fun fields p => fields.insert p.1 p.2) []

def get? (fields : Fields) (key : String) : Option Datum := List.lookup key fields

end Fields

end TopTag
