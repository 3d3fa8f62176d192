import TopTag.Decimal.Layout
import TopTag.Fault
import TopTag.Text.Quoted

/-!
# Trees as text

`Tree.quoted` is the one-line form of a tree, with every text in quotes. `Tree.shown` differs from
it on a bare text only, which it leaves as it is. A tree with an integer of too many digits has
neither.
-/

namespace TopTag.Tree

/-- Items with commas between them. -/
def separated (items : List String) : String := String.intercalate ", " items

mutual

def quoted : Tree → Except Fault String
  | .null => .ok "None"
  | .bool true => .ok "True"
  | .bool false => .ok "False"
  | .int value =>
    if Decimal.isOverlong value then .error .tooManyDigits else .ok (toString value)
  | .float value => .ok (Decimal.plain.write value)
  | .text value => .ok (Text.quote value)
  | .list items => do
    let items ← quotedItems items
    return "[" ++ separated items ++ "]"
  | .object fields => do
    let fields ← quotedFields fields
    return "\x7b" ++ separated fields ++ "\x7d"

def quotedItems : List Tree → Except Fault (List String)
  | [] => .ok []
  | t :: rest => do
    let first ← quoted t
    let others ← quotedItems rest
    return first :: others

def quotedFields : List (String × Tree) → Except Fault (List String)
  | [] => .ok []
  | (key, t) :: rest => do
    let first ← quoted t
    let others ← quotedFields rest
    return (Text.quote key ++ ": " ++ first) :: others

end

def shown : Tree → Except Fault String
  | .text value => .ok value
  | t => t.quoted

/-- The name of a value's shape. -/
def shapeName : Tree → String
  | .null => "NoneType"
  | .bool _ => "bool"
  | .int _ => "int"
  | .float _ => "float"
  | .text _ => "str"
  | .list _ => "list"
  | .object _ => "dict"

end TopTag.Tree
