import TopTag.Tree.Basic

/-!
# Faults

Why an operation on a tree stops. Trees come from outside and may be malformed, so every way of
looking at one has its own cause of failure.
-/

namespace TopTag

inductive Fault where
  /-- An object lacks a field that has to be there. -/
  | missingField (key : String)
  /-- A field is demanded of a value that has no fields. -/
  | noFields
  /-- The fields of a value other than an object are consulted. -/
  | notObject
  /-- A value that holds nothing is gone through. -/
  | notIterable
  /-- A value that holds nothing is searched. -/
  | notSearchable
  /-- The kind of an initialiser is itself a list or an object. -/
  | compoundKind
  /-- An attribute is to be appended to something other than a list. -/
  | notAppendable
  /-- An insertion's offset is no position in a text. -/
  | badOffset
  /-- An opening tag with new attributes has no offset to put them at. -/
  | noAnchor
  /-- A new attribute of this kind has no plain name. -/
  | unwritableAttribute (kind : String)
  /-- A new attribute's value is of this kind and not a string literal. -/
  | unwritableValue (kind : String)
  /-- An integer that is to be a text has too many digits. -/
  | tooManyDigits
  /-- A concrete node lacks a child that has to be there. -/
  | missingChild
  /-- A concrete node has fewer children than are needed. -/
  | tooFewChildren
  /-- A byte offset lies past the end of the source. -/
  | offsetOutOfRange

namespace Tree

/-- The value of a field that has to be there. -/
def require (t : Tree) (key : String) : Except Fault Tree :=
  match t with
  | .object fields =>
    match fields.lookup key with
    | some value => .ok value
    | none => .error (.missingField key)
  | _ => .error .noFields

/-- The value of a field of an object; `null` when the object lacks it. -/
def consult (t : Tree) (key : String) : Except Fault Tree :=
  if t.isObject then .ok (t.get key) else .error .notObject

/-- What going through a value meets: the items of a list, the keys of an object, the characters of
a text. A void value holds nothing. -/
def entries (t : Tree) : Except Fault (List Tree) :=
  if t.isVoid then .ok []
  else
    match t with
    | .list items => .ok items
    | .object fields => .ok (fields.map fun f => .text f.1)
    | .text value => .ok (value.toList.map fun c => .text (String.singleton c))
    | _ => .error .notIterable

/-- `needle` begins at some position of `hay`. -/
def occursIn (needle : List Char) : List Char → Bool
  | [] => needle.isEmpty
  | c :: rest => needle.isPrefixOf (c :: rest) || occursIn needle rest

/-- A word is a field of an object, an item of a list or a part of a text. -/
def mentions (t : Tree) (word : String) : Except Fault Bool :=
  match t with
  | .object fields => .ok (fields.lookup word).isSome
  | .list items => .ok (items.any (·.isText word))
  | .text value => .ok (occursIn word.toList value.toList)
  | _ => .error .notSearchable

end Tree

/-- A computation that gives a result has gone through its first part. -/
theorem exists_of_bind_ok {α β : Type} {x : Except Fault α} {f : α → Except Fault β} {b : β}
    (h : (x >>= f) = .ok b) : ∃ a, x = .ok a ∧ f a = .ok b := by
  cases x with
  | error fault => cases h
  | ok a => exact ⟨a, rfl, h⟩

end TopTag
