/-!
# Trees

A `Tree` is a dynamic value: a constant, a number, a text, a list or an object whose fields keep
their order. A tree is a *node* when it is an object with a field `type`; its kind is that field's
value, of whatever shape.
-/

namespace TopTag

inductive Tree where
  | null
  | bool (value : Bool)
  | int (value : Int)
  | float (value : Float)
  | text (value : String)
  | list (items : List Tree)
  | object (fields : List (String × Tree))
  deriving Inhabited

namespace Tree

/-- The value of a field, when the tree is an object that has it. -/
def field? (t : Tree) (key : String) : Option Tree :=
  match t with
  | .object fields => fields.lookup key
  | _ => none

/-- The value of a field; one that is absent reads as `null`. -/
def get (t : Tree) (key : String) : Tree := (t.field? key).getD .null

def isObject : Tree → Bool
  | .object _ => true
  | _ => false

def isText (t : Tree) (s : String) : Bool :=
  match t with
  | .text value => value == s
  | _ => false

def isNode (t : Tree) : Bool := (t.field? "type").isSome

/-- A node of the given kind. -/
def isA (t : Tree) (kind : String) : Bool := (t.field? "type").any (·.isText kind)

def kind (t : Tree) : Tree := t.get "type"

/-- What stands for nothing where a collection may be left out. -/
def isVoid : Tree → Bool
  | .null => true
  | .bool value => !value
  | .int value => value == 0
  | .float value => value == 0
  | .text value => value.isEmpty
  | .list items => items.isEmpty
  | .object fields => fields.isEmpty

mutual

/-- The number of lists and objects in a tree. -/
def weight : Tree → Nat
  | .list items => 1 + weightItems items
  | .object fields => 1 + weightFields fields
  | _ => 0

def weightItems : List Tree → Nat
  | [] => 0
  | t :: rest => weight t + weightItems rest

def weightFields : List (String × Tree) → Nat
  | [] => 0
  | (_, t) :: rest => weight t + weightFields rest

end

theorem weight_lookup_le (fields : List (String × Tree)) (key : String) :
    ((fields.lookup key).getD .null).weight ≤ weightFields fields := by
  induction fields with
  | nil => simp [weight]
  | cons f rest ih =>
    obtain ⟨k, t⟩ := f
    rw [List.lookup_cons, weightFields]
    split
    · simp only [Option.getD_some]
      omega
    · omega

/-- Two different fields together weigh no more than all of them. -/
theorem weight_lookup_add_le (fields : List (String × Tree)) {a b : String} (h : a ≠ b) :
    ((fields.lookup a).getD .null).weight + ((fields.lookup b).getD .null).weight
      ≤ weightFields fields := by
  induction fields with
  | nil => simp [weight]
  | cons f rest ih =>
    obtain ⟨k, t⟩ := f
    have la := weight_lookup_le rest a
    have lb := weight_lookup_le rest b
    rw [List.lookup_cons, List.lookup_cons, weightFields]
    cases ha : a == k <;> cases hb : b == k <;> dsimp only [Option.getD_some]
    case true.true => exact absurd ((eq_of_beq ha).trans (eq_of_beq hb).symm) h
    all_goals omega

theorem isObject_of_isA {t : Tree} {kind : String} (h : t.isA kind = true) :
    ∃ fields, t = .object fields := by
  cases t <;> simp [isA, field?] at h ⊢

theorem weight_get_lt {t : Tree} (h : t.isObject = true) (key : String) :
    (t.get key).weight < t.weight := by
  cases t <;> simp [isObject] at h
  rename_i fields
  have := weight_lookup_le fields key
  simp only [get, field?, weight]
  omega

theorem weight_get_lt_of_isA {t : Tree} {kind : String} (h : t.isA kind = true) (key : String) :
    (t.get key).weight < t.weight := by
  obtain ⟨fields, rfl⟩ := isObject_of_isA h
  exact weight_get_lt rfl key

theorem weight_get_add_lt {t : Tree} {kind : String} (h : t.isA kind = true) {a b : String}
    (hab : a ≠ b) : (t.get a).weight + (t.get b).weight < t.weight := by
  obtain ⟨fields, rfl⟩ := isObject_of_isA h
  have := weight_lookup_add_le fields hab
  simp only [get, field?, weight]
  omega

end Tree

end TopTag
