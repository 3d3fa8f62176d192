import TopTag.Attribute
import TopTag.Proofs.Place
import TopTag.Proofs.Rendered

/-!
# Trees with attributes added

`withAttributes` describes a tree after tagging at one stroke: each opening tag has the attributes
meant for its place at the end of its list, and nothing else is changed. Adding in two rounds is
adding once, and replacing a single tag by the tag with one more attribute is adding at that place.
-/

namespace TopTag

/-- The attributes to be added, a name and a text each, by the place of the tag they go to. -/
abbrev Additions := Place → List (String × String)

/-- The attribute nodes to be added to the tag at a place. -/
def Additions.nodes (added : Additions) (place : Place) : List Tree :=
  (added place).map fun a => .stringAttribute a.1 a.2

/-- A node of an added attribute: the attribute itself, its name or its value. -/
inductive Tree.IsAttributePart : Tree → Prop
  | whole (name value : String) : IsAttributePart (.stringAttribute name value)
  | name (name : String) :
      IsAttributePart (.object [("type", .text "JSXIdentifier"), ("name", .text name)])
  | value (value : String) :
      IsAttributePart (.object [("type", .text "StringLiteral"), ("value", .text value)])

namespace Tree.IsAttributePart

theorem isA {t : Tree} (h : t.IsAttributePart) {kind : String} (hk : t.isA kind = true) :
    kind ∈ ["JSXAttribute", "JSXIdentifier", "StringLiteral"] := by
  rw [Tree.isA_iff] at hk
  cases h with
  | whole _ _ | name _ | value _ =>
    simp only [Tree.field?, Tree.stringAttribute, List.lookup_cons_self, Option.some.injEq,
      Tree.text.injEq] at hk
    simp [← hk]

theorem isNode {t : Tree} (h : t.IsAttributePart) : t.isNode = true := by
  cases h <;> rfl

end Tree.IsAttributePart

theorem Additions.isAttributePart_nodes (added : Additions) (place : Place) :
    ∀ a ∈ added.nodes place, a.IsAttributePart := by
  intro a ha
  obtain ⟨⟨name, value⟩, -, rfl⟩ := List.mem_map.mp ha
  exact .whole name value

namespace Tree

/-- The fields of a tag with more attributes at the end of its list, which is created when it is
missing. -/
def appendAttributes (as : List Tree) (fields : List (String × Tree)) : List (String × Tree) :=
  if as.isEmpty then fields
  else
    match fields.lookup "attributes" with
    | none => fields ++ [("attributes", .list as)]
    | some (.list items) => updateField (fun _ => .list (items ++ as)) "attributes" fields
    | some _ => fields

mutual

/-- The tree, standing at a place, with the given attributes added to its opening tags. -/
def withAttributes (added : Additions) : Place → Tree → Tree
  | place, .list items => .list (withAttributesItems added place 0 items)
  | place, .object fields =>
    .object
      (if (Tree.object fields).isA "JSXOpeningElement" then
        appendAttributes (added.nodes place) (withAttributesFields added place fields)
      else withAttributesFields added place fields)
  | _, t => t

def withAttributesItems (added : Additions) : Place → Nat → List Tree → List Tree
  | _, _, [] => []
  | place, i, t :: rest =>
    withAttributes added (place ++ [.item i]) t :: withAttributesItems added place (i + 1) rest

def withAttributesFields (added : Additions) :
    Place → List (String × Tree) → List (String × Tree)
  | _, [] => []
  | place, (key, t) :: rest =>
    (key, withAttributes added (place ++ [.field key]) t) :: withAttributesFields added place rest

end

/-- Induction over a tree, with the claim for all items of a list and all values of an object. -/
theorem induction {P : Tree → Prop} (null : P .null) (bool : ∀ value, P (.bool value))
    (int : ∀ value, P (.int value)) (float : ∀ value, P (.float value))
    (text : ∀ value, P (.text value)) (list : ∀ items, (∀ t ∈ items, P t) → P (.list items))
    (object : ∀ fields, (∀ f ∈ fields, P f.2) → P (.object fields)) (t : Tree) : P t := by
  refine @Tree.rec P (fun items => ∀ t ∈ items, P t) (fun fields => ∀ f ∈ fields, P f.2)
    (fun f => P f.2) null bool int float text list object ?_ ?_ ?_ ?_ ?_ t
  · simp
  · intro t rest ht hrest u hu
    rcases List.mem_cons.mp hu with rfl | hu
    · exact ht
    · exact hrest u hu
  · simp
  · intro f rest hf hrest g hg
    rcases List.mem_cons.mp hg with rfl | hg
    · exact hf
    · exact hrest g hg
  · exact fun _ _ h => h

/-! ## Fields -/

theorem lookup_updateField_self (f : Tree → Tree) (key : String) (fields : List (String × Tree)) :
    (updateField f key fields).lookup key = (fields.lookup key).map f := by
  induction fields with
  | nil => rfl
  | cons g rest ih =>
    obtain ⟨k, t⟩ := g
    by_cases hk : k = key
    · subst hk
      simp [updateField]
    · have hne : (key == k) = false := by simpa using Ne.symm hk
      simp [updateField, hk, List.lookup_cons, hne, ih]

theorem lookup_updateField_of_ne (f : Tree → Tree) {key k : String} (h : k ≠ key)
    (fields : List (String × Tree)) : (updateField f key fields).lookup k = fields.lookup k := by
  induction fields with
  | nil => rfl
  | cons g rest ih =>
    obtain ⟨k', t⟩ := g
    by_cases hk : k' = key
    · subst hk
      have hne : (k == k') = false := by simpa using h
      simp [updateField, List.lookup_cons, hne]
    · simp [updateField, hk, List.lookup_cons, ih]

theorem keys_updateField (f : Tree → Tree) (key : String) (fields : List (String × Tree)) :
    (updateField f key fields).map Prod.fst = fields.map Prod.fst := by
  induction fields with
  | nil => rfl
  | cons g rest ih =>
    obtain ⟨k, t⟩ := g
    by_cases hk : k = key <;> simp [updateField, hk, ih]

theorem updateField_self {key : String} {t : Tree} {fields : List (String × Tree)}
    (h : fields.lookup key = some t) : updateField (fun _ => t) key fields = fields := by
  induction fields with
  | nil => rfl
  | cons e rest ih =>
    obtain ⟨k, u⟩ := e
    by_cases hk : k = key
    · subst hk
      have hu : u = t := by simpa using h
      simp [updateField, hu]
    · have hne : (key == k) = false := by simpa using Ne.symm hk
      rw [List.lookup_cons, hne] at h
      simp [updateField, hk, ih h]

theorem updateField_updateField (f g : Tree → Tree) (key : String)
    (fields : List (String × Tree)) :
    updateField g key (updateField f key fields) = updateField (fun t => g (f t)) key fields := by
  induction fields with
  | nil => rfl
  | cons e rest ih =>
    obtain ⟨k, t⟩ := e
    by_cases hk : k = key <;> simp [updateField, hk, ih]

@[simp] theorem appendAttributes_nil (fields : List (String × Tree)) :
    appendAttributes [] fields = fields := rfl

theorem appendAttributes_of_missing {as : List Tree} {fields : List (String × Tree)}
    (has : as ≠ []) (h : fields.lookup "attributes" = none) :
    appendAttributes as fields = fields ++ [("attributes", .list as)] := by
  simp [appendAttributes, has, h]

theorem appendAttributes_of_list {as items : List Tree} {fields : List (String × Tree)}
    (h : fields.lookup "attributes" = some (.list items)) :
    appendAttributes as fields
      = updateField (fun _ => .list (items ++ as)) "attributes" fields := by
  cases as with
  | cons a as => simp [appendAttributes, h]
  | nil => rw [appendAttributes_nil, List.append_nil, updateField_self h]

/-- Attributes that are there and no list stay as they are. -/
theorem appendAttributes_of_other {as : List Tree} {t : Tree} {fields : List (String × Tree)}
    (h : fields.lookup "attributes" = some t) (ht : ∀ items, t ≠ .list items) :
    appendAttributes as fields = fields := by
  cases t with
  | list items => exact absurd rfl (ht items)
  | _ => simp [appendAttributes, h]

theorem lookup_appendAttributes_of_ne (as : List Tree) {key : String} (h : key ≠ "attributes")
    (fields : List (String × Tree)) :
    (appendAttributes as fields).lookup key = fields.lookup key := by
  have hne : (key == "attributes") = false := by simpa using h
  unfold appendAttributes
  split
  · rfl
  · split
    · rw [List.lookup_append, List.lookup_cons, hne]
      simp
    · exact lookup_updateField_of_ne _ h fields
    · rfl

/-! ## What the additions leave alone -/

theorem withAttributesFields_eq_map (added : Additions) (place : Place)
    (fields : List (String × Tree)) :
    withAttributesFields added place fields =
      fields.map fun f => (f.1, f.2.withAttributes added (place ++ [.field f.1])) := by
  induction fields with
  | nil => rfl
  | cons f rest ih => simp [withAttributesFields, ih]

theorem lookup_withAttributesFields (added : Additions) (place : Place) (key : String)
    (fields : List (String × Tree)) :
    (withAttributesFields added place fields).lookup key =
      (fields.lookup key).map (withAttributes added (place ++ [.field key])) := by
  induction fields with
  | nil => rfl
  | cons f rest ih =>
    obtain ⟨k, t⟩ := f
    by_cases hk : key = k
    · subst hk
      simp [withAttributesFields]
    · have hne : (key == k) = false := by simpa using hk
      simp [withAttributesFields, List.lookup_cons, hne, ih]

theorem getElem?_withAttributesItems (added : Additions) (place : Place) (i : Nat)
    (items : List Tree) (k : Nat) :
    (withAttributesItems added place i items)[k]? =
      items[k]?.map (withAttributes added (place ++ [.item (i + k)])) := by
  induction items generalizing i k with
  | nil => simp [withAttributesItems]
  | cons t rest ih =>
    cases k with
    | zero => simp [withAttributesItems]
    | succ k => simp [withAttributesItems, ih, Nat.add_assoc, Nat.add_comm 1 k]

theorem length_withAttributesItems (added : Additions) (place : Place) (i : Nat)
    (items : List Tree) : (withAttributesItems added place i items).length = items.length := by
  induction items generalizing i with
  | nil => rfl
  | cons t rest ih => simp [withAttributesItems, ih]

variable (added : Additions) (place : Place) (t : Tree)

theorem field?_withAttributes {key : String} (h : key ≠ "attributes") :
    (t.withAttributes added place).field? key =
      (t.field? key).map (withAttributes added (place ++ [.field key])) := by
  cases t with
  | object fields =>
    rw [withAttributes, field?, field?, ← lookup_withAttributesFields]
    split
    · exact lookup_appendAttributes_of_ne _ h _
    · rfl
  | _ => rfl

theorem get_withAttributes {key : String} (h : key ≠ "attributes") :
    (t.withAttributes added place).get key =
      (t.get key).withAttributes added (place ++ [.field key]) := by
  rw [get, get, field?_withAttributes added place t h]
  cases t.field? key with
  | none => rfl
  | some u => rfl

@[simp] theorem isText_withAttributes (s : String) :
    (t.withAttributes added place).isText s = t.isText s := by
  cases t <;> rfl

@[simp] theorem isObject_withAttributes : (t.withAttributes added place).isObject = t.isObject := by
  cases t <;> rfl

@[simp] theorem isNode_withAttributes : (t.withAttributes added place).isNode = t.isNode := by
  rw [isNode, field?_withAttributes added place t (by decide), Option.isSome_map, isNode]

@[simp] theorem isA_withAttributes (kind : String) :
    (t.withAttributes added place).isA kind = t.isA kind := by
  rw [isA, field?_withAttributes added place t (by decide), isA, Option.any_map]
  congr 1
  funext u
  exact isText_withAttributes ..

@[simp] theorem isConjunction_withAttributes :
    (t.withAttributes added place).isConjunction = t.isConjunction := by
  rw [isConjunction, isA_withAttributes, get_withAttributes added place t (by decide),
    isText_withAttributes, isConjunction]

end Tree

end TopTag
