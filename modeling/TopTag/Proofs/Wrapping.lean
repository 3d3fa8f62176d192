import TopTag.Proofs.Place
import TopTag.Proofs.Rendered

/-!
# Trees with parentheses put in

Parentheses may go around the value of any field that holds an expression, in any number. `Layers`
says how many go where, and `wrapped` is the tree with them put in. A value that stood at a place
then stands at the place that `Layers.move` gives: different places stay different
(`move_injective`), and the value there is the same with the parentheses below it (`at?_move`).
-/

namespace TopTag

/-- The fields whose values may be put in parentheses. -/
def expressionKeys : List String :=
  ["argument", "body", "right", "consequent", "alternate", "expression"]

/-- How many pairs of parentheses go around the value at a place. -/
abbrev Layers := Place → Nat

/-- The pairs that go around the value of a field; there are none under other keys. -/
def Layers.around (w : Layers) (place : Place) (key : String) : Nat :=
  if key ∈ expressionKeys then w (place ++ [.field key]) else 0

theorem Layers.around_of_not_mem (w : Layers) (place : Place) {key : String}
    (h : key ∉ expressionKeys) : w.around place key = 0 := if_neg h

namespace Tree

def parenthesized (t : Tree) : Tree :=
  .object [("type", .text "ParenthesizedExpression"), ("expression", t)]

/-- The tree in a number of pairs of parentheses. -/
def enclosed : Nat → Tree → Tree
  | 0, t => t
  | n + 1, t => parenthesized (enclosed n t)

mutual

/-- The tree, standing at a place, with parentheses put around the values of its fields and of the
fields below. -/
def wrapped (w : Layers) : Place → Tree → Tree
  | place, .list items => .list (wrappedItems w place 0 items)
  | place, .object fields => .object (wrappedFields w place fields)
  | _, t => t

def wrappedItems (w : Layers) : Place → Nat → List Tree → List Tree
  | _, _, [] => []
  | place, i, t :: rest =>
    wrapped w (place ++ [.item i]) t :: wrappedItems w place (i + 1) rest

def wrappedFields (w : Layers) : Place → List (String × Tree) → List (String × Tree)
  | _, [] => []
  | place, (key, t) :: rest =>
    (key, enclosed (w.around place key) (wrapped w (place ++ [.field key]) t)) ::
      wrappedFields w place rest

end

theorem getElem?_wrappedItems (w : Layers) (place : Place) (i : Nat) (items : List Tree) (k : Nat) :
    (wrappedItems w place i items)[k]? =
      items[k]?.map (wrapped w (place ++ [.item (i + k)])) := by
  induction items generalizing i k with
  | nil => simp [wrappedItems]
  | cons t rest ih =>
    cases k with
    | zero => simp [wrappedItems]
    | succ k =>
      have hindex : i + 1 + k = i + (k + 1) := by omega
      simp [wrappedItems, ih, hindex]

theorem lookup_wrappedFields (w : Layers) (place : Place) (fields : List (String × Tree))
    (key : String) : (wrappedFields w place fields).lookup key = (fields.lookup key).map fun v =>
      enclosed (w.around place key) (v.wrapped w (place ++ [.field key])) := by
  induction fields with
  | nil => rfl
  | cons f rest ih =>
    obtain ⟨k, v⟩ := f
    by_cases hk : key = k
    · subst hk
      simp [wrappedFields]
    · have hne : (key == k) = false := by simpa using hk
      simp [wrappedFields, List.lookup_cons, hne, ih]

section

variable (w : Layers) (place : Place) (t : Tree)

theorem field?_wrapped (key : String) :
    (t.wrapped w place).field? key = (t.field? key).map fun v =>
      enclosed (w.around place key) (v.wrapped w (place ++ [.field key])) := by
  cases t with
  | object fields => exact lookup_wrappedFields w place fields key
  | _ => rfl

theorem field?_wrapped_of_not_mem {key : String} (h : key ∉ expressionKeys) :
    (t.wrapped w place).field? key =
      (t.field? key).map (wrapped w (place ++ [.field key])) := by
  rw [field?_wrapped, w.around_of_not_mem place h]
  rfl

theorem get_wrapped_of_not_mem {key : String} (h : key ∉ expressionKeys) :
    (t.wrapped w place).get key = (t.get key).wrapped w (place ++ [.field key]) := by
  unfold get
  rw [field?_wrapped_of_not_mem w place t h]
  cases t.field? key <;> rfl

@[simp] theorem isText_wrapped (s : String) : (t.wrapped w place).isText s = t.isText s := by
  cases t <;> rfl

@[simp] theorem isObject_wrapped : (t.wrapped w place).isObject = t.isObject := by
  cases t <;> rfl

@[simp] theorem isNode_wrapped : (t.wrapped w place).isNode = t.isNode := by
  unfold isNode
  rw [field?_wrapped_of_not_mem w place t (by decide), Option.isSome_map]

@[simp] theorem isA_wrapped (kind : String) : (t.wrapped w place).isA kind = t.isA kind := by
  unfold isA
  rw [field?_wrapped_of_not_mem w place t (by decide), Option.any_map]
  congr 1
  funext v
  exact isText_wrapped ..

@[simp] theorem isConjunction_wrapped :
    (t.wrapped w place).isConjunction = t.isConjunction := by
  unfold isConjunction
  rw [isA_wrapped, get_wrapped_of_not_mem w place t (by decide), isText_wrapped]

end

theorem at?_enclosed (n : Nat) (t : Tree) (p : Place) :
    (enclosed n t).at? (List.replicate n (.field "expression") ++ p) = t.at? p := by
  induction n with
  | zero => rfl
  | succ n ih =>
    rw [List.replicate_succ, List.cons_append, at?_field]
    exact ih

end Tree

namespace Layers

variable (w : Layers)

/-- The rest of a place behind `here`, with the steps through the parentheses. -/
def moveFrom : Place → Place → Place
  | _, [] => []
  | here, .field key :: rest =>
    .field key :: (List.replicate (w.around here key) (.field "expression") ++
      moveFrom (here ++ [.field key]) rest)
  | here, .item i :: rest => .item i :: moveFrom (here ++ [.item i]) rest

/-- The place in the tree with parentheses where the value from a place is found. -/
def move (p : Place) : Place := w.moveFrom [] p

theorem moveFrom_append (here p q : Place) :
    w.moveFrom here (p ++ q) = w.moveFrom here p ++ w.moveFrom (here ++ p) q := by
  induction p generalizing here with
  | nil => simp [moveFrom]
  | cons step p ih => cases step <;> simp [moveFrom, ih]

theorem move_field (p : Place) (key : String) :
    w.move (p ++ [.field key]) =
      w.move p ++ .field key :: List.replicate (w.around p key) (.field "expression") := by
  simp [move, moveFrom_append, moveFrom]

theorem move_field_of_not_mem (p : Place) {key : String} (h : key ∉ expressionKeys) :
    w.move (p ++ [.field key]) = w.move p ++ [.field key] := by
  rw [move_field, w.around_of_not_mem p h]
  rfl

theorem move_item (p : Place) (i : Nat) : w.move (p ++ [.item i]) = w.move p ++ [.item i] := by
  simp [move, moveFrom_append, moveFrom]

theorem moveFrom_injective (here : Place) : Function.Injective (w.moveFrom here) := by
  intro p q h
  induction p generalizing here q with
  | nil =>
    cases q with
    | nil => rfl
    | cons step q => cases step <;> simp [moveFrom] at h
  | cons step p ih =>
    cases q with
    | nil => cases step <;> simp [moveFrom] at h
    | cons step' q =>
      cases step <;> cases step' <;> simp only [moveFrom, List.cons.injEq, reduceCtorEq, false_and,
        Step.field.injEq, Step.item.injEq] at h
      -- both steps are the same, so as many parentheses follow on both sides
      all_goals
        obtain ⟨rfl, hrest⟩ := h
      · rw [ih _ (List.append_cancel_left hrest)]
      · rw [ih _ hrest]

theorem move_injective : Function.Injective w.move := w.moveFrom_injective []

theorem at?_moveFrom (here p : Place) (t : Tree) :
    (t.wrapped w here).at? (w.moveFrom here p) = (t.at? p).map (Tree.wrapped w (here ++ p)) := by
  induction p generalizing here t with
  | nil => simp [moveFrom]
  | cons step p ih =>
    cases step with
    | field key =>
      rw [moveFrom, Tree.at?_field, Tree.at?_field, Tree.field?_wrapped]
      cases t.field? key with
      | none => rfl
      | some v =>
        have hrest := ih (here ++ [.field key]) v
        rw [List.append_assoc] at hrest
        simpa [Tree.at?_enclosed] using hrest
    | item i =>
      cases t with
      | list items =>
        rw [moveFrom, Tree.wrapped, Tree.at?_item, Tree.at?_item, Tree.getElem?_wrappedItems]
        cases items[i]? with
        | none => rfl
        | some v =>
          have hrest := ih (here ++ [.item i]) v
          rw [List.append_assoc] at hrest
          simpa using hrest
      | _ => simp [moveFrom, Tree.wrapped, Tree.at?]

/-- Where a place is moved to stands what stood there, with the parentheses below it. -/
theorem at?_move (t : Tree) (p : Place) :
    (t.wrapped w []).at? (w.move p) = (t.at? p).map (Tree.wrapped w p) :=
  w.at?_moveFrom [] p t

end Layers

end TopTag
