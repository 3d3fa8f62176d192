import TopTag.Measure
import TopTag.Tree.Place

/-!
# Walking a tree

`walk` visits the nodes of a tree depth first, parents before children and children in the order of
their fields. Fields that hold metadata are passed over, and so is everything below a value that is
not a node.
-/

namespace TopTag

/-- Fields that hold no part of the syntax. -/
def metadataKeys : List String :=
  ["loc", "extra", "comments", "tokens", "leadingComments", "trailingComments", "innerComments"]

/-- A node met on a walk, with the node it was reached from and the field it stands under. -/
structure Visit where
  spot : Spot
  parent : Option Tree
  key : Option String

/-- What a visit may lead to, counting the visit itself. -/
def Visit.weight (v : Visit) : Nat := max 1 v.spot.tree.weight

/-- The nodes among the items of a list, with the index each stands at. -/
def nodeItems : Nat → List Tree → List (Nat × Tree)
  | _, [] => []
  | i, t :: rest => if t.isNode then (i, t) :: nodeItems (i + 1) rest else nodeItems (i + 1) rest

/-- The nodes that a field holds directly or in a list. -/
def fieldNodes (place : Place) (key : String) (value : Tree) : List Spot :=
  match value with
  | .object _ => if value.isNode then [⟨place ++ [.field key], value⟩] else []
  | .list items =>
    (nodeItems 0 items).map fun (i, t) => ⟨place ++ [.field key, .item i], t⟩
  | _ => []

/-- The child nodes below a list of fields, each with its field's name. -/
def fieldsNodes (place : Place) : List (String × Tree) → List (Spot × String)
  | [] => []
  | (key, value) :: rest =>
    if metadataKeys.contains key then fieldsNodes place rest
    else (fieldNodes place key value).map (·, key) ++ fieldsNodes place rest

/-- The child nodes of a value in the order of its fields. -/
def Spot.children (s : Spot) : List (Spot × String) :=
  match s.tree with
  | .object fields => fieldsNodes s.place fields
  | _ => []

def Spot.visits (s : Spot) : List Visit :=
  s.children.map fun (child, key) => ⟨child, some s.tree, some key⟩

def pendingWeight (pending : List Visit) : Nat := total Visit.weight pending

theorem Tree.weight_pos_of_isNode {t : Tree} (h : t.isNode = true) : 1 ≤ t.weight := by
  cases t with
  | object fields =>
    rw [weight]
    omega
  | _ => simp [isNode, field?] at h

theorem weight_nodeItems_le (i : Nat) (items : List Tree) :
    total (fun p => max 1 p.2.weight) (nodeItems i items) ≤ Tree.weightItems items := by
  induction items generalizing i with
  | nil => simp [nodeItems, Tree.weightItems]
  | cons t rest ih =>
    have := ih (i + 1)
    rw [nodeItems, Tree.weightItems]
    split
    · rename_i h
      have := Tree.weight_pos_of_isNode h
      simp only [total_cons]
      omega
    · omega

theorem weight_fieldNodes_le (place : Place) (key : String) (value : Tree) :
    total (fun s => max 1 s.tree.weight) (fieldNodes place key value) ≤ value.weight := by
  cases value with
  | object fields =>
    rw [fieldNodes]
    split
    · rename_i h
      have := Tree.weight_pos_of_isNode h
      simp only [total_cons, total_nil]
      omega
    · simp
  | list items =>
    have := weight_nodeItems_le 0 items
    simp only [fieldNodes, total_map, Tree.weight]
    omega
  | _ => simp [fieldNodes]

theorem weight_fieldsNodes_le (place : Place) (fields : List (String × Tree)) :
    total (fun p => max 1 p.1.tree.weight) (fieldsNodes place fields)
      ≤ Tree.weightFields fields := by
  induction fields with
  | nil => simp [fieldsNodes, Tree.weightFields]
  | cons f rest ih =>
    obtain ⟨key, value⟩ := f
    have := weight_fieldNodes_le place key value
    rw [fieldsNodes, Tree.weightFields]
    split
    · omega
    · simp only [total_append, total_map]
      omega

theorem pendingWeight_append (as bs : List Visit) :
    pendingWeight (as ++ bs) = pendingWeight as + pendingWeight bs := by
  simp [pendingWeight]

theorem pendingWeight_cons (v : Visit) (pending : List Visit) :
    pendingWeight (v :: pending) = v.weight + pendingWeight pending := by
  simp [pendingWeight]

theorem pendingWeight_visits (s : Spot) :
    pendingWeight s.visits = total (fun p => max 1 p.1.tree.weight) s.children := by
  simp only [pendingWeight, Spot.visits, total_map, Visit.weight]

/-- The visits of the children are less work than the visit of their parent. -/
theorem visits_lighter (v : Visit) : pendingWeight v.spot.visits < v.weight := by
  obtain ⟨⟨place, tree⟩, parent, key⟩ := v
  rw [pendingWeight_visits, Visit.weight]
  cases tree with
  | object fields =>
    have := weight_fieldsNodes_le place fields
    simp only [Spot.children, Tree.weight]
    omega
  | _ =>
    simp only [Spot.children, total_nil]
    omega

/-- The visits still to be made, the next one first, and what they lead to. -/
def walkFrom : List Visit → List Visit
  | [] => []
  | v :: pending => v :: walkFrom (v.spot.visits ++ pending)
termination_by pending => pendingWeight pending
decreasing_by
  have := visits_lighter v
  rw [pendingWeight_append, pendingWeight_cons]
  omega

/-- The nodes of a tree in depth-first order, the value itself first. -/
def walk (s : Spot) : List Visit := walkFrom [⟨s, none, none⟩]

/-- The child nodes of a value that has to be an object. -/
def childNodes (s : Spot) : Except Fault (List (Spot × String)) :=
  if s.tree.isObject then .ok s.children else .error .notObject

/-- The nodes below a value that has to be an object. -/
def descendants (s : Spot) : Except Fault (List Spot) :=
  if s.tree.isObject then .ok ((walk s).tail.map Visit.spot) else .error .notObject

end TopTag
