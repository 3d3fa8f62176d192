import TopTag.Proofs.Reach

/-!
# A walk as a preorder

The trees that a walk meets, as a recursion over the tree itself: a node comes before the nodes of
its fields, and these come in the order of the fields. Places play no part in it.
-/

namespace TopTag

namespace Tree

mutual

/-- A node and the nodes below it in the order of a walk; nothing for a value that is no node. -/
def nodes : Tree → List Tree
  | .object fields =>
    if (Tree.object fields).isNode then .object fields :: nodesOfFields fields else []
  | _ => []

def nodesOfItems : List Tree → List Tree
  | [] => []
  | t :: rest => nodes t ++ nodesOfItems rest

/-- The nodes that the value of a field leads to. -/
def nodesOfValue : Tree → List Tree
  | .list items => nodesOfItems items
  | .object fields =>
    if (Tree.object fields).isNode then .object fields :: nodesOfFields fields else []
  | _ => []

def nodesOfFields : List (String × Tree) → List Tree
  | [] => []
  | (key, value) :: rest =>
    (if metadataKeys.contains key then [] else nodesOfValue value) ++ nodesOfFields rest

end

/-- The nodes strictly below a value. -/
def nodesBelow : Tree → List Tree
  | .object fields => nodesOfFields fields
  | _ => []

theorem nodes_of_isNode {t : Tree} (h : t.isNode = true) : t.nodes = t :: t.nodesBelow := by
  cases t with
  | object fields => rw [nodes, if_pos h, nodesBelow]
  | _ => cases h

theorem nodes_of_not_isNode {t : Tree} (h : t.isNode = false) : t.nodes = [] := by
  cases t with
  | object fields => rw [nodes, h, if_neg Bool.false_ne_true]
  | _ => rfl

theorem nodesOfValue_of_isNode {t : Tree} (h : t.isNode = true) : t.nodesOfValue = t.nodes := by
  cases t with
  | object fields => rw [nodesOfValue, nodes]
  | _ => cases h

end Tree

open TopTag.Tree

theorem nodeItems_flatMap_nodes (i : Nat) (items : List Tree) :
    (nodeItems i items).flatMap (fun p => p.2.nodes) = nodesOfItems items := by
  induction items generalizing i with
  | nil => rfl
  | cons t rest ih =>
    rw [nodeItems, nodesOfItems]
    split
    · rw [List.flatMap_cons, ih]
    · rename_i h
      rw [nodes_of_not_isNode (Bool.eq_false_iff.mpr h), List.nil_append, ih]

theorem fieldNodes_flatMap_nodes (place : Place) (key : String) (value : Tree) :
    (fieldNodes place key value).flatMap (fun c => c.tree.nodes) = value.nodesOfValue := by
  cases value with
  | object fields =>
    rw [fieldNodes, nodesOfValue, ← nodes]
    split
    · simp
    · rename_i h
      rw [nodes_of_not_isNode (Bool.eq_false_iff.mpr h), List.flatMap_nil]
  | list items =>
    rw [fieldNodes, List.flatMap_map, nodesOfValue, ← nodeItems_flatMap_nodes 0]
  | _ => rfl

theorem fieldsNodes_flatMap_nodes (place : Place) (fields : List (String × Tree)) :
    (fieldsNodes place fields).flatMap (fun c => c.1.tree.nodes) = nodesOfFields fields := by
  induction fields with
  | nil => rfl
  | cons f rest ih =>
    obtain ⟨key, value⟩ := f
    rw [fieldsNodes, nodesOfFields]
    split
    · rw [List.nil_append, ih]
    · rw [List.flatMap_append, List.flatMap_map, ih, ← fieldNodes_flatMap_nodes place key]

theorem visits_flatMap_nodes (s : Spot) :
    s.visits.flatMap (fun v => v.spot.tree.nodes) = s.tree.nodesBelow := by
  obtain ⟨place, tree⟩ := s
  rw [Spot.visits, List.flatMap_map]
  cases tree with
  | object fields => exact fieldsNodes_flatMap_nodes place fields
  | _ => rfl

/-- The trees of a walk from pending visits are those of each visit in turn. -/
theorem walkFrom_map_tree {pending : List Visit} (h : ∀ v ∈ pending, v.spot.tree.isNode = true) :
    (walkFrom pending).map (fun v => v.spot.tree) =
      pending.flatMap fun v => v.spot.tree.nodes := by
  fun_induction walkFrom pending with
  | case1 => rfl
  | case2 v rest ih =>
    have hchildren : ∀ w ∈ v.spot.visits ++ rest, w.spot.tree.isNode = true := by
      intro w hw
      rcases List.mem_append.mp hw with hw | hw
      · obtain ⟨-, key, -, hc⟩ := Spot.mem_visits.mp hw
        exact Spot.isNode_of_mem_children hc
      · exact h w (List.mem_cons_of_mem _ hw)
    rw [List.map_cons, ih hchildren, List.flatMap_append, visits_flatMap_nodes, List.flatMap_cons,
      nodes_of_isNode (h v List.mem_cons_self), List.cons_append]

theorem walk_map_tree_of_isNode {s : Spot} (h : s.tree.isNode = true) :
    (walk s).map (fun v => v.spot.tree) = s.tree.nodes := by
  rw [walk, walkFrom_map_tree (by simpa using h), List.flatMap_singleton]

theorem walk_map_tree {t : Tree} (h : t.isNode = true) :
    (walk (Spot.root t)).map (fun v => v.spot.tree) = t.nodes := walk_map_tree_of_isNode h

end TopTag
