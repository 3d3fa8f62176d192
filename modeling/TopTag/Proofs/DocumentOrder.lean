import Mathlib.Data.List.Nodup
import TopTag.Proofs.Order

/-!
# The walk as a recursion

A walk keeps a stack of visits still to be made. `Visit.preorder` is the recursion that needs no
stack: a node, and then what each of its children leads to. The two give the same visits in the same
order (`walkFrom_eq_flatMap_preorder`).

`Spot.Holds` and `Spot.Reached` say which nodes these are by the places in the tree alone: a node is
reached through fields that are no metadata, and through lists in such fields.
-/

namespace TopTag

namespace Visit

theorem weight_lt_of_mem_visits {v w : Visit} (h : w ∈ v.spot.visits) : w.weight < v.weight :=
  Nat.lt_of_le_of_lt (le_total_of_mem Visit.weight h) (visits_lighter v)

/-- A visit, and then in order what the visits of the children lead to. -/
def preorder (v : Visit) : List Visit := v :: v.spot.visits.attach.flatMap fun w => w.1.preorder
termination_by v.weight
decreasing_by exact weight_lt_of_mem_visits w.2

theorem preorder_eq (v : Visit) : v.preorder = v :: v.spot.visits.flatMap preorder := by
  rw [preorder]
  congr 1
  rw [List.flatMap_def, List.flatMap_def, List.attach_map_val]

/-- What a visit leads to follows it without a gap, wherever it is met. -/
theorem preorder_infix_of_mem {v w : Visit} (h : w ∈ v.preorder) : w.preorder <:+: v.preorder := by
  induction v using preorder.induct with
  | case1 v ih =>
    have hsplit := preorder_eq v
    rw [hsplit, List.mem_cons, List.mem_flatMap] at h
    rcases h with rfl | ⟨u, hu, hw⟩
    · exact List.infix_refl _
    · have hchild : u.preorder <:+: v.spot.visits.flatMap preorder := by
        rw [List.flatMap_def]
        exact List.infix_of_mem_flatten (List.mem_map_of_mem hu)
      rw [hsplit]
      exact (ih ⟨u, hu⟩ hw).trans (List.infix_cons hchild)

theorem sublist_flatMap_preorder (pending : List Visit) :
    pending.Sublist (pending.flatMap preorder) := by
  induction pending with
  | nil => exact .slnil
  | cons v pending ih =>
    rw [List.flatMap_cons, preorder_eq, List.cons_append]
    exact (ih.trans (List.sublist_append_right _ _)).cons_cons v

end Visit

/-- The loop over a stack makes the visits of the recursion, stack entry by stack entry. -/
theorem walkFrom_eq_flatMap_preorder (pending : List Visit) :
    walkFrom pending = pending.flatMap Visit.preorder := by
  fun_induction walkFrom pending with
  | case1 => rfl
  | case2 v pending ih =>
    rw [ih, List.flatMap_append, List.flatMap_cons, Visit.preorder_eq, List.cons_append]

/-- What a visit leads to lies at its place or below it. -/
theorem place_prefix_of_mem_preorder {v w : Visit} (h : w ∈ v.preorder) :
    v.spot.place <+: w.spot.place := by
  have hwalk : w ∈ walkFrom [v] := by
    rwa [walkFrom_eq_flatMap_preorder, List.flatMap_singleton]
  obtain ⟨u, hu, hwithin⟩ := within_of_mem_walkFrom hwalk
  obtain rfl := List.mem_singleton.mp hu
  exact hwithin.place_prefix_place

theorem walk_eq_preorder (s : Spot) : walk s = Visit.preorder ⟨s, none, none⟩ := by
  rw [walk, walkFrom_eq_flatMap_preorder, List.flatMap_singleton]

/-- Every turn of the loop takes at least one unit of what is pending. -/
theorem length_walkFrom_le (pending : List Visit) :
    (walkFrom pending).length ≤ pendingWeight pending := by
  fun_induction walkFrom pending with
  | case1 => exact Nat.zero_le _
  | case2 v pending ih =>
    have hlighter := visits_lighter v
    rw [pendingWeight_append] at ih
    rw [List.length_cons, pendingWeight_cons]
    omega

theorem length_walk_le {s : Spot} (h : s.tree.isObject = true) :
    (walk s).length ≤ s.tree.weight := by
  have hle := length_walkFrom_le [⟨s, none, none⟩]
  have hpos := Tree.weight_get_lt h "type"
  simp only [pendingWeight, total_cons, total_nil, Visit.weight] at hle
  rw [walk]
  omega

/-! ## Which nodes are met -/

namespace Spot

/-- `c` is a node that a field of `s` holds, directly or as an item of a list. Fields of metadata
hold none. -/
inductive Holds (s : Spot) (key : String) : Spot → Prop
  | value {t : Tree} (hkey : key ∉ metadataKeys) (ht : s.tree.at? [.field key] = some t)
      (hnode : t.isNode = true) : Holds s key ⟨s.place ++ [.field key], t⟩
  | item {t : Tree} {i : Nat} (hkey : key ∉ metadataKeys)
      (ht : s.tree.at? [.field key, .item i] = some t) (hnode : t.isNode = true) :
      Holds s key ⟨s.place ++ [.field key, .item i], t⟩

/-- From `s` one gets to `x`, each time to a node that a field of the last one holds. -/
inductive Reached (s : Spot) : Spot → Prop
  | start : Reached s s
  | step {p c : Spot} {key : String} (hp : Reached s p) (hc : p.Holds key c) : Reached s c

variable {s c x : Spot} {key : String}

theorem mem_children_iff_holds (hs : s.tree.hasDistinctKeys = true) :
    (c, key) ∈ s.children ↔ s.Holds key c := by
  rw [mem_children]
  constructor
  · rintro ⟨fields, value, htree, hmem, hkey, hc⟩
    have hfield : s.tree.field? key = some value := by
      rw [htree] at hs ⊢
      exact Tree.lookup_of_mem (Tree.hasDistinctKeys_object.mp hs).1 hmem
    obtain ⟨hnode, rfl | ⟨items, i, rfl, hi, hplace⟩⟩ := mem_fieldNodes.mp hc
    · exact .value hkey (by simp [Tree.at?_field, hfield]) hnode
    · obtain ⟨place, tree⟩ := c
      obtain rfl : place = s.place ++ [.field key, .item i] := hplace
      exact .item hkey (by simp [Tree.at?_field, Tree.at?_item, hfield, hi]) hnode
  · intro h
    cases h with
    | value hkey ht hnode =>
      obtain ⟨value, hfield, hrest⟩ := Option.bind_eq_some_iff.mp (Tree.at?_field _ _ _ ▸ ht)
      obtain ⟨fields, htree, hmem⟩ := Tree.mem_of_at?_field hfield
      obtain rfl := Option.some.inj ((Tree.at?_nil value).symm.trans hrest)
      exact ⟨fields, value, htree, hmem, hkey, mem_fieldNodes.mpr ⟨hnode, .inl rfl⟩⟩
    | @item t i hkey ht hnode =>
      obtain ⟨value, hfield, hrest⟩ := Option.bind_eq_some_iff.mp (Tree.at?_field _ _ _ ▸ ht)
      obtain ⟨fields, htree, hmem⟩ := Tree.mem_of_at?_field hfield
      cases value with
      | list items =>
        have hi : items[i]? = some t := by simpa [Tree.at?_item] using hrest
        exact ⟨fields, _, htree, hmem, hkey,
          mem_fieldNodes.mpr ⟨hnode, .inr ⟨items, i, rfl, hi, rfl⟩⟩⟩
      | _ => simp [Tree.at?] at hrest

theorem Holds.hasDistinctKeys (h : s.Holds key c) (hs : s.tree.hasDistinctKeys = true) :
    c.tree.hasDistinctKeys = true := by
  cases h with
  | value _ ht _ => exact Tree.hasDistinctKeys_at hs ht
  | item _ ht _ => exact Tree.hasDistinctKeys_at hs ht

theorem Reached.hasDistinctKeys (h : s.Reached x) (hs : s.tree.hasDistinctKeys = true) :
    x.tree.hasDistinctKeys = true := by
  induction h with
  | start => exact hs
  | step _ hc ih => exact hc.hasDistinctKeys ih

/-- A walk gets to the spots that are reached. -/
theorem within_iff_reached (hs : s.tree.hasDistinctKeys = true) : s.Within x ↔ s.Reached x := by
  constructor
  · intro h
    induction h with
    | refl => exact .start
    | tail _ hchild ih =>
      obtain ⟨key, hc⟩ := hchild
      exact .step ih ((mem_children_iff_holds (ih.hasDistinctKeys hs)).mp hc)
  · intro h
    induction h with
    | start => exact .refl
    | step hp hc ih =>
      exact ih.tail ⟨_, (mem_children_iff_holds (hp.hasDistinctKeys hs)).mpr hc⟩

end Spot

/-- A walk visits its start, and each node that a spot it reaches holds: with that spot's tree as
the parent, under the field that holds it. -/
theorem mem_walk_iff_holds {s : Spot} (hs : s.tree.hasDistinctKeys = true) {v : Visit} :
    v ∈ walk s ↔ v = ⟨s, none, none⟩ ∨ ∃ p key, s.Reached p ∧ p.Holds key v.spot ∧
      v.parent = some p.tree ∧ v.key = some key := by
  rw [mem_walk]
  constructor
  · rintro (h | ⟨p, hp, hv⟩)
    · exact .inl h
    · obtain ⟨hparent, key, hkey, hc⟩ := Spot.mem_visits.mp hv
      have hreach := (Spot.within_iff_reached hs).mp hp
      have hholds := (Spot.mem_children_iff_holds (hreach.hasDistinctKeys hs)).mp hc
      exact .inr ⟨p, key, hreach, hholds, hparent, hkey⟩
  · rintro (h | ⟨p, key, hreach, hholds, hparent, hkey⟩)
    · exact .inl h
    · have hc := (Spot.mem_children_iff_holds (hreach.hasDistinctKeys hs)).mpr hholds
      exact .inr ⟨p, (Spot.within_iff_reached hs).mpr hreach,
        Spot.mem_visits.mpr ⟨hparent, key, hkey, hc⟩⟩

/-! ## Once and in order -/

/-- No place is visited twice. -/
theorem Visit.nodup_places {v : Visit} (h : v.spot.tree.hasDistinctKeys = true) :
    (v.preorder.map fun w => w.spot.place).Nodup := by
  induction v using Visit.preorder.induct with
  | case1 v ih =>
    have hchild {u : Visit} (hu : u ∈ v.spot.visits) : ∃ key, (u.spot, key) ∈ v.spot.children := by
      obtain ⟨-, key, -, hc⟩ := Spot.mem_visits.mp hu
      exact ⟨key, hc⟩
    rw [Visit.preorder_eq, List.map_cons, List.nodup_cons, List.map_flatMap, List.nodup_flatMap]
    refine ⟨fun hmem => ?_, fun u hu => ?_, ?_⟩
    · -- every other place is that of a child or below it, and a child's place is longer
      obtain ⟨u, hu, hplace⟩ := List.mem_flatMap.mp hmem
      obtain ⟨w, hw, hplace⟩ := List.mem_map.mp hplace
      have hle := (place_prefix_of_mem_preorder hw).length_le
      have hlt := Spot.Child.length_lt (hchild hu)
      rw [hplace] at hle
      omega
    · obtain ⟨key, hc⟩ := hchild hu
      exact ih ⟨u, hu⟩ (((Spot.mem_children_iff_holds h).mp hc).hasDistinctKeys h)
    · -- two children are apart, and so is what they lead to
      refine (Spot.visits_pairwise h).imp fun {a b} hapart => ?_
      intro place ha hb
      obtain ⟨x, hx, rfl⟩ := List.mem_map.mp ha
      obtain ⟨y, hy, hxy⟩ := List.mem_map.mp hb
      have hax := place_prefix_of_mem_preorder hx
      have hby := place_prefix_of_mem_preorder hy
      rw [hxy] at hby
      exact (hapart.below hax).2 hby

theorem visits_sublist_walk {s : Spot} {u : Visit} (h : u ∈ walk s) :
    (u :: u.spot.visits).Sublist (walk s) := by
  rw [walk_eq_preorder] at h ⊢
  refine List.Sublist.trans ?_ (Visit.preorder_infix_of_mem h).sublist
  rw [Visit.preorder_eq]
  exact (Visit.sublist_flatMap_preorder _).cons_cons u

/-- A walk from an object is the preorder recursion over its child nodes, and ends within as many
turns as the tree has lists and objects. It visits the start and every node that is reached from it,
no other and none twice, with the node's own parent and field. A node comes before its children, and
these come in their order. The descendants are the nodes of the same sequence, but for the first. -/
theorem walk_isPreorder {s : Spot} (hobject : s.tree.isObject = true)
    (hkeys : s.tree.hasDistinctKeys = true) :
    walk s = Visit.preorder ⟨s, none, none⟩ ∧
    (walk s).length ≤ s.tree.weight ∧
    ((walk s).map fun v => v.spot.place).Nodup ∧
    (∀ v, v ∈ walk s ↔ v = ⟨s, none, none⟩ ∨ ∃ p key, s.Reached p ∧ p.Holds key v.spot ∧
      v.parent = some p.tree ∧ v.key = some key) ∧
    (∀ u ∈ walk s, (u :: u.spot.visits).Sublist (walk s)) ∧
    descendants s = .ok ((Visit.preorder ⟨s, none, none⟩).tail.map Visit.spot) := by
  have hwalk := walk_eq_preorder s
  refine ⟨hwalk, length_walk_le hobject, ?_, fun v => mem_walk_iff_holds hkeys,
    fun u => visits_sublist_walk, ?_⟩
  · rw [hwalk]
    exact Visit.nodup_places hkeys
  · rw [descendants, if_pos hobject, hwalk]

/-- A node that holds others directly, in a list beside a value that is no node, and as metadata. -/
def scatteredNode : Tree :=
  .object [("type", .text "Program"),
    ("body", .list [
      .object [("type", .text "ReturnStatement"), ("argument", .object [("type", .null)])],
      .text "between", .object [("type", .text "EmptyStatement")]]),
    ("loc", .object [("type", .text "SourceLocation")]),
    ("directive", .object [("type", .text "Directive")])]

theorem walk_isPreorder_scatteredNode :
    scatteredNode.isObject = true ∧ scatteredNode.hasDistinctKeys = true ∧
    walk (.root scatteredNode) = Visit.preorder ⟨.root scatteredNode, none, none⟩ ∧
    (walk (.root scatteredNode)).map (fun v => (v.spot.place, v.key)) =
      [([], none), ([.field "body", .item 0], some "body"),
        ([.field "body", .item 0, .field "argument"], some "argument"),
        ([.field "body", .item 2], some "body"), ([.field "directive"], some "directive")] ∧
    ((walk (.root scatteredNode)).map fun v => v.spot.place).Nodup ∧
    (∀ u ∈ walk (.root scatteredNode),
      (u :: u.spot.visits).Sublist (walk (.root scatteredNode))) := by
  have hobject : scatteredNode.isObject = true := by decide
  have hkeys : scatteredNode.hasDistinctKeys = true := by decide +kernel
  obtain ⟨hwalk, -, hnodup, -, horder, -⟩ :=
    walk_isPreorder hobject hkeys (s := .root scatteredNode)
  exact ⟨hobject, hkeys, hwalk, by decide +kernel, hnodup, horder⟩

end TopTag
