import TopTag.Proofs.Reach

/-!
# Places determine spots

A dictionary has no key twice. In a tree of such objects the path to a value leads back to it, so a
spot met on a walk is known by its place, and a node has one parent.
-/

namespace TopTag

namespace Tree

mutual

/-- No object in the tree has a key twice. -/
def hasDistinctKeys : Tree → Bool
  | .list items => hasDistinctKeysItems items
  | .object fields => decide (fields.map Prod.fst).Nodup && hasDistinctKeysFields fields
  | _ => true

def hasDistinctKeysItems : List Tree → Bool
  | [] => true
  | t :: rest => hasDistinctKeys t && hasDistinctKeysItems rest

def hasDistinctKeysFields : List (String × Tree) → Bool
  | [] => true
  | (_, t) :: rest => hasDistinctKeys t && hasDistinctKeysFields rest

end

theorem hasDistinctKeysItems_iff {items : List Tree} :
    hasDistinctKeysItems items = true ↔ ∀ t ∈ items, t.hasDistinctKeys = true := by
  induction items with
  | nil => simp [hasDistinctKeysItems]
  | cons t rest ih => simp [hasDistinctKeysItems, ih]

theorem hasDistinctKeysFields_iff {fields : List (String × Tree)} :
    hasDistinctKeysFields fields = true ↔ ∀ f ∈ fields, f.2.hasDistinctKeys = true := by
  induction fields with
  | nil => simp [hasDistinctKeysFields]
  | cons f rest ih => simp [hasDistinctKeysFields, ih]

theorem hasDistinctKeys_list {items : List Tree} :
    (Tree.list items).hasDistinctKeys = true ↔ ∀ t ∈ items, t.hasDistinctKeys = true := by
  rw [hasDistinctKeys, hasDistinctKeysItems_iff]

theorem hasDistinctKeys_object {fields : List (String × Tree)} :
    (Tree.object fields).hasDistinctKeys = true ↔
      (fields.map Prod.fst).Nodup ∧ ∀ f ∈ fields, f.2.hasDistinctKeys = true := by
  rw [hasDistinctKeys, Bool.and_eq_true, decide_eq_true_iff, hasDistinctKeysFields_iff]

theorem lookup_of_mem {fields : List (String × Tree)} (hnd : (fields.map Prod.fst).Nodup)
    {key : String} {value : Tree} (h : (key, value) ∈ fields) :
    fields.lookup key = some value := by
  induction fields with
  | nil => cases h
  | cons f rest ih =>
    rw [List.map_cons, List.nodup_cons] at hnd
    rcases List.mem_cons.mp h with rfl | h
    · exact List.lookup_cons_self
    · have hne : (key == f.1) = false := by
        rw [beq_eq_false_iff_ne]
        rintro rfl
        exact hnd.1 (List.mem_map.mpr ⟨_, h, rfl⟩)
      rw [List.lookup_cons, hne]
      exact ih hnd.2 h

@[simp] theorem at?_nil (t : Tree) : t.at? [] = some t := by
  rw [at?]

theorem at?_field (t : Tree) (key : String) (rest : Place) :
    t.at? (.field key :: rest) = (t.field? key).bind (·.at? rest) := by
  rw [at?]

theorem at?_item (items : List Tree) (i : Nat) (rest : Place) :
    (Tree.list items).at? (.item i :: rest) = items[i]?.bind (·.at? rest) := by
  rw [at?]

theorem at?_append (t : Tree) (p q : Place) : t.at? (p ++ q) = (t.at? p).bind (·.at? q) := by
  fun_induction at? t p with
  | case1 t => rfl
  | case2 t key rest ih =>
    rw [List.cons_append, at?_field, Option.bind_assoc]
    congr 1
    funext u
    exact ih u
  | case3 items i rest ih =>
    rw [List.cons_append, at?_item, Option.bind_assoc]
    congr 1
    funext u
    exact ih u
  | case4 t i rest h =>
    cases t with
    | list items => exact absurd rfl (h items)
    | _ => simp [at?]

theorem mem_of_at?_field {t u : Tree} {key : String} (h : t.field? key = some u) :
    ∃ fields, t = .object fields ∧ (key, u) ∈ fields := by
  cases t with
  | object fields => exact ⟨fields, rfl, mem_of_lookup h⟩
  | _ => cases h

theorem hasDistinctKeys_at {t u : Tree} {p : Place} (ht : t.hasDistinctKeys = true)
    (h : t.at? p = some u) : u.hasDistinctKeys = true := by
  fun_induction at? t p with
  | case1 t =>
    cases h
    exact ht
  | case2 t key rest ih =>
    obtain ⟨v, hv, hu⟩ := Option.bind_eq_some_iff.mp h
    obtain ⟨fields, rfl, hmem⟩ := mem_of_at?_field hv
    exact ih v ((hasDistinctKeys_object.mp ht).2 _ hmem) hu
  | case3 items i rest ih =>
    obtain ⟨v, hv, hu⟩ := Option.bind_eq_some_iff.mp h
    exact ih v (hasDistinctKeys_list.mp ht v (List.mem_of_getElem? hv)) hu
  | case4 => cases h

end Tree

namespace Spot

/-- The spot is what the tree has at the spot's place. -/
def At (t : Tree) (s : Spot) : Prop := t.at? s.place = some s.tree

theorem at_root (t : Tree) : At t (root t) := Tree.at?_nil t

theorem At.unique {t : Tree} {a b : Spot} (ha : At t a) (hb : At t b) (h : a.place = b.place) :
    a = b := by
  obtain ⟨place, tree⟩ := a
  obtain ⟨place', tree'⟩ := b
  simp only at h
  subst h
  have heq : some tree = some tree' := ha.symm.trans hb
  cases heq
  rfl

theorem identity_of_isObject {s : Spot} (h : s.tree.isObject = true) :
    s.identity = .place s.place := by
  rw [identity]
  split
  · rename_i htree
    rw [htree] at h
    cases h
  · rename_i htree
    rw [htree] at h
    cases h
  · rfl

theorem place_of_identity {s : Spot} {p : Place} (h : s.identity = .place p) : s.place = p := by
  rw [identity] at h
  split at h <;> cases h
  rfl

/-- The place of a child is one or two steps behind the place of its parent. -/
theorem Child.place {s c : Spot} (h : Child s c) :
    ∃ key, c.place = s.place ++ [.field key] ∨ ∃ i, c.place = s.place ++ [.field key, .item i] := by
  obtain ⟨key, hc⟩ := h
  obtain ⟨_, _, _, _, _, hnode⟩ := mem_children.mp hc
  obtain ⟨_, rfl | ⟨_, i, _, _, hp⟩⟩ := mem_fieldNodes.mp hnode
  · exact ⟨key, .inl rfl⟩
  · exact ⟨key, .inr ⟨i, hp⟩⟩

variable {t : Tree}

theorem At.child (ht : t.hasDistinctKeys = true) {s c : Spot} (hs : At t s) (h : Child s c) :
    At t c := by
  obtain ⟨key, hc⟩ := h
  obtain ⟨fields, value, htree, hmem, -, hnode⟩ := mem_children.mp hc
  have hkeys := Tree.hasDistinctKeys_at ht hs
  rw [htree, Tree.hasDistinctKeys_object] at hkeys
  have hfield : s.tree.field? key = some value := by
    rw [htree]
    exact Tree.lookup_of_mem hkeys.1 hmem
  rw [At] at hs
  obtain ⟨-, rfl | ⟨items, i, rfl, hi, hp⟩⟩ := mem_fieldNodes.mp hnode
  · simp [At, Tree.at?_append, hs, Tree.at?_field, hfield]
  · simp [At, hp, Tree.at?_append, hs, Tree.at?_field, hfield, Tree.at?_item, hi]

theorem At.within (ht : t.hasDistinctKeys = true) {s x : Spot} (hs : At t s) (h : Within s x) :
    At t x := by
  induction h with
  | refl => exact hs
  | tail _ hstep ih => exact ih.child ht hstep

/-- A node has one parent. -/
theorem Child.parent_unique {p q c : Spot} (hp : At t p) (hq : At t q) (hpc : Child p c)
    (hqc : Child q c) : p = q := by
  refine hp.unique hq ?_
  obtain ⟨k, hk | ⟨i, hk⟩⟩ := hpc.place <;> obtain ⟨k', hk' | ⟨i', hk'⟩⟩ := hqc.place <;>
    rw [hk] at hk'
  · exact (List.append_inj' hk' rfl).1
  -- a place that ends at a field does not end at an item
  · simpa using congrArg List.getLast? hk'
  · simpa using congrArg List.getLast? hk'
  · exact (List.append_inj' hk' rfl).1

/-- What is below `a` and a child of `p` is within `a` already at `p`. -/
theorem Below.within_parent (ht : t.hasDistinctKeys = true) {a p b : Spot} (ha : At t a)
    (hp : At t p) (hab : Below a b) (hpb : Child p b) : Within a p := by
  obtain ⟨q, haq, hqb⟩ := Relation.TransGen.tail'_iff.mp hab
  exact hqb.parent_unique (ha.within ht haq) hp hpb ▸ haq

end Spot

end TopTag
