import Mathlib.Logic.Relation
import TopTag.Tree.Walk

/-!
# What a walk reaches

The child relation between spots, and the walk of a tree as its closure. A spot is *within* another
when a walk from there meets it, and *below* it when it is met after the start.
-/

namespace TopTag

namespace Spot

/-- `c` is a child node of `s`. -/
def Child (s c : Spot) : Prop := ∃ key, (c, key) ∈ s.children

/-- A walk from `s` meets `x`. -/
def Within : Spot → Spot → Prop := Relation.ReflTransGen Child

/-- A walk from `s` meets `x` after `s`. -/
def Below : Spot → Spot → Prop := Relation.TransGen Child

theorem Below.within {s x : Spot} (h : Below s x) : Within s x := h.to_reflTransGen

theorem Within.trans {s x y : Spot} (h : Within s x) (g : Within x y) : Within s y :=
  Relation.ReflTransGen.trans h g

end Spot

theorem mem_of_lookup {fields : List (String × Tree)} {key : String} {value : Tree}
    (h : fields.lookup key = some value) : (key, value) ∈ fields := by
  obtain ⟨before, after, rfl, -⟩ := List.lookup_eq_some_iff.mp h
  simp

theorem mem_nodeItems {i j : Nat} {items : List Tree} {t : Tree} :
    (j, t) ∈ nodeItems i items ↔ t.isNode = true ∧ ∃ k, j = i + k ∧ items[k]? = some t := by
  induction items generalizing i with
  | nil => simp [nodeItems]
  | cons a rest ih =>
    -- the first entry is the one at distance zero; the others are one step further away
    have shift : (∃ k, j = i + k ∧ (a :: rest)[k]? = some t) ↔
        (j = i ∧ a = t) ∨ ∃ k, j = i + 1 + k ∧ rest[k]? = some t := by
      constructor
      · rintro ⟨k, hj, hk⟩
        cases k with
        | zero => exact .inl ⟨hj, by simpa using hk⟩
        | succ k => exact .inr ⟨k, by omega, by simpa using hk⟩
      · rintro (⟨hj, ha⟩ | ⟨k, hj, hk⟩)
        · exact ⟨0, hj, by simp [ha]⟩
        · exact ⟨k + 1, by omega, by simpa using hk⟩
    rw [shift, nodeItems]
    split
    · rename_i ha
      rw [List.mem_cons, ih, Prod.mk.injEq]
      constructor
      · rintro (⟨rfl, rfl⟩ | ⟨ht, h⟩)
        · exact ⟨ha, .inl ⟨rfl, rfl⟩⟩
        · exact ⟨ht, .inr h⟩
      · rintro ⟨ht, ⟨rfl, rfl⟩ | h⟩
        · exact .inl ⟨rfl, rfl⟩
        · exact .inr ⟨ht, h⟩
    · rename_i ha
      rw [ih]
      constructor
      · rintro ⟨ht, h⟩
        exact ⟨ht, .inr h⟩
      · rintro ⟨ht, ⟨-, rfl⟩ | h⟩
        · exact absurd ht ha
        · exact ⟨ht, h⟩

/-- The nodes of a field are its value or the items of that list, each at its own place. -/
theorem mem_fieldNodes {place : Place} {key : String} {value : Tree} {c : Spot} :
    c ∈ fieldNodes place key value ↔ c.tree.isNode = true ∧
      (c = ⟨place ++ [.field key], value⟩ ∨
        ∃ items i, value = .list items ∧ items[i]? = some c.tree ∧
          c.place = place ++ [.field key, .item i]) := by
  obtain ⟨cplace, ctree⟩ := c
  cases value with
  | object fields =>
    rw [fieldNodes]
    split
    · rename_i h
      simp only [List.mem_singleton, reduceCtorEq, false_and, exists_false, or_false]
      constructor
      · intro hc
        cases hc
        exact ⟨h, rfl⟩
      · exact fun hc => hc.2
    · rename_i h
      simp only [List.not_mem_nil, reduceCtorEq, false_and, exists_false, or_false, false_iff,
        not_and]
      intro hn hc
      cases hc
      exact h hn
  | list items =>
    simp only [fieldNodes, List.mem_map, Prod.exists, mem_nodeItems, Nat.zero_add]
    constructor
    · rintro ⟨k, t, ⟨ht, _, rfl, hk⟩, hc⟩
      cases hc
      exact ⟨ht, .inr ⟨items, k, rfl, hk, rfl⟩⟩
    · rintro ⟨ht, hc | ⟨_, k, hv, hk, hp⟩⟩
      · cases hc
        simp [Tree.isNode, Tree.field?] at ht
      · cases hv
        exact ⟨k, ctree, ⟨ht, k, rfl, hk⟩, by rw [hp]⟩
  | _ =>
    simp only [fieldNodes, List.not_mem_nil, reduceCtorEq, false_and, exists_false, or_false,
      false_iff, not_and]
    intro hn hc
    cases hc
    simp [Tree.isNode, Tree.field?] at hn

theorem mem_fieldsNodes {place : Place} {fields : List (String × Tree)} {c : Spot} {key : String} :
    (c, key) ∈ fieldsNodes place fields ↔
      ∃ value, (key, value) ∈ fields ∧ key ∉ metadataKeys ∧ c ∈ fieldNodes place key value := by
  induction fields with
  | nil => simp [fieldsNodes]
  | cons f rest ih =>
    obtain ⟨k, v⟩ := f
    rw [fieldsNodes]
    split
    · rename_i hk
      rw [ih]
      constructor
      · rintro ⟨value, hmem, h⟩
        exact ⟨value, List.mem_cons_of_mem _ hmem, h⟩
      · rintro ⟨value, hmem, hkey, h⟩
        rcases List.mem_cons.mp hmem with heq | hmem
        · cases heq
          exact absurd (by simpa using hk) hkey
        · exact ⟨value, hmem, hkey, h⟩
    · rename_i hk
      rw [List.mem_append, ih, List.mem_map]
      constructor
      · rintro (⟨x, hx, heq⟩ | ⟨value, hmem, h⟩)
        · cases heq
          exact ⟨v, List.mem_cons_self, by simpa using hk, hx⟩
        · exact ⟨value, List.mem_cons_of_mem _ hmem, h⟩
      · rintro ⟨value, hmem, hkey, h⟩
        rcases List.mem_cons.mp hmem with heq | hmem
        · cases heq
          exact .inl ⟨c, h, rfl⟩
        · exact .inr ⟨value, hmem, hkey, h⟩

namespace Spot

theorem mem_children {s c : Spot} {key : String} :
    (c, key) ∈ s.children ↔ ∃ fields value, s.tree = .object fields ∧ (key, value) ∈ fields ∧
      key ∉ metadataKeys ∧ c ∈ fieldNodes s.place key value := by
  obtain ⟨place, tree⟩ := s
  cases tree <;> simp [children, mem_fieldsNodes]

theorem isNode_of_mem_children {s c : Spot} {key : String} (h : (c, key) ∈ s.children) :
    c.tree.isNode = true := by
  obtain ⟨_, _, _, _, _, hc⟩ := mem_children.mp h
  exact (mem_fieldNodes.mp hc).1

/-- A node that stands directly in a field is a child under that field. -/
theorem mem_children_get {s : Spot} {key : String} (hkey : key ∉ metadataKeys)
    (hn : (s.get key).tree.isNode = true) : (s.get key, key) ∈ s.children := by
  obtain ⟨place, tree⟩ := s
  cases tree with
  | object fields =>
    simp only [tree_get, Tree.get, Tree.field?] at hn
    cases hv : fields.lookup key with
    | none => simp [hv, Tree.isNode, Tree.field?] at hn
    | some value =>
      refine mem_children.mpr ⟨fields, value, rfl, mem_of_lookup hv, hkey, mem_fieldNodes.mpr ?_⟩
      refine ⟨by simpa [get, Tree.get, Tree.field?, hv] using hn, .inl ?_⟩
      simp [get, Tree.get, Tree.field?, hv]
  | _ => simp [Tree.get, Tree.field?, Tree.isNode] at hn

theorem child_get {s : Spot} {key : String} (hkey : key ∉ metadataKeys)
    (hn : (s.get key).tree.isNode = true) : Child s (s.get key) := ⟨key, mem_children_get hkey hn⟩

theorem mem_visits {s : Spot} {v : Visit} :
    v ∈ s.visits ↔
      v.parent = some s.tree ∧ ∃ key, v.key = some key ∧ (v.spot, key) ∈ s.children := by
  obtain ⟨spot, parent, key⟩ := v
  simp only [visits, List.mem_map, Prod.exists, Visit.mk.injEq]
  constructor
  · rintro ⟨c, k, hc, rfl, hp, hk⟩
    exact ⟨hp.symm, k, hk.symm, hc⟩
  · rintro ⟨hp, k, hk, hc⟩
    exact ⟨spot, k, hc, rfl, hp.symm, hk.symm⟩

end Spot

/-- The walk from some pending visits meets these and every child of a spot within one of them. -/
theorem mem_walkFrom {v : Visit} {pending : List Visit} :
    v ∈ walkFrom pending ↔
      ∃ u ∈ pending, v = u ∨ ∃ p, Spot.Within u.spot p ∧ v ∈ p.visits := by
  fun_induction walkFrom pending with
  | case1 => simp
  | case2 u pending ih =>
    rw [List.mem_cons, ih]
    constructor
    · rintro (rfl | ⟨w, hw, h⟩)
      · exact ⟨v, List.mem_cons_self, .inl rfl⟩
      · rcases List.mem_append.mp hw with hw | hw
        · refine ⟨u, List.mem_cons_self, .inr ?_⟩
          rcases h with rfl | ⟨p, hp, hv⟩
          · exact ⟨u.spot, .refl, hw⟩
          · obtain ⟨-, key, -, hc⟩ := Spot.mem_visits.mp hw
            exact ⟨p, .head ⟨key, hc⟩ hp, hv⟩
        · exact ⟨w, List.mem_cons_of_mem _ hw, h⟩
    · rintro ⟨w, hw, h⟩
      rcases List.mem_cons.mp hw with rfl | hw
      · rcases h with rfl | ⟨p, hp, hv⟩
        · exact .inl rfl
        · right
          rcases hp.cases_head with rfl | ⟨c, ⟨key, hc⟩, hp⟩
          · exact ⟨v, List.mem_append_left _ hv, .inl rfl⟩
          · have hw : (⟨c, some w.spot.tree, some key⟩ : Visit) ∈ w.spot.visits :=
              Spot.mem_visits.mpr ⟨rfl, key, rfl, hc⟩
            exact ⟨_, List.mem_append_left _ hw, .inr ⟨p, hp, hv⟩⟩
      · exact .inr ⟨w, List.mem_append_right _ hw, h⟩

theorem mem_walk {v : Visit} {s : Spot} :
    v ∈ walk s ↔ v = ⟨s, none, none⟩ ∨ ∃ p, Spot.Within s p ∧ v ∈ p.visits := by
  simp [walk, mem_walkFrom]

/-- A walk visits exactly the spots within its start. -/
theorem exists_mem_walk {s x : Spot} : (∃ v ∈ walk s, v.spot = x) ↔ Spot.Within s x := by
  simp only [mem_walk]
  constructor
  · rintro ⟨v, rfl | ⟨p, hp, hv⟩, rfl⟩
    · exact .refl
    · obtain ⟨-, key, -, hc⟩ := Spot.mem_visits.mp hv
      exact hp.tail ⟨key, hc⟩
  · intro h
    rcases h.cases_tail with rfl | ⟨p, hp, key, hc⟩
    · exact ⟨_, .inl rfl, rfl⟩
    · exact ⟨⟨x, some p.tree, some key⟩, .inr ⟨p, hp, Spot.mem_visits.mpr ⟨rfl, key, rfl, hc⟩⟩, rfl⟩

theorem mem_map_walk {s x : Spot} : x ∈ (walk s).map Visit.spot ↔ Spot.Within s x :=
  List.mem_map.trans exists_mem_walk

theorem walk_eq_cons (s : Spot) : walk s = ⟨s, none, none⟩ :: walkFrom s.visits := by
  rw [walk, walkFrom, List.append_nil]

/-- The descendants of an object are the spots below it. -/
theorem mem_descendants {s x : Spot} {nodes : List Spot} (h : descendants s = .ok nodes) :
    x ∈ nodes ↔ Spot.Below s x := by
  rw [descendants] at h
  split at h
  · cases h
    rw [walk_eq_cons, List.tail_cons, List.mem_map]
    simp only [mem_walkFrom]
    constructor
    · rintro ⟨v, ⟨u, hu, hv⟩, rfl⟩
      obtain ⟨-, key, -, hc⟩ := Spot.mem_visits.mp hu
      rcases hv with rfl | ⟨p, hp, hv⟩
      · exact .single ⟨key, hc⟩
      · obtain ⟨-, key', -, hc'⟩ := Spot.mem_visits.mp hv
        exact Relation.TransGen.head' ⟨key, hc⟩ (hp.tail ⟨key', hc'⟩)
    · intro hb
      obtain ⟨c, ⟨key, hc⟩, hx⟩ := Relation.TransGen.head'_iff.mp hb
      have hu : (⟨c, some s.tree, some key⟩ : Visit) ∈ s.visits :=
        Spot.mem_visits.mpr ⟨rfl, key, rfl, hc⟩
      rcases hx.cases_tail with rfl | ⟨p, hp, key', hc'⟩
      · exact ⟨_, ⟨_, hu, .inl rfl⟩, rfl⟩
      · exact ⟨⟨x, some p.tree, some key'⟩,
          ⟨_, hu, .inr ⟨p, hp, Spot.mem_visits.mpr ⟨rfl, key', rfl, hc'⟩⟩⟩, rfl⟩
  · cases h

end TopTag
