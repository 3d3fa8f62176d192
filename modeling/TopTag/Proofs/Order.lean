import TopTag.Proofs.Place

/-!
# The order of a walk

Two spots are *apart* when neither encloses the other. The pending visits of a walk are always
pairwise apart, so a walk never meets what encloses a spot after the spot itself.
-/

namespace TopTag

theorem not_prefix_of_step_ne {a b : Step} (h : a ≠ b) (place x y : Place) :
    ¬ place ++ a :: x <+: place ++ b :: y := by
  rw [List.prefix_append_right_inj, List.cons_prefix_cons]
  exact fun hp => h hp.1

namespace Spot

/-- Neither spot encloses the other. -/
def Apart (a b : Spot) : Prop := ¬ a.place <+: b.place ∧ ¬ b.place <+: a.place

theorem Child.place_prefix_place {s c : Spot} (h : Child s c) : s.place <+: c.place := by
  obtain ⟨key, hc | ⟨i, hc⟩⟩ := h.place <;> rw [hc] <;> exact List.prefix_append _ _

theorem Child.length_lt {s c : Spot} (h : Child s c) : s.place.length < c.place.length := by
  obtain ⟨key, hc | ⟨i, hc⟩⟩ := h.place <;> rw [hc, List.length_append] <;> simp

theorem Within.place_prefix_place {s x : Spot} (h : Within s x) : s.place <+: x.place := by
  induction h with
  | refl => exact List.prefix_refl _
  | tail _ hstep ih => exact ih.trans hstep.place_prefix_place

/-- What is below one of two spots apart is apart from the other. -/
theorem Apart.below {a b c : Spot} (h : Apart a b) (hc : a.place <+: c.place) : Apart c b := by
  refine ⟨fun hcb => h.1 (hc.trans hcb), fun hbc => ?_⟩
  rcases List.prefix_or_prefix_of_prefix hc hbc with hab | hba
  · exact h.1 hab
  · exact h.2 hba

end Spot

theorem nodeItems_pairwise (i : Nat) (items : List Tree) :
    (nodeItems i items).Pairwise fun a b => a.1 < b.1 := by
  induction items generalizing i with
  | nil => exact .nil
  | cons t rest ih =>
    rw [nodeItems]
    split
    · refine .cons ?_ (ih (i + 1))
      rintro ⟨j, u⟩ hu
      obtain ⟨-, k, rfl, -⟩ := mem_nodeItems.mp hu
      simp only
      omega
    · exact ih (i + 1)

theorem fieldNodes_pairwise (place : Place) (key : String) (value : Tree) :
    (fieldNodes place key value).Pairwise Spot.Apart := by
  cases value with
  | object fields =>
    rw [fieldNodes]
    split
    · exact List.pairwise_singleton ..
    · exact .nil
  | list items =>
    rw [fieldNodes, List.pairwise_map]
    refine (nodeItems_pairwise 0 items).imp ?_
    rintro ⟨i, _⟩ ⟨j, _⟩ hij
    have hne : Step.item i ≠ .item j := fun h => Nat.ne_of_lt hij (Step.item.inj h)
    have hplace (k : Nat) :
        place ++ [.field key, .item k] = (place ++ [.field key]) ++ [.item k] := by
      simp
    simp only [Spot.Apart, hplace]
    exact ⟨not_prefix_of_step_ne hne _ _ _, not_prefix_of_step_ne hne.symm _ _ _⟩
  | _ => exact .nil

theorem place_of_mem_fieldNodes {place : Place} {key : String} {value : Tree} {c : Spot}
    (h : c ∈ fieldNodes place key value) : ∃ rest, c.place = place ++ .field key :: rest := by
  obtain ⟨-, rfl | ⟨_, i, _, _, hp⟩⟩ := mem_fieldNodes.mp h
  · exact ⟨[], rfl⟩
  · exact ⟨[.item i], hp⟩

theorem fieldsNodes_pairwise (place : Place) {fields : List (String × Tree)}
    (h : (fields.map Prod.fst).Nodup) :
    (fieldsNodes place fields).Pairwise fun a b => a.1.Apart b.1 := by
  induction fields with
  | nil => exact .nil
  | cons f rest ih =>
    obtain ⟨key, value⟩ := f
    rw [List.map_cons, List.nodup_cons] at h
    rw [fieldsNodes]
    split
    · exact ih h.2
    · refine List.pairwise_append.mpr ⟨?_, ih h.2, ?_⟩
      · rw [List.pairwise_map]
        exact fieldNodes_pairwise place key value
      · rintro _ hmap ⟨d, k'⟩ hd
        obtain ⟨c, hc, rfl⟩ := List.mem_map.mp hmap
        obtain ⟨value', hmem, -, hd⟩ := mem_fieldsNodes.mp hd
        obtain ⟨x, hx⟩ := place_of_mem_fieldNodes hc
        obtain ⟨y, hy⟩ := place_of_mem_fieldNodes hd
        have hne : Step.field key ≠ .field k' := by
          intro hk
          cases hk
          exact h.1 (List.mem_map.mpr ⟨_, hmem, rfl⟩)
        simp only [Spot.Apart, hx, hy]
        exact ⟨not_prefix_of_step_ne hne _ _ _, not_prefix_of_step_ne hne.symm _ _ _⟩

namespace Spot

theorem children_pairwise {s : Spot} (h : s.tree.hasDistinctKeys = true) :
    s.children.Pairwise fun a b => a.1.Apart b.1 := by
  obtain ⟨place, tree⟩ := s
  cases tree with
  | object fields => exact fieldsNodes_pairwise place (Tree.hasDistinctKeys_object.mp h).1
  | _ => exact .nil

theorem visits_pairwise {s : Spot} (h : s.tree.hasDistinctKeys = true) :
    s.visits.Pairwise fun v w => v.spot.Apart w.spot := by
  rw [visits, List.pairwise_map]
  exact children_pairwise h

end Spot

/-- The spots of a walk from pending visits, and what they lead to. -/
theorem within_of_mem_walkFrom {v : Visit} {pending : List Visit} (h : v ∈ walkFrom pending) :
    ∃ u ∈ pending, u.spot.Within v.spot := by
  obtain ⟨u, hu, rfl | ⟨p, hp, hv⟩⟩ := mem_walkFrom.mp h
  · exact ⟨v, hu, .refl⟩
  · obtain ⟨-, key, -, hc⟩ := Spot.mem_visits.mp hv
    exact ⟨u, hu, hp.tail ⟨key, hc⟩⟩

theorem walkFrom_pairwise {t : Tree} (ht : t.hasDistinctKeys = true) {pending : List Visit}
    (hat : ∀ v ∈ pending, Spot.At t v.spot)
    (hpending : pending.Pairwise fun v w => v.spot.Apart w.spot) :
    (walkFrom pending).Pairwise fun v w => ¬ w.spot.place <+: v.spot.place := by
  fun_induction walkFrom pending with
  | case1 => exact .nil
  | case2 v rest ih =>
    have hv := hat v List.mem_cons_self
    obtain ⟨hapart, hrest⟩ := List.pairwise_cons.mp hpending
    have hchild : ∀ w ∈ v.spot.visits, v.spot.Child w.spot := by
      intro w hw
      obtain ⟨-, key, -, hc⟩ := Spot.mem_visits.mp hw
      exact ⟨key, hc⟩
    refine .cons ?_ (ih ?_ ?_)
    · -- a later spot is below a child, which is longer, or below a pending spot, which is apart
      intro w hw hle
      obtain ⟨u, hu, huw⟩ := within_of_mem_walkFrom hw
      have hpre := huw.place_prefix_place.trans hle
      rcases List.mem_append.mp hu with hu | hu
      · exact absurd hpre.length_le (Nat.not_le_of_lt (hchild u hu).length_lt)
      · exact (hapart u hu).2 hpre
    · intro w hw
      rcases List.mem_append.mp hw with hw | hw
      · exact hv.child ht (hchild w hw)
      · exact hat w (List.mem_cons_of_mem _ hw)
    · refine List.pairwise_append.mpr ⟨?_, hrest, ?_⟩
      · exact Spot.visits_pairwise (Tree.hasDistinctKeys_at ht hv)
      · exact fun w hw u hu => (hapart u hu).below (hchild w hw).place_prefix_place

/-- A walk meets no spot that encloses one it has met before. -/
theorem walk_pairwise {t : Tree} (ht : t.hasDistinctKeys = true) :
    (walk (Spot.root t)).Pairwise fun v w => ¬ w.spot.place <+: v.spot.place := by
  refine walkFrom_pairwise ht ?_ (List.pairwise_singleton ..)
  intro v hv
  rw [List.mem_singleton.mp hv]
  exact Spot.at_root t

end TopTag
