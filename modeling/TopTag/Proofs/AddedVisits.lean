import TopTag.Proofs.Additions

/-!
# Walking through added attributes

A walk through a tree with attributes added makes the visits of the tree itself, and between them
the visits of the added attributes and of their two parts.
-/

namespace TopTag

/-- `bs` is `as`, entry for entry in the relation `rel`, with further entries that are `extra` put
in between. -/
inductive Padded {α β : Type} (extra : β → Prop) (rel : α → β → Prop) : List α → List β → Prop
  | nil : Padded extra rel [] []
  | pad {b : β} {as : List α} {bs : List β} (hb : extra b) (h : Padded extra rel as bs) :
      Padded extra rel as (b :: bs)
  | keep {a : α} {b : β} {as : List α} {bs : List β} (hab : rel a b) (h : Padded extra rel as bs) :
      Padded extra rel (a :: as) (b :: bs)

namespace Padded

variable {α β γ δ : Type} {extra : β → Prop} {rel : α → β → Prop}

theorem of_forall {bs : List β} (h : ∀ b ∈ bs, extra b) : Padded extra rel [] bs := by
  induction bs with
  | nil => exact .nil
  | cons b bs ih =>
    exact .pad (h b List.mem_cons_self) (ih fun c hc => h c (List.mem_cons_of_mem _ hc))

theorem of_map {f : α → β} (h : ∀ a, rel a (f a)) (as : List α) :
    Padded extra rel as (as.map f) := by
  induction as with
  | nil => exact .nil
  | cons a as ih => exact .keep (h a) ih

theorem append {as as' : List α} {bs bs' : List β} (h : Padded extra rel as bs)
    (h' : Padded extra rel as' bs') : Padded extra rel (as ++ as') (bs ++ bs') := by
  induction h with
  | nil => exact h'
  | pad hb _ ih => exact .pad hb ih
  | keep hab _ ih => exact .keep hab ih

theorem map {extra' : δ → Prop} {rel' : γ → δ → Prop} {f : α → γ} {g : β → δ} {as : List α}
    {bs : List β} (h : Padded extra rel as bs) (hextra : ∀ b, extra b → extra' (g b))
    (hrel : ∀ a b, rel a b → rel' (f a) (g b)) : Padded extra' rel' (as.map f) (bs.map g) := by
  induction h with
  | nil => exact .nil
  | pad hb _ ih => exact .pad (hextra _ hb) ih
  | keep hab _ ih => exact .keep (hrel _ _ hab) ih

theorem comap {f : γ → α} {cs : List γ} {bs : List β} (h : Padded extra rel (cs.map f) bs) :
    Padded extra (fun c b => rel (f c) b) cs bs := by
  generalize has : cs.map f = as at h
  induction h generalizing cs with
  | nil =>
    obtain rfl := List.map_eq_nil_iff.mp has
    exact .nil
  | pad hb _ ih => exact .pad hb (ih has)
  | keep hab _ ih =>
    obtain ⟨c, rest, rfl, rfl, rfl⟩ := List.map_eq_cons_iff.mp has
    exact .keep hab (ih rfl)

/-- A loop that does nothing at the extra entries is the loop without them. -/
theorem forM_eq {m : Type → Type} [Monad m] [LawfulMonad m] {as : List α} {bs : List β}
    {f : α → m Unit} {g : β → m Unit} (h : Padded extra rel as bs)
    (hextra : ∀ b, extra b → g b = pure ()) (hrel : ∀ a b, rel a b → g b = f a) :
    bs.forM g = as.forM f := by
  induction h with
  | nil => rfl
  | pad hb _ ih =>
    change (g _ >>= fun _ => List.forM _ g) = _
    rw [hextra _ hb, pure_bind, ih]
  | keep hab _ ih =>
    change (g _ >>= fun _ => List.forM _ g) = (f _ >>= fun _ => List.forM _ f)
    rw [hrel _ _ hab, ih]

theorem foldlM_eq {m : Type → Type} [Monad m] [LawfulMonad m] {as : List α} {bs : List β}
    {f : γ → α → m γ} {g : γ → β → m γ} (h : Padded extra rel as bs)
    (hextra : ∀ b c, extra b → g c b = pure c) (hrel : ∀ a b c, rel a b → g c b = f c a) (c : γ) :
    bs.foldlM g c = as.foldlM f c := by
  induction h generalizing c with
  | nil => rfl
  | pad hb _ ih => rw [List.foldlM_cons, hextra _ _ hb, pure_bind, ih]
  | keep hab _ ih =>
    rw [List.foldlM_cons, List.foldlM_cons, hrel _ _ _ hab]
    congr 1
    funext d
    exact ih d

end Padded

/-! ## Added attributes -/

/-- The children of a part are parts. -/
theorem Tree.IsAttributePart.children {s c : Spot} {key : String} (h : s.tree.IsAttributePart)
    (hc : (c, key) ∈ s.children) : c.tree.IsAttributePart := by
  obtain ⟨place, tree⟩ := s
  cases h with
  | whole n v =>
    change (c, key) ∈
      [(⟨place ++ [.field "name"],
        .object [("type", .text "JSXIdentifier"), ("name", .text n)]⟩, "name"),
      (⟨place ++ [.field "value"],
        .object [("type", .text "StringLiteral"), ("value", .text v)]⟩, "value")] at hc
    simp only [List.mem_cons, Prod.mk.injEq, List.not_mem_nil, or_false] at hc
    rcases hc with ⟨rfl, -⟩ | ⟨rfl, -⟩
    · exact .name n
    · exact .value v
  | name n => exact absurd hc List.not_mem_nil
  | value v => exact absurd hc List.not_mem_nil

/-! ## Children -/

namespace Spot

/-- The spot in the tree with attributes added. -/
def withAttributes (added : Additions) (s : Spot) : Spot :=
  ⟨s.place, s.tree.withAttributes added s.place⟩

end Spot

variable (added : Additions)

theorem nodeItems_withAttributes (place : Place) (i : Nat) (items : List Tree) :
    nodeItems i (Tree.withAttributesItems added place i items) =
      (nodeItems i items).map fun p => (p.1, p.2.withAttributes added (place ++ [.item p.1])) := by
  induction items generalizing i with
  | nil => rfl
  | cons t rest ih =>
    rw [Tree.withAttributesItems, nodeItems, nodeItems, Tree.isNode_withAttributes, ih]
    split <;> rfl

theorem fieldNodes_withAttributes (place : Place) (key : String) (value : Tree) :
    fieldNodes place key (value.withAttributes added (place ++ [.field key])) =
      (fieldNodes place key value).map (Spot.withAttributes added) := by
  cases value with
  | object fields =>
    have hnode := Tree.isNode_withAttributes added (place ++ [.field key]) (.object fields)
    rw [Tree.withAttributes] at hnode ⊢
    rw [fieldNodes, fieldNodes, hnode]
    split
    · simp [Spot.withAttributes, Tree.withAttributes]
    · rfl
  | list items =>
    rw [Tree.withAttributes, fieldNodes, fieldNodes, nodeItems_withAttributes]
    simp [Spot.withAttributes, Function.comp_def]
  | _ => rfl

theorem fieldsNodes_withAttributes (place : Place) (fields : List (String × Tree)) :
    fieldsNodes place (Tree.withAttributesFields added place fields) =
      (fieldsNodes place fields).map fun c => (c.1.withAttributes added, c.2) := by
  induction fields with
  | nil => rfl
  | cons f rest ih =>
    obtain ⟨key, value⟩ := f
    rw [Tree.withAttributesFields, fieldsNodes, fieldsNodes, ih, fieldNodes_withAttributes]
    split
    · rfl
    · simp

theorem nodeItems_append (i : Nat) (as bs : List Tree) :
    nodeItems i (as ++ bs) = nodeItems i as ++ nodeItems (i + as.length) bs := by
  induction as generalizing i with
  | nil => rfl
  | cons a as ih =>
    have hlen : i + (a :: as).length = i + 1 + as.length := by
      rw [List.length_cons]
      omega
    rw [List.cons_append, nodeItems, nodeItems, ih, hlen]
    split <;> rfl

theorem fieldsNodes_append (place : Place) (as bs : List (String × Tree)) :
    fieldsNodes place (as ++ bs) = fieldsNodes place as ++ fieldsNodes place bs := by
  induction as with
  | nil => rfl
  | cons a as ih =>
    obtain ⟨key, value⟩ := a
    rw [List.cons_append, fieldsNodes, fieldsNodes, ih]
    split
    · rfl
    · rw [List.append_assoc]

/-- The nodes of a list of attributes with more at its end. -/
theorem fieldNodes_list_append (place : Place) (key : String) (items as : List Tree) :
    ∃ more,
      fieldNodes place key (.list (items ++ as)) = fieldNodes place key (.list items) ++ more ∧
      ∀ c ∈ more, c.tree ∈ as := by
  refine ⟨_, by rw [fieldNodes, nodeItems_append, List.map_append, fieldNodes], fun c hc => ?_⟩
  obtain ⟨⟨i, t⟩, ht, rfl⟩ := List.mem_map.mp hc
  obtain ⟨-, k, -, hk⟩ := mem_nodeItems.mp ht
  exact List.mem_of_getElem? hk

/-- The children below some fields, and those of parts of attributes among them. -/
abbrev PaddedChildren : List (Spot × String) → List (Spot × String) → Prop :=
  Padded (fun c => c.1.tree.IsAttributePart) Eq

theorem PaddedChildren.refl (l : List (Spot × String)) : PaddedChildren l l := by
  simpa using Padded.of_map (f := id) (fun _ => rfl) l

theorem fieldsNodes_updateField (place : Place) {as items : List Tree}
    (has : ∀ a ∈ as, a.IsAttributePart) {fields : List (String × Tree)}
    (h : fields.lookup "attributes" = some (.list items)) :
    PaddedChildren (fieldsNodes place fields) (fieldsNodes place
      (Tree.updateField (fun _ => .list (items ++ as)) "attributes" fields)) := by
  induction fields with
  | nil => cases h
  | cons f rest ih =>
    obtain ⟨key, value⟩ := f
    by_cases hk : key = "attributes"
    · subst hk
      have hv : value = .list items := by simpa using h
      subst hv
      obtain ⟨more, hmore, hparts⟩ := fieldNodes_list_append place "attributes" items as
      have hnew : PaddedChildren [] (more.map (·, "attributes")) := by
        refine Padded.of_forall fun c hc => ?_
        obtain ⟨d, hd, rfl⟩ := List.mem_map.mp hc
        exact has _ (hparts d hd)
      have hmeta : metadataKeys.contains "attributes" = false := by decide
      simp only [Tree.updateField, fieldsNodes, hmeta, hmore, beq_self_eq_true, if_true,
        Bool.false_eq_true, if_false, List.map_append]
      simpa using ((PaddedChildren.refl _).append hnew).append
        (PaddedChildren.refl (fieldsNodes place rest))
    · have hne : ("attributes" == key) = false := by simpa using Ne.symm hk
      rw [List.lookup_cons, hne] at h
      simp only [Tree.updateField, beq_eq_false_iff_ne.mpr hk, Bool.false_eq_true, if_false,
        fieldsNodes]
      split
      · exact ih h
      · exact (PaddedChildren.refl _).append (ih h)

/-- More attributes at the end of a tag's list are more children of the tag. -/
theorem fieldsNodes_appendAttributes (place : Place) {as : List Tree}
    (has : ∀ a ∈ as, a.IsAttributePart) (fields : List (String × Tree)) :
    PaddedChildren (fieldsNodes place fields)
      (fieldsNodes place (Tree.appendAttributes as fields)) := by
  unfold Tree.appendAttributes
  split
  · exact .refl _
  · split
    · have hnew : ∀ c ∈ fieldsNodes place [("attributes", .list as)], c.1.tree.IsAttributePart := by
        rintro ⟨c, key⟩ hc
        obtain ⟨value, hv, -, hnode⟩ := mem_fieldsNodes.mp hc
        cases List.mem_singleton.mp hv
        obtain ⟨hn, rfl | ⟨items, i, hl, hi, -⟩⟩ := mem_fieldNodes.mp hnode
        · cases hn
        · cases hl
          exact has _ (List.mem_of_getElem? hi)
      rw [fieldsNodes_append]
      simpa using (PaddedChildren.refl (fieldsNodes place fields)).append (Padded.of_forall hnew)
    · exact fieldsNodes_updateField place has ‹_›
    · exact .refl _

/-- The children of a spot in the tree with attributes added. -/
theorem children_withAttributes (s : Spot) :
    Padded (fun c : Spot × String => c.1.tree.IsAttributePart)
      (fun c d => (c.1.withAttributes added, c.2) = d) s.children
      (s.withAttributes added).children := by
  obtain ⟨place, tree⟩ := s
  cases tree with
  | object fields =>
    have hchildren : PaddedChildren
        ((fieldsNodes place fields).map fun c => (c.1.withAttributes added, c.2))
        (Spot.withAttributes added ⟨place, .object fields⟩).children := by
      rw [← fieldsNodes_withAttributes]
      simp only [Spot.withAttributes, Tree.withAttributes, Spot.children]
      split
      · exact fieldsNodes_appendAttributes place (added.isAttributePart_nodes place) _
      · exact PaddedChildren.refl _
    exact hchildren.comap
  | _ => exact .nil

/-! ## Visits -/

/-- `v'` is the visit of `v` in the tree with attributes added. -/
def Visit.Follows (v v' : Visit) : Prop :=
  v'.spot = v.spot.withAttributes added ∧ v'.key = v.key ∧
    ∀ kind, v'.parent.any (·.isA kind) = v.parent.any (·.isA kind)

/-- The walk `vs'` makes the visits of `vs` with attributes added, and visits of the attributes. -/
abbrev PaddedVisits : List Visit → List Visit → Prop :=
  Padded (fun v => v.spot.tree.IsAttributePart) (Visit.Follows added)

theorem visits_isAttributePart {s : Spot} (h : s.tree.IsAttributePart) {v : Visit}
    (hv : v ∈ s.visits) : v.spot.tree.IsAttributePart := by
  obtain ⟨-, key, -, hc⟩ := Spot.mem_visits.mp hv
  exact h.children hc

theorem visits_withAttributes (s : Spot) :
    PaddedVisits added s.visits (s.withAttributes added).visits := by
  refine (children_withAttributes added s).map (fun _ h => h) ?_
  rintro ⟨c, key⟩ _ rfl
  exact ⟨rfl, rfl, fun kind => Tree.isA_withAttributes ..⟩

/-- One step of the walk takes both sides on; visits of attributes happen on one side only. -/
theorem walkFrom_withAttributes {pending pending' : List Visit}
    (h : PaddedVisits added pending pending') :
    PaddedVisits added (walkFrom pending) (walkFrom pending') := by
  fun_induction walkFrom pending' generalizing pending with
  | case1 =>
    cases h
    rw [walkFrom]
    exact .nil
  | case2 v' rest ih =>
    cases h with
    | pad hv h =>
      refine .pad hv (ih ?_)
      simpa using (Padded.of_forall fun v => visits_isAttributePart hv).append h
    | keep hv h =>
      rw [walkFrom]
      refine .keep hv (ih ?_)
      rw [hv.1]
      exact (visits_withAttributes added _).append h

theorem walk_withAttributes (s : Spot) :
    PaddedVisits added (walk s) (walk (s.withAttributes added)) :=
  walkFrom_withAttributes added (.keep ⟨rfl, rfl, fun _ => rfl⟩ .nil)

end TopTag
