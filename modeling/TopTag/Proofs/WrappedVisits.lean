import TopTag.Proofs.AddedVisits
import TopTag.Proofs.Wrapping
import TopTag.Topmost

/-!
# Walking through parentheses

A walk through a tree with parentheses put in makes the visits of the tree itself, and between them
visits of the parentheses. A node is visited below the parentheses around it, so the two walks do
not keep step: `Shadowed` relates what is pending on the one side to what is pending on the other,
with parentheses on top that are yet to be opened.
-/

namespace TopTag

namespace Spot

/-- `s'` is the spot `s` in the tree with parentheses put in. What is absent has no place there. -/
structure Mirrors (w : Layers) (s s' : Spot) : Prop where
  tree : s'.tree = s.tree.wrapped w s.place
  place : s.tree ≠ .null → s'.place = w.move s.place

theorem mirrors_root (w : Layers) (t : Tree) : Mirrors w (root t) (root (t.wrapped w [])) :=
  ⟨rfl, fun _ => rfl⟩

theorem unwrapParentheses_of_isParenthesized {s : Spot} (h : s.tree.isParenthesized = true) :
    s.unwrapParentheses = (s.get "expression").unwrapParentheses := by
  rw [unwrapParentheses, dif_pos h]

theorem unwrapParentheses_of_not {s : Spot} (h : ¬ s.tree.isParenthesized = true) :
    s.unwrapParentheses = s := by
  rw [unwrapParentheses, dif_neg h]

theorem unwrapConjunction_of_isConjunction {s : Spot} (h : s.tree.isConjunction = true) :
    s.unwrapConjunction = (s.get "right").unwrapParentheses.unwrapConjunction := by
  rw [unwrapConjunction, dif_pos h]

theorem unwrapConjunction_of_not {s : Spot} (h : ¬ s.tree.isConjunction = true) :
    s.unwrapConjunction = s := by
  rw [unwrapConjunction, dif_neg h]

theorem unwrapParentheses_enclosed (place : Place) (n : Nat) (t : Tree) :
    unwrapParentheses ⟨place, Tree.enclosed n t⟩ =
      unwrapParentheses ⟨place ++ List.replicate n (.field "expression"), t⟩ := by
  induction n generalizing place with
  | zero => simp [Tree.enclosed]
  | succ n ih =>
    have hinner : (⟨place, Tree.enclosed (n + 1) t⟩ : Spot).get "expression" =
        ⟨place ++ [.field "expression"], Tree.enclosed n t⟩ := rfl
    rw [unwrapParentheses_of_isParenthesized rfl, hinner, ih, List.append_assoc,
      List.replicate_succ]
    rfl

end Spot

namespace Spot.Mirrors

variable {w : Layers} {s s' : Spot}

theorem isA (h : Mirrors w s s') (kind : String) : s'.tree.isA kind = s.tree.isA kind := by
  rw [h.tree, Tree.isA_wrapped]

theorem isParenthesized (h : Mirrors w s s') : s'.tree.isParenthesized = s.tree.isParenthesized :=
  h.isA _

theorem isElement (h : Mirrors w s s') : s'.tree.isElement = s.tree.isElement := h.isA _

theorem isFragment (h : Mirrors w s s') : s'.tree.isFragment = s.tree.isFragment := h.isA _

theorem isConditional (h : Mirrors w s s') : s'.tree.isConditional = s.tree.isConditional := h.isA _

theorem isContainer (h : Mirrors w s s') : s'.tree.isContainer = s.tree.isContainer := h.isA _

theorem isConjunction (h : Mirrors w s s') : s'.tree.isConjunction = s.tree.isConjunction := by
  rw [h.tree, Tree.isConjunction_wrapped]

theorem isNode (h : Mirrors w s s') : s'.tree.isNode = s.tree.isNode := by
  rw [h.tree, Tree.isNode_wrapped]

theorem isObject (h : Mirrors w s s') : s'.tree.isObject = s.tree.isObject := by
  rw [h.tree, Tree.isObject_wrapped]

theorem place_of_isObject (h : Mirrors w s s') (hs : s.tree.isObject = true) :
    s'.place = w.move s.place := by
  apply h.place
  intro hnull
  rw [hnull] at hs
  cases hs

/-- A field outside the expressions is found under its key. -/
theorem get (h : Mirrors w s s') {key : String} (hkey : key ∉ expressionKeys) :
    Mirrors w (s.get key) (s'.get key) := by
  constructor
  · rw [tree_get, h.tree, Tree.get_wrapped_of_not_mem w s.place s.tree hkey]
    rfl
  · intro hvalue
    have hs : s.tree ≠ .null := by
      rintro hnull
      rw [tree_get, hnull] at hvalue
      exact hvalue rfl
    change s'.place ++ [.field key] = w.move (s.place ++ [.field key])
    rw [h.place hs, w.move_field_of_not_mem s.place hkey]

/-- A field of any key is found there too, once the parentheses around it are taken off. -/
theorem exists_get (h : Mirrors w s s') (key : String) :
    ∃ u, Mirrors w (s.get key) u ∧ (s'.get key).unwrapParentheses = u.unwrapParentheses := by
  have hfield := Tree.field?_wrapped w s.place s.tree key
  cases hv : s.tree.field? key with
  | none =>
    have hnull : (s.get key).tree = .null := by simp [Tree.get, hv]
    have hnull' : (s'.get key).tree = .null := by simp [h.tree, Tree.get, hfield, hv]
    refine ⟨s'.get key, ⟨?_, fun hne => absurd hnull hne⟩, rfl⟩
    rw [hnull, hnull']
    rfl
  | some v =>
    have hs : s.tree ≠ .null := by
      rintro hnull
      rw [hnull] at hv
      cases hv
    have hvalue : s.get key = ⟨s.place ++ [.field key], v⟩ := by
      simp [Spot.get, Tree.get, hv]
    have hvalue' : s'.get key = ⟨s'.place ++ [.field key],
        Tree.enclosed (w.around s.place key) (v.wrapped w (s.place ++ [.field key]))⟩ := by
      simp [Spot.get, h.tree, Tree.get, hfield, hv]
    refine ⟨⟨w.move (s.place ++ [.field key]), v.wrapped w (s.place ++ [.field key])⟩, ?_, ?_⟩
    · rw [hvalue]
      exact ⟨rfl, fun _ => rfl⟩
    · rw [hvalue', unwrapParentheses_enclosed, w.move_field, h.place hs, List.append_assoc]
      rfl

theorem unwrapParentheses (h : Mirrors w s s') :
    Mirrors w s.unwrapParentheses s'.unwrapParentheses := by
  fun_induction Spot.unwrapParentheses s generalizing s' with
  | case1 s hp ih =>
    obtain ⟨u, hu, heq⟩ := h.exists_get "expression"
    rw [unwrapParentheses_of_isParenthesized (h.isParenthesized.trans hp), heq]
    exact ih hu
  | case2 s hp =>
    rw [unwrapParentheses_of_not (by rwa [h.isParenthesized])]
    exact h

/-- What a field comes down to without its parentheses. -/
theorem unwrapParentheses_get (h : Mirrors w s s') (key : String) :
    Mirrors w (s.get key).unwrapParentheses (s'.get key).unwrapParentheses := by
  obtain ⟨u, hu, heq⟩ := h.exists_get key
  rw [heq]
  exact hu.unwrapParentheses

theorem unwrapConjunction (h : Mirrors w s s') :
    Mirrors w s.unwrapConjunction s'.unwrapConjunction := by
  fun_induction Spot.unwrapConjunction s generalizing s' with
  | case1 s hc ih =>
    rw [unwrapConjunction_of_isConjunction (h.isConjunction.trans hc)]
    exact ih (h.unwrapParentheses_get "right")
  | case2 s hc =>
    rw [unwrapConjunction_of_not (by rwa [h.isConjunction])]
    exact h

end Spot.Mirrors

/-! ## Visits -/

/-- `v'` visits in the tree with parentheses what `v` visits, and both or neither of them meet the
value of an attribute. -/
structure Visit.Mirrors (w : Layers) (v v' : Visit) : Prop where
  spot : Spot.Mirrors w v.spot v'.spot
  isAttributeValue : isAttributeValue v' = isAttributeValue v

/-- The visits `vs'` lead to what `vs` leads to, once the parentheses among them are opened. -/
inductive Shadowed (w : Layers) : List Visit → List Visit → Prop
  | nil : Shadowed w [] []
  | keep {v v' : Visit} {vs vs' : List Visit} (hv : Visit.Mirrors w v v') (h : Shadowed w vs vs') :
      Shadowed w (v :: vs) (v' :: vs')
  | layer {v' : Visit} {vs vs' : List Visit} (hv : v'.spot.tree.isParenthesized = true)
      (h : Shadowed w vs (v'.spot.visits ++ vs')) : Shadowed w vs (v' :: vs')

namespace Shadowed

variable {w : Layers}

theorem append {as as' bs bs' : List Visit} (ha : Shadowed w as as') (hb : Shadowed w bs bs') :
    Shadowed w (as ++ bs) (as' ++ bs') := by
  induction ha with
  | nil => exact hb
  | keep hv _ ih => exact .keep hv ih
  | layer hv _ ih =>
    apply Shadowed.layer hv
    rw [List.append_assoc] at ih
    exact ih

theorem of_map {α : Type} {f g : α → Visit} {l : List α}
    (h : ∀ a, Visit.Mirrors w (f a) (g a)) : Shadowed w (l.map f) (l.map g) := by
  induction l with
  | nil => exact .nil
  | cons a l ih => exact .keep (h a) ih

end Shadowed

theorem nodeItems_wrapped (w : Layers) (place : Place) (i : Nat) (items : List Tree) :
    nodeItems i (Tree.wrappedItems w place i items) =
      (nodeItems i items).map fun p => (p.1, p.2.wrapped w (place ++ [.item p.1])) := by
  induction items generalizing i with
  | nil => rfl
  | cons t rest ih =>
    rw [Tree.wrappedItems, nodeItems, nodeItems, Tree.isNode_wrapped, ih]
    split <;> rfl

/-- A visit of a child under a key. -/
def Visit.under (parent : Tree) (key : String) (c : Spot) : Visit := ⟨c, some parent, some key⟩

theorem isAttributeValue_under (parent : Tree) (key : String) (c : Spot) :
    isAttributeValue (Visit.under parent key c) =
      (key == "value" && parent.isA "JSXAttribute") := by
  simp [isAttributeValue, Visit.under]

theorem visits_parenthesized (place : Place) (t : Tree) :
    Spot.visits ⟨place, t.parenthesized⟩ =
      (fieldNodes place "expression" t).map (Visit.under t.parenthesized "expression") := by
  have hchildren : Spot.children ⟨place, t.parenthesized⟩ =
      (fieldNodes place "expression" t).map (·, "expression") ++ [] := rfl
  rw [Spot.visits, hchildren, List.append_nil, List.map_map]
  rfl

/-- The nodes that the value of a field holds, and those of the value in parentheses. -/
theorem shadowed_fieldNodes {w : Layers} {place place' : Place} {parent parent' : Tree}
    {key key' : String} {n : Nat} (t : Tree)
    (hplace : place' ++ .field key' :: List.replicate n (.field "expression") =
      w.move (place ++ [.field key]))
    (hvalue : (key' == "value" && parent'.isA "JSXAttribute") =
      (key == "value" && parent.isA "JSXAttribute"))
    (hlayers : n ≠ 0 → key ≠ "value") :
    Shadowed w ((fieldNodes place key t).map (Visit.under parent key))
      ((fieldNodes place' key' (Tree.enclosed n (t.wrapped w (place ++ [.field key])))).map
        (Visit.under parent' key')) := by
  have hvisit {c c' : Spot} (h : Spot.Mirrors w c c') :
      Visit.Mirrors w (Visit.under parent key c) (Visit.under parent' key' c') :=
    ⟨h, by rw [isAttributeValue_under, isAttributeValue_under, hvalue]⟩
  induction n generalizing place' key' parent' with
  | zero =>
    cases t with
    | object fields =>
      have hnode := Tree.isNode_wrapped w (place ++ [.field key]) (.object fields)
      unfold Tree.wrapped at hnode
      simp only [Tree.enclosed, Tree.wrapped, fieldNodes, hnode]
      split
      · exact .keep (hvisit ⟨rfl, fun _ => hplace⟩) .nil
      · exact .nil
    | list items =>
      simp only [Tree.enclosed, Tree.wrapped, fieldNodes, nodeItems_wrapped, List.map_map]
      apply Shadowed.of_map
      rintro ⟨i, v⟩
      apply hvisit
      constructor
      · simp
      · intro _
        have hitem := w.move_item (place ++ [.field key]) i
        rw [← hplace] at hitem
        simpa using hitem.symm
    | _ => exact .nil
  | succ n ih =>
    -- the outermost parentheses are one node more, and the rest stands in their only field
    refine .layer rfl ?_
    rw [List.map_nil, List.append_nil]
    change Shadowed w _ (Spot.visits ⟨place' ++ [.field key'], Tree.parenthesized _⟩)
    rw [visits_parenthesized]
    have hkey : (key == "value") = false := by simpa using hlayers (by omega)
    refine ih ?_ (by simp [hkey]) (fun _ => hlayers (by omega)) ?_
    · rw [← hplace, List.append_assoc, List.replicate_succ]
      rfl
    · intro c c' h
      exact ⟨h, by simp [isAttributeValue_under, hkey]⟩

theorem shadowed_fieldsNodes {w : Layers} {place place' : Place} {parent parent' : Tree}
    (hplace : place' = w.move place)
    (hparent : parent'.isA "JSXAttribute" = parent.isA "JSXAttribute")
    (fields : List (String × Tree)) :
    Shadowed w ((fieldsNodes place fields).map fun c => Visit.under parent c.2 c.1)
      ((fieldsNodes place' (Tree.wrappedFields w place fields)).map
        fun c => Visit.under parent' c.2 c.1) := by
  induction fields with
  | nil => exact .nil
  | cons f rest ih =>
    obtain ⟨key, t⟩ := f
    unfold Tree.wrappedFields fieldsNodes
    split
    · exact ih
    · simp only [List.map_append, List.map_map]
      refine .append (shadowed_fieldNodes t ?_ (by rw [hparent]) ?_) ih
      · rw [hplace, w.move_field]
      · -- parentheses stand only around expressions, and the value of an attribute is none
        intro hlayers hkey
        apply hlayers
        rw [hkey]
        exact w.around_of_not_mem place (by decide)

theorem shadowed_visits {w : Layers} {s s' : Spot} (h : Spot.Mirrors w s s') :
    Shadowed w s.visits s'.visits := by
  unfold Spot.visits Spot.children
  rw [h.tree]
  cases hs : s.tree with
  | object fields =>
    have hplace : s'.place = w.move s.place := h.place_of_isObject (by rw [hs]; rfl)
    have hparent := Tree.isA_wrapped w s.place s.tree "JSXAttribute"
    rw [hs] at hparent
    exact shadowed_fieldsNodes hplace hparent fields
  | _ => exact .nil

/-- One step of the walk takes both sides on; parentheses are opened on one side only. -/
theorem walkFrom_of_shadowed {w : Layers} {pending pending' : List Visit}
    (h : Shadowed w pending pending') :
    Padded (fun v' => v'.spot.tree.isParenthesized = true) (Visit.Mirrors w) (walkFrom pending)
      (walkFrom pending') := by
  fun_induction walkFrom pending' generalizing pending with
  | case1 =>
    cases h
    rw [walkFrom]
    exact .nil
  | case2 v' rest ih =>
    cases h with
    | keep hv hrest =>
      rw [walkFrom]
      exact .keep hv (ih ((shadowed_visits hv.spot).append hrest))
    | layer hv hrest => exact .pad hv (ih hrest)

theorem walk_of_mirrors {w : Layers} {s s' : Spot} (h : Spot.Mirrors w s s') :
    Padded (fun v' => v'.spot.tree.isParenthesized = true) (Visit.Mirrors w) (walk s)
      (walk s') :=
  walkFrom_of_shadowed (.keep ⟨h, rfl⟩ .nil)

end TopTag
