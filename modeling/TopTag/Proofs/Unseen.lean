import TopTag.Proofs.AddedVisits
import TopTag.Proofs.Located
import TopTag.Tagging

/-!
# Added attributes go unseen

The search for topmost elements does the same on a tree and on the tree with attributes added: it
marks the same places in the same order and stops at the same fault. Added attributes are visited,
but nothing in them is a component, a return site or braces.
-/

namespace TopTag

/-! ## Spots -/

namespace Spot

variable (added : Additions)

theorem withAttributes_get (s : Spot) {key : String} (h : key ≠ "attributes") :
    (s.withAttributes added).get key = (s.get key).withAttributes added := by
  simp [get, withAttributes, Tree.get_withAttributes _ _ _ h]

theorem withAttributes_identity (s : Spot) : (s.withAttributes added).identity = s.identity := by
  obtain ⟨place, tree⟩ := s
  cases tree <;> rfl

theorem withAttributes_unwrapParentheses (s : Spot) :
    (s.withAttributes added).unwrapParentheses = s.unwrapParentheses.withAttributes added := by
  fun_induction unwrapParentheses s with
  | case1 s h ih =>
    rw [unwrapParentheses, dif_pos (by simpa [withAttributes, Tree.isParenthesized] using h),
      withAttributes_get added s (by decide), ih]
  | case2 s h =>
    rw [unwrapParentheses, dif_neg (by simpa [withAttributes, Tree.isParenthesized] using h)]

theorem withAttributes_unwrapConjunction (s : Spot) :
    (s.withAttributes added).unwrapConjunction = s.unwrapConjunction.withAttributes added := by
  fun_induction unwrapConjunction s with
  | case1 s h ih =>
    rw [unwrapConjunction, dif_pos (by simpa [withAttributes] using h),
      withAttributes_get added s (by decide), withAttributes_unwrapParentheses, ih]
  | case2 s h =>
    rw [unwrapConjunction, dif_neg (by simpa [withAttributes] using h)]

theorem withAttributes_normalized (s : Spot) :
    (s.withAttributes added).normalized = s.normalized.withAttributes added := by
  rw [normalized, withAttributes_unwrapParentheses, withAttributes_unwrapConjunction, normalized]

end Spot

namespace Tree

theorem require_eq (t : Tree) (key : String) :
    t.require key =
      match t.field? key with
      | some value => .ok value
      | none => .error (if t.isObject then .missingField key else .noFields) := by
  cases t with
  | object fields =>
    rw [require, field?]
    cases fields.lookup key <;> rfl
  | _ => rfl

theorem require_withAttributes (added : Additions) (place : Place) (t : Tree) {key : String}
    (h : key ≠ "attributes") :
    (t.withAttributes added place).require key =
      (t.require key).map (withAttributes added (place ++ [.field key])) := by
  rw [require_eq, require_eq, field?_withAttributes _ _ _ h, isObject_withAttributes]
  cases t.field? key <;> rfl

theorem entries_list (items : List Tree) : (Tree.list items).entries = .ok items := by
  cases items <;> rfl

/-- Going through an object meets texts. -/
theorem entries_object (fields : List (String × Tree)) :
    ∃ es, (Tree.object fields).entries = .ok es ∧ ∀ e ∈ es, ∃ s, e = .text s := by
  cases fields with
  | nil => exact ⟨[], rfl, by simp⟩
  | cons f rest => exact ⟨_, rfl, by simp +contextual [eq_comm]⟩

end Tree

section

variable (added : Additions)

/-! ## Expressions -/

section

variable (s : Spot)

@[simp] theorem isA_tree_withAttributes (kind : String) :
    (s.withAttributes added).tree.isA kind = s.tree.isA kind := Tree.isA_withAttributes ..

@[simp] theorem isElement_tree_withAttributes :
    (s.withAttributes added).tree.isElement = s.tree.isElement := Tree.isA_withAttributes ..

@[simp] theorem isFragment_tree_withAttributes :
    (s.withAttributes added).tree.isFragment = s.tree.isFragment := Tree.isA_withAttributes ..

@[simp] theorem isConditional_tree_withAttributes :
    (s.withAttributes added).tree.isConditional = s.tree.isConditional := Tree.isA_withAttributes ..

@[simp] theorem isContainer_tree_withAttributes :
    (s.withAttributes added).tree.isContainer = s.tree.isContainer := Tree.isA_withAttributes ..

@[simp] theorem isConjunction_tree_withAttributes :
    (s.withAttributes added).tree.isConjunction = s.tree.isConjunction :=
  Tree.isConjunction_withAttributes ..

end

theorem mark_withAttributes (s : Spot) :
    Marking.mark (s.withAttributes added) = Marking.mark s := by
  rw [Marking.mark, Spot.withAttributes_identity, Marking.mark]

theorem markElement_withAttributes (s : Spot) :
    markElement (s.withAttributes added) = markElement s := by
  have hrequire : (s.withAttributes added).require "openingElement"
      = (s.require "openingElement").map (Spot.withAttributes added) := by
    rw [Spot.require, Spot.withAttributes, Tree.require_withAttributes _ _ _ (by decide),
      Spot.require]
    cases s.tree.require "openingElement" <;> rfl
  rw [markElement, markElement, hrequire]
  cases s.require "openingElement" with
  | error fault => rfl
  | ok o => exact mark_withAttributes added o

theorem markIfElement_withAttributes (s : Spot) :
    markIfElement (s.withAttributes added) = markIfElement s := by
  simp only [markIfElement, isElement_tree_withAttributes, markElement_withAttributes]

theorem markEmbedded_withAttributes (s : Spot) :
    markEmbedded (s.withAttributes added) = markEmbedded s := by
  have hbranch {e : Spot} {key : String} (hkey : key ≠ "attributes") :
      markIfElement ((e.withAttributes added).get key).unwrapParentheses
        = markIfElement (e.get key).unwrapParentheses := by
    rw [Spot.withAttributes_get added e hkey, Spot.withAttributes_unwrapParentheses,
      markIfElement_withAttributes]
  simp only [markEmbedded, Spot.withAttributes_unwrapParentheses, isElement_tree_withAttributes,
    isConditional_tree_withAttributes, isConjunction_tree_withAttributes,
    Spot.withAttributes_unwrapConjunction, markElement_withAttributes,
    markIfElement_withAttributes, hbranch (by decide : "consequent" ≠ "attributes"),
    hbranch (by decide : "alternate" ≠ "attributes")]

theorem markChild_withAttributes (s : Spot) :
    markChild (s.withAttributes added) = markChild s := by
  simp only [markChild, isElement_tree_withAttributes, isContainer_tree_withAttributes,
    markElement_withAttributes, Spot.withAttributes_get added s (by decide : "expression" ≠ _),
    markEmbedded_withAttributes]

theorem spotsFrom_withAttributes (place : Place) (i : Nat) (items : List Tree) :
    spotsFrom place i (Tree.withAttributesItems added place i items)
      = (spotsFrom place i items).map (Spot.withAttributes added) := by
  induction items generalizing i with
  | nil => rfl
  | cons t rest ih => simp [Tree.withAttributesItems, spotsFrom, ih, Spot.withAttributes]

theorem forM_eq_pure {α : Type} {l : List α} {f : α → Marking Unit}
    (h : ∀ x ∈ l, f x = pure ()) : l.forM f = pure () := by
  induction l with
  | nil => rfl
  | cons x l ih =>
    change (f x >>= fun _ => l.forM f) = pure ()
    rw [h x List.mem_cons_self, pure_bind]
    exact ih fun y hy => h y (List.mem_cons_of_mem _ hy)

/-- Texts among the children of a fragment do nothing. -/
theorem forM_markChild_texts (place : Place) (i : Nat) {es : List Tree}
    (h : ∀ e ∈ es, ∃ s, e = .text s) : (spotsFrom place i es).forM markChild = pure () := by
  refine forM_eq_pure fun c hc => ?_
  obtain ⟨k, hk, -⟩ := mem_spotsFrom.mp hc
  obtain ⟨s, hs⟩ := h _ (List.mem_of_getElem? hk)
  rw [markChild, hs]
  rfl

theorem forM_map_withAttributes {f : Spot → Marking Unit}
    (h : ∀ s : Spot, f (s.withAttributes added) = f s) (l : List Spot) :
    (l.map (Spot.withAttributes added)).forM f = l.forM f := by
  induction l with
  | nil => rfl
  | cons s l ih =>
    change (f (s.withAttributes added) >>= fun _ => _) = (f s >>= fun _ => l.forM f)
    rw [h, ih]

/-- The loop over the children of a fragment. -/
theorem forM_entries_withAttributes (place : Place) (children : Tree) :
    (((children.withAttributes added place).entries : Marking _) >>= fun es =>
        (spotsFrom place 0 es).forM markChild)
      = ((children.entries : Marking _) >>= fun es => (spotsFrom place 0 es).forM markChild) := by
  cases children with
  | list items =>
    rw [Tree.withAttributes, Tree.entries_list, Tree.entries_list]
    change (spotsFrom place 0 (Tree.withAttributesItems added place 0 items)).forM markChild
      = (spotsFrom place 0 items).forM markChild
    rw [spotsFrom_withAttributes, forM_map_withAttributes added (markChild_withAttributes added)]
  | object fields =>
    -- the keys of an object are texts, with the attributes or without
    obtain ⟨es, hes, htexts⟩ := Tree.entries_object fields
    rw [Tree.withAttributes]
    obtain ⟨es', hes', htexts'⟩ := Tree.entries_object
      (if (Tree.object fields).isA "JSXOpeningElement" then
        Tree.appendAttributes (added.nodes place) (Tree.withAttributesFields added place fields)
      else Tree.withAttributesFields added place fields)
    rw [hes, hes']
    change (spotsFrom place 0 es').forM markChild = (spotsFrom place 0 es).forM markChild
    rw [forM_markChild_texts place 0 htexts, forM_markChild_texts place 0 htexts']
  | _ => rfl

theorem markFragmentChildren_withAttributes (s : Spot) :
    markFragmentChildren (s.withAttributes added) = markFragmentChildren s := by
  have hconsult : (s.withAttributes added).tree.consult "children"
      = (s.tree.consult "children").map
        (Tree.withAttributes added (s.place ++ [.field "children"])) := by
    rw [Tree.consult, Tree.consult, Spot.withAttributes, Tree.isObject_withAttributes,
      Tree.get_withAttributes _ _ _ (by decide)]
    split <;> rfl
  rw [markFragmentChildren, markFragmentChildren, hconsult]
  cases s.tree.consult "children" with
  | error fault => rfl
  | ok children => exact forM_entries_withAttributes added _ children

theorem markReturnedAll_withAttributes (pending : List Spot) :
    markReturnedAll (pending.map (Spot.withAttributes added)) = markReturnedAll pending := by
  fun_induction markReturnedAll pending with
  | case1 => simp [markReturnedAll]
  | case2 s pending e h ih =>
    rw [List.map_cons, markReturnedAll]
    simp only [Spot.withAttributes_normalized, isElement_tree_withAttributes]
    rw [if_pos h, ih, markElement_withAttributes]
  | case3 s pending e hel h ih =>
    rw [List.map_cons, markReturnedAll]
    simp only [Spot.withAttributes_normalized, isElement_tree_withAttributes,
      isFragment_tree_withAttributes]
    rw [if_neg hel, if_pos h, ih, markFragmentChildren_withAttributes]
  | case4 s pending e hel hfr h ih =>
    rw [List.map_cons, markReturnedAll]
    simp only [Spot.withAttributes_normalized, isElement_tree_withAttributes,
      isFragment_tree_withAttributes, isConditional_tree_withAttributes]
    rw [if_neg hel, if_neg hfr, dif_pos h, ← ih, List.map_cons, List.map_cons,
      Spot.withAttributes_get added _ (by decide), Spot.withAttributes_get added _ (by decide)]
  | case5 s pending e hel hfr h ih =>
    rw [List.map_cons, markReturnedAll]
    simp only [Spot.withAttributes_normalized, isElement_tree_withAttributes,
      isFragment_tree_withAttributes, isConditional_tree_withAttributes]
    rw [if_neg hel, if_neg hfr, dif_neg h, ih]

theorem markReturned_withAttributes (s : Spot) :
    markReturned (s.withAttributes added) = markReturned s :=
  markReturnedAll_withAttributes added [s]

theorem returnSite?_withAttributes (s : Spot) :
    returnSite? (s.withAttributes added) = (returnSite? s).map (Spot.withAttributes added) := by
  simp only [returnSite?, Tree.kind_isText, isA_tree_withAttributes,
    Spot.withAttributes_get added s (by decide : "argument" ≠ _),
    Spot.withAttributes_get added s (by decide : "body" ≠ _)]
  split
  · rfl
  · split
    · have hnode : ((s.get "body").withAttributes added).tree.isNode = (s.get "body").tree.isNode :=
        Tree.isNode_withAttributes ..
      rw [hnode]
      split <;> rfl
    · rfl

theorem markReturnSite_withAttributes (s : Spot) :
    markReturnSite (s.withAttributes added) = markReturnSite s := by
  rw [markReturnSite, markReturnSite, returnSite?_withAttributes]
  cases returnSite? s with
  | none => rfl
  | some e => exact markReturned_withAttributes added e

theorem isComponentRoot_withAttributes (place : Place) (t : Tree) :
    isComponentRoot (t.withAttributes added place) = isComponentRoot t := by
  have hkind (p : Place) (u : Tree) :
      isFunctionKind (u.withAttributes added p) = isFunctionKind u := by
    cases u <;> rfl
  by_cases hn : t.isNode = true
  · rw [isComponentRoot_of_isNode hn, isComponentRoot_of_isNode (by simpa using hn)]
    simp only [Tree.isA_withAttributes, Tree.get_withAttributes _ _ _ (by decide : "init" ≠ _),
      Tree.isNode_withAttributes, Tree.kind, Tree.get_withAttributes _ _ _ (by decide : "type" ≠ _),
      hkind]
  · have hfield : t.field? "type" = none := by simpa [Tree.isNode] using hn
    simp only [isComponentRoot, Tree.require_withAttributes _ _ _ (by decide : "type" ≠ _),
      Tree.require_eq t, hfield]
    rfl

/-! ## Whole trees -/

theorem returnSite?_isAttributePart {s : Spot} (h : s.tree.IsAttributePart) :
    returnSite? s = none := by
  cases hr : returnSite? s with
  | none => rfl
  | some e =>
    cases returnSite?_eq_some.mp hr with
    | statement hk => exact absurd (h.isA hk) (by decide)
    | arrow hk _ _ => exact absurd (h.isA hk) (by decide)

theorem isComponentRoot_isAttributePart {t : Tree} (h : t.IsAttributePart) :
    isComponentRoot t = .ok false := by
  have hf : t.isA "FunctionDeclaration" = false := by
    rw [← Bool.not_eq_true]
    exact fun hk => absurd (h.isA hk) (by decide)
  have hv : t.isA "VariableDeclarator" = false := by
    rw [← Bool.not_eq_true]
    exact fun hk => absurd (h.isA hk) (by decide)
  simp [isComponentRoot_of_isNode h.isNode, hf, hv]

theorem resolveReturnSites_withAttributes (s : Spot) :
    resolveReturnSites (s.withAttributes added) = resolveReturnSites s := by
  have hwalk := walkFrom_withAttributes added (visits_withAttributes added s)
  have hobj : (s.withAttributes added).tree.isObject = s.tree.isObject :=
    Tree.isObject_withAttributes ..
  rw [resolveReturnSites, resolveReturnSites, descendants, descendants, hobj, walk_eq_cons,
    walk_eq_cons, List.tail_cons, List.tail_cons]
  split
  · have hspots : Padded (fun c : Spot => c.tree.IsAttributePart)
        (fun c d => c.withAttributes added = d) ((walkFrom s.visits).map Visit.spot)
        ((walkFrom (s.withAttributes added).visits).map Visit.spot) :=
      hwalk.map (fun _ h => h) fun _ _ h => h.1.symm
    change ((walkFrom (s.withAttributes added).visits).map Visit.spot).forM markReturnSite =
      ((walkFrom s.visits).map Visit.spot).forM markReturnSite
    refine hspots.forM_eq (fun c hc => ?_) ?_
    · rw [markReturnSite, returnSite?_isAttributePart hc]
    · rintro c _ rfl
      exact markReturnSite_withAttributes added c
  · rfl

theorem scanComponents_withAttributes (s : Spot) :
    scanComponents (s.withAttributes added) = scanComponents s := by
  refine (walk_withAttributes added s).foldlM_eq (fun v n hv => ?_) (fun v v' n h => ?_) 0
  · rw [scanVisit, isComponentRoot_isAttributePart hv]
    rfl
  · rw [scanVisit, scanVisit, h.1, resolveReturnSites_withAttributes, Spot.withAttributes,
      isComponentRoot_withAttributes]

theorem markAttributeValue_isAttributePart {v : Visit} (h : v.spot.tree.IsAttributePart) :
    markAttributeValue v = pure () := by
  obtain ⟨kind, hk⟩ := Option.isSome_iff_exists.mp h.isNode
  have hcont : kind.isText "JSXExpressionContainer" = false := by
    rw [← Bool.not_eq_true]
    intro ht
    have hisA : v.spot.tree.isA "JSXExpressionContainer" = true := by rw [Tree.isA, hk]; exact ht
    exact absurd (h.isA hisA) (by decide)
  rw [markAttributeValue, Tree.require_eq_ok.mpr hk]
  change (if (kind.isText "JSXExpressionContainer" && isAttributeValue v) = true then _ else _) = _
  rw [hcont]
  rfl

theorem markAttributeValue_withAttributes {v v' : Visit} (h : Visit.Follows added v v') :
    markAttributeValue v' = markAttributeValue v := by
  obtain ⟨hspot, hkey, hparent⟩ := h
  have hvalue : isAttributeValue v' = isAttributeValue v := by
    rw [isAttributeValue, isAttributeValue, hkey, hparent]
  rw [markAttributeValue, markAttributeValue, hvalue, hspot,
    Spot.withAttributes_get added _ (by decide), markEmbedded_withAttributes, Spot.withAttributes,
    Tree.require_withAttributes _ _ _ (by decide)]
  cases v.spot.tree.require "type" with
  | error fault => rfl
  | ok kind =>
    change (if (Tree.isText _ _ && isAttributeValue v) = true then _ else _) =
      (if (kind.isText _ && isAttributeValue v) = true then _ else _)
    rw [Tree.isText_withAttributes]

theorem resolveAttributeValues_withAttributes (s : Spot) :
    resolveAttributeValues (s.withAttributes added) = resolveAttributeValues s :=
  (walk_withAttributes added s).forM_eq (fun _ => markAttributeValue_isAttributePart)
    fun _ _ => markAttributeValue_withAttributes added

/-- The search for topmost elements does not see added attributes. -/
theorem locate_withAttributes (s : Spot) : locate (s.withAttributes added) = locate s := by
  rw [locate, locate, scanComponents_withAttributes, resolveAttributeValues_withAttributes]

end

end TopTag
