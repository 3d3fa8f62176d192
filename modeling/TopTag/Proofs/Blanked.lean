import TopTag.Proofs.Unseen

/-!
# The search does not see metadata

`blanked` takes out of a tree everything that is stored as metadata and leaves the keys. The search
reaches a value by the walk, which passes metadata over, or by a field that it names, and none of
these holds metadata. So it does the same on a tree and on the blanked tree: the same marks in the
same order, and the same fault.
-/

namespace TopTag

/-! ## Trees -/

namespace Tree

mutual

/-- The tree with `null` in place of all metadata. -/
def blanked : Tree → Tree
  | .list items => .list (blankedItems items)
  | .object fields => .object (blankedFields fields)
  | t => t

def blankedItems : List Tree → List Tree
  | [] => []
  | t :: rest => blanked t :: blankedItems rest

def blankedFields : List (String × Tree) → List (String × Tree)
  | [] => []
  | (key, t) :: rest =>
    (key, if metadataKeys.contains key then .null else blanked t) :: blankedFields rest

end

theorem blankedItems_eq_map (items : List Tree) : blankedItems items = items.map blanked := by
  induction items with
  | nil => rfl
  | cons t rest ih => rw [blankedItems, ih, List.map_cons]

theorem lookup_blankedFields {key : String} (h : key ∉ metadataKeys)
    (fields : List (String × Tree)) :
    (blankedFields fields).lookup key = (fields.lookup key).map blanked := by
  induction fields with
  | nil => rfl
  | cons f rest ih =>
    obtain ⟨k, t⟩ := f
    by_cases hk : key = k
    · subst hk
      simp [blankedFields, h]
    · have hne : (key == k) = false := by simpa using hk
      simp [blankedFields, List.lookup_cons, hne, ih]

theorem blankedFields_eq_map (fields : List (String × Tree)) :
    blankedFields fields =
      fields.map fun f => (f.1, if metadataKeys.contains f.1 then .null else f.2.blanked) := by
  induction fields with
  | nil => rfl
  | cons f rest ih => simp [blankedFields, ih]

section

variable (t : Tree)

theorem field?_blanked {key : String} (h : key ∉ metadataKeys) :
    t.blanked.field? key = (t.field? key).map blanked := by
  cases t with
  | object fields => exact lookup_blankedFields h fields
  | _ => rfl

theorem get_blanked {key : String} (h : key ∉ metadataKeys) :
    t.blanked.get key = (t.get key).blanked := by
  rw [get, get, field?_blanked t h]
  cases t.field? key <;> rfl

@[simp] theorem isText_blanked (s : String) : t.blanked.isText s = t.isText s := by
  cases t <;> rfl

@[simp] theorem isObject_blanked : t.blanked.isObject = t.isObject := by
  cases t <;> rfl

@[simp] theorem isNode_blanked : t.blanked.isNode = t.isNode := by
  rw [isNode, field?_blanked t (by decide), Option.isSome_map, isNode]

@[simp] theorem isA_blanked (kind : String) : t.blanked.isA kind = t.isA kind := by
  rw [isA, field?_blanked t (by decide), isA, Option.any_map]
  congr 1
  funext u
  exact isText_blanked u kind

@[simp] theorem isConjunction_blanked : t.blanked.isConjunction = t.isConjunction := by
  rw [isConjunction, isA_blanked, get_blanked t (by decide), isText_blanked, isConjunction]

@[simp] theorem isVoid_blanked : t.blanked.isVoid = t.isVoid := by
  cases t with
  | list items => cases items <;> rfl
  | object fields => cases fields <;> rfl
  | _ => rfl

theorem require_blanked {key : String} (h : key ∉ metadataKeys) :
    t.blanked.require key = (t.require key).map blanked := by
  rw [require_eq, require_eq, field?_blanked t h, isObject_blanked]
  cases t.field? key <;> rfl

theorem consult_blanked {key : String} (h : key ∉ metadataKeys) :
    t.blanked.consult key = (t.consult key).map blanked := by
  rw [consult, consult, isObject_blanked, get_blanked t h]
  split <;> rfl

/-- The keys of an object are met whether they hold metadata or not. -/
theorem entries_blanked : t.blanked.entries = t.entries.map (List.map blanked) := by
  unfold entries
  rw [isVoid_blanked]
  split
  · rfl
  · cases t with
    | list items => exact congrArg Except.ok (blankedItems_eq_map items)
    | object fields => simp [blanked, blankedFields_eq_map, Except.map]
    | text value => simp [blanked, Except.map]
    | _ => rfl

end

end Tree

/-! ## Spots -/

namespace Spot

/-- The spot in the blanked tree. -/
def blanked (s : Spot) : Spot := ⟨s.place, s.tree.blanked⟩

variable (s : Spot)

@[simp] theorem place_blanked : s.blanked.place = s.place := rfl

@[simp] theorem tree_blanked : s.blanked.tree = s.tree.blanked := rfl

theorem blanked_get {key : String} (h : key ∉ metadataKeys) :
    s.blanked.get key = (s.get key).blanked := by
  simp [get, blanked, Tree.get_blanked _ h]

theorem blanked_require {key : String} (h : key ∉ metadataKeys) :
    s.blanked.require key = (s.require key).map blanked := by
  rw [require, tree_blanked, Tree.require_blanked _ h, require]
  cases s.tree.require key <;> rfl

@[simp] theorem identity_blanked : s.blanked.identity = s.identity := by
  obtain ⟨place, tree⟩ := s
  cases tree <;> rfl

@[simp] theorem isElement_blanked : s.tree.blanked.isElement = s.tree.isElement :=
  Tree.isA_blanked ..

@[simp] theorem isFragment_blanked : s.tree.blanked.isFragment = s.tree.isFragment :=
  Tree.isA_blanked ..

@[simp] theorem isConditional_blanked : s.tree.blanked.isConditional = s.tree.isConditional :=
  Tree.isA_blanked ..

@[simp] theorem isContainer_blanked : s.tree.blanked.isContainer = s.tree.isContainer :=
  Tree.isA_blanked ..

theorem blanked_unwrapParentheses : s.blanked.unwrapParentheses = s.unwrapParentheses.blanked := by
  fun_induction unwrapParentheses s with
  | case1 s h ih =>
    rw [unwrapParentheses, dif_pos (by simpa [Tree.isParenthesized] using h),
      blanked_get s (by decide), ih]
  | case2 s h => rw [unwrapParentheses, dif_neg (by simpa [Tree.isParenthesized] using h)]

theorem blanked_unwrapConjunction : s.blanked.unwrapConjunction = s.unwrapConjunction.blanked := by
  fun_induction unwrapConjunction s with
  | case1 s h ih =>
    rw [unwrapConjunction, dif_pos (by simpa using h), blanked_get s (by decide),
      blanked_unwrapParentheses, ih]
  | case2 s h => rw [unwrapConjunction, dif_neg (by simpa using h)]

theorem blanked_normalized : s.blanked.normalized = s.normalized.blanked := by
  rw [normalized, blanked_unwrapParentheses, blanked_unwrapConjunction, normalized]

end Spot

/-! ## Expressions -/

section

variable (s : Spot)

theorem markElement_blanked : markElement s.blanked = markElement s := by
  rw [markElement, markElement, Spot.blanked_require s (by decide)]
  cases s.require "openingElement" with
  | error fault => rfl
  | ok opening =>
    change Marking.mark opening.blanked = Marking.mark opening
    rw [Marking.mark, Spot.identity_blanked, Marking.mark]

theorem markIfElement_blanked : markIfElement s.blanked = markIfElement s := by
  simp only [markIfElement, Spot.tree_blanked, Spot.isElement_blanked, markElement_blanked]

theorem markEmbedded_blanked : markEmbedded s.blanked = markEmbedded s := by
  have hbranch {e : Spot} {key : String} (hkey : key ∉ metadataKeys) :
      markIfElement (e.blanked.get key).unwrapParentheses =
        markIfElement (e.get key).unwrapParentheses := by
    rw [Spot.blanked_get e hkey, Spot.blanked_unwrapParentheses, markIfElement_blanked]
  simp only [markEmbedded, Spot.blanked_unwrapParentheses, Spot.tree_blanked,
    Spot.isElement_blanked, Tree.isConjunction_blanked, Spot.isConditional_blanked,
    Spot.blanked_unwrapConjunction, markElement_blanked, markIfElement_blanked,
    hbranch (by decide : "consequent" ∉ metadataKeys),
    hbranch (by decide : "alternate" ∉ metadataKeys)]

theorem markChild_blanked : markChild s.blanked = markChild s := by
  simp only [markChild, Spot.tree_blanked, Spot.isElement_blanked, Spot.isContainer_blanked,
    markElement_blanked, Spot.blanked_get s (by decide : "expression" ∉ metadataKeys),
    markEmbedded_blanked]

theorem spotsFrom_blanked (place : Place) (i : Nat) (items : List Tree) :
    spotsFrom place i (items.map Tree.blanked) = (spotsFrom place i items).map Spot.blanked := by
  induction items generalizing i with
  | nil => rfl
  | cons t rest ih => simp [spotsFrom, ih, Spot.blanked]

/-- A loop that does not see metadata. -/
theorem forM_map_blanked {α : Type} {blank : α → α} {f : α → Marking Unit}
    (h : ∀ a, f (blank a) = f a) (l : List α) : (l.map blank).forM f = l.forM f := by
  rw [List.forM_eq_forM, List.forM_map]
  simp only [h]

theorem markFragmentChildren_blanked : markFragmentChildren s.blanked = markFragmentChildren s := by
  rw [markFragmentChildren, markFragmentChildren, Spot.tree_blanked,
    Tree.consult_blanked _ (by decide)]
  cases s.tree.consult "children" with
  | error fault => rfl
  | ok children =>
    change (children.blanked.entries : Marking _) >>= _ = (children.entries : Marking _) >>= _
    rw [Tree.entries_blanked]
    cases children.entries with
    | error fault => rfl
    | ok entries =>
      change (spotsFrom _ 0 (entries.map Tree.blanked)).forM markChild =
        (spotsFrom _ 0 entries).forM markChild
      rw [spotsFrom_blanked, forM_map_blanked markChild_blanked]
      rfl

theorem markReturnedAll_blanked (pending : List Spot) :
    markReturnedAll (pending.map Spot.blanked) = markReturnedAll pending := by
  fun_induction markReturnedAll pending with
  | case1 => simp [markReturnedAll]
  | case2 s pending e h ih =>
    rw [List.map_cons, markReturnedAll]
    simp only [Spot.blanked_normalized, Spot.tree_blanked, Spot.isElement_blanked]
    rw [if_pos h, ih, markElement_blanked]
  | case3 s pending e hel h ih =>
    rw [List.map_cons, markReturnedAll]
    simp only [Spot.blanked_normalized, Spot.tree_blanked, Spot.isElement_blanked,
      Spot.isFragment_blanked]
    rw [if_neg hel, if_pos h, ih, markFragmentChildren_blanked]
  | case4 s pending e hel hfr h ih =>
    rw [List.map_cons, markReturnedAll]
    simp only [Spot.blanked_normalized, Spot.tree_blanked, Spot.isElement_blanked,
      Spot.isFragment_blanked, Spot.isConditional_blanked]
    rw [if_neg hel, if_neg hfr, dif_pos h, ← ih, List.map_cons, List.map_cons,
      Spot.blanked_get _ (by decide), Spot.blanked_get _ (by decide)]
  | case5 s pending e hel hfr h ih =>
    rw [List.map_cons, markReturnedAll]
    simp only [Spot.blanked_normalized, Spot.tree_blanked, Spot.isElement_blanked,
      Spot.isFragment_blanked, Spot.isConditional_blanked]
    rw [if_neg hel, if_neg hfr, dif_neg h, ih]

theorem returnSite?_blanked : returnSite? s.blanked = (returnSite? s).map Spot.blanked := by
  simp only [returnSite?, Tree.kind_isText, Spot.tree_blanked, Tree.isA_blanked,
    Spot.blanked_get s (by decide : "argument" ∉ metadataKeys),
    Spot.blanked_get s (by decide : "body" ∉ metadataKeys), Tree.isNode_blanked]
  split
  · rfl
  · split
    · split <;> rfl
    · rfl

theorem markReturnSite_blanked : markReturnSite s.blanked = markReturnSite s := by
  rw [markReturnSite, markReturnSite, returnSite?_blanked]
  cases returnSite? s with
  | none => rfl
  | some e => exact markReturnedAll_blanked [e]

theorem isComponentRoot_blanked (t : Tree) : isComponentRoot t.blanked = isComponentRoot t := by
  have hkind (u : Tree) : isFunctionKind u.blanked = isFunctionKind u := by
    cases u <;> rfl
  by_cases hn : t.isNode = true
  · rw [isComponentRoot_of_isNode hn, isComponentRoot_of_isNode (by simpa using hn)]
    simp only [Tree.isA_blanked, Tree.get_blanked _ (by decide : "init" ∉ metadataKeys),
      Tree.isNode_blanked, Tree.kind, Tree.get_blanked _ (by decide : "type" ∉ metadataKeys), hkind]
  · have hfield : t.field? "type" = none := by simpa [Tree.isNode] using hn
    simp only [isComponentRoot, Tree.require_blanked _ (by decide : "type" ∉ metadataKeys),
      Tree.require_eq t, hfield]
    rfl

end

/-! ## Whole trees -/

theorem nodeItems_blanked (i : Nat) (items : List Tree) :
    nodeItems i (Tree.blankedItems items) =
      (nodeItems i items).map fun p => (p.1, p.2.blanked) := by
  induction items generalizing i with
  | nil => rfl
  | cons t rest ih =>
    rw [Tree.blankedItems, nodeItems, nodeItems, Tree.isNode_blanked, ih]
    split <;> rfl

theorem fieldNodes_blanked (place : Place) (key : String) (value : Tree) :
    fieldNodes place key value.blanked = (fieldNodes place key value).map Spot.blanked := by
  cases value with
  | object fields =>
    have hnode := Tree.isNode_blanked (.object fields)
    rw [Tree.blanked] at hnode ⊢
    rw [fieldNodes, fieldNodes, hnode]
    split
    · simp [Spot.blanked, Tree.blanked]
    · rfl
  | list items =>
    rw [Tree.blanked, fieldNodes, fieldNodes, nodeItems_blanked]
    simp [Spot.blanked, Function.comp_def]
  | _ => rfl

theorem fieldsNodes_blanked (place : Place) (fields : List (String × Tree)) :
    fieldsNodes place (Tree.blankedFields fields) =
      (fieldsNodes place fields).map fun c => (c.1.blanked, c.2) := by
  induction fields with
  | nil => rfl
  | cons f rest ih =>
    obtain ⟨key, value⟩ := f
    rw [Tree.blankedFields, fieldsNodes, fieldsNodes, ih]
    split
    · rfl
    · simp [fieldNodes_blanked]

/-- The visit in the blanked tree. -/
def Visit.blanked (v : Visit) : Visit := ⟨v.spot.blanked, v.parent.map Tree.blanked, v.key⟩

theorem visits_blanked (s : Spot) : s.blanked.visits = s.visits.map Visit.blanked := by
  have hchildren : s.blanked.children = s.children.map fun c => (c.1.blanked, c.2) := by
    obtain ⟨place, tree⟩ := s
    cases tree with
    | object fields => exact fieldsNodes_blanked place fields
    | _ => rfl
  rw [Spot.visits, Spot.visits, hchildren, List.map_map, List.map_map]
  rfl

/-- The walk goes the same way in the blanked tree. -/
theorem walkFrom_blanked (pending : List Visit) :
    walkFrom (pending.map Visit.blanked) = (walkFrom pending).map Visit.blanked := by
  fun_induction walkFrom pending with
  | case1 =>
    rw [List.map_nil, walkFrom]
  | case2 v rest ih =>
    have hpending : v.blanked.spot.visits ++ rest.map Visit.blanked =
        (v.spot.visits ++ rest).map Visit.blanked := by
      rw [List.map_append, ← visits_blanked]
      rfl
    rw [List.map_cons, walkFrom, hpending, ih, List.map_cons]

theorem walk_blanked (s : Spot) : walk s.blanked = (walk s).map Visit.blanked :=
  walkFrom_blanked [⟨s, none, none⟩]

theorem resolveReturnSites_blanked (s : Spot) :
    resolveReturnSites s.blanked = resolveReturnSites s := by
  have hspots : (walk s.blanked).tail.map Visit.spot =
      ((walk s).tail.map Visit.spot).map Spot.blanked := by
    rw [walk_blanked, List.map_tail, List.map_tail, List.map_tail, List.map_map, List.map_map]
    rfl
  rw [resolveReturnSites, resolveReturnSites, descendants, descendants, Spot.tree_blanked,
    Tree.isObject_blanked, hspots]
  split
  · exact forM_map_blanked markReturnSite_blanked _
  · rfl

theorem scanComponents_blanked (s : Spot) : scanComponents s.blanked = scanComponents s := by
  have hvisit (count : Nat) (v : Visit) : scanVisit count v.blanked = scanVisit count v := by
    rw [scanVisit, scanVisit, Visit.blanked, resolveReturnSites_blanked, Spot.tree_blanked,
      isComponentRoot_blanked]
  rw [scanComponents, scanComponents, walk_blanked, List.foldlM_map]
  simp only [hvisit]

theorem markAttributeValue_blanked (v : Visit) :
    markAttributeValue v.blanked = markAttributeValue v := by
  have hvalue : isAttributeValue v.blanked = isAttributeValue v := by
    rw [isAttributeValue, isAttributeValue, Visit.blanked, Option.any_map]
    simp only [Tree.isA_blanked]
  rw [markAttributeValue, markAttributeValue, hvalue, Visit.blanked,
    Spot.blanked_get _ (by decide), markEmbedded_blanked, Spot.tree_blanked,
    Tree.require_blanked _ (by decide)]
  cases v.spot.tree.require "type" with
  | error fault => rfl
  | ok kind =>
    change (if (kind.blanked.isText _ && isAttributeValue v) = true then _ else _) =
      (if (kind.isText _ && isAttributeValue v) = true then _ else _)
    rw [Tree.isText_blanked]

/-- The search for topmost elements does not see metadata. -/
theorem locate_blanked (s : Spot) : locate s.blanked = locate s := by
  have hvalues : resolveAttributeValues s.blanked = resolveAttributeValues s := by
    rw [resolveAttributeValues, walk_blanked]
    exact forM_map_blanked markAttributeValue_blanked _
  rw [locate, locate, scanComponents_blanked, hvalues]

end TopTag
