import Mathlib.Data.List.Forall2
import TopTag.Proofs.Unseen
import TopTag.Proofs.WrappedVisits

/-!
# Parentheses are transparent

The search for topmost elements does the same on a tree and on the tree with parentheses put in
where expressions stand: it ends with the same record or the same fault, and marks the same values,
at the places where the parentheses have moved them. Each function of the search takes the
parentheses off what it looks at (`Spot.Mirrors.normalized` and its like), so what it goes on with
corresponds again.
-/

namespace TopTag

/-- The identity of a value where parentheses have moved it. -/
def Identity.moved (w : Layers) : Identity → Identity
  | .place p => .place (w.move p)
  | i => i

theorem Identity.moved_injective (w : Layers) : Function.Injective (moved w) := by
  intro i j h
  cases i <;> cases j <;> simp only [moved, Identity.place.injEq, reduceCtorEq] at h
  · rw [w.move_injective h]
  · rfl
  · exact h

theorem Spot.Mirrors.identity {w : Layers} {s s' : Spot} (h : Mirrors w s s') :
    s'.identity = s.identity.moved w := by
  have htree := h.tree
  have hplace := h.place
  unfold Spot.identity
  cases hs : s.tree <;> rw [hs] at htree hplace <;> rw [htree] <;>
    simp_all [Tree.wrapped, Identity.moved]

namespace FileContext

/-- Marking by an injective renaming of identities gives the renamed marks. -/
theorem marked_markAll_map {f : Identity → Identity} (hf : Function.Injective f)
    (is : List Identity) {c c' : FileContext} (h : c'.marked = c.marked.map f) :
    (c'.markAll (is.map f)).marked = (c.markAll is).marked.map f := by
  induction is generalizing c c' with
  | nil => exact h
  | cons i is ih =>
    apply ih
    have hmarked : c'.isMarked (f i) = c.isMarked i := by
      simp [isMarked, h, hf.eq_iff]
    unfold mark
    rw [hmarked]
    split
    · exact h
    · simp [h]

end FileContext

namespace Marking

variable {α β γ : Type} {w : Layers}

/-- In every context `m'` ends as `m` does, and marks what `m` marks where it has been moved. -/
def Echoes (w : Layers) (m m' : Marking α) : Prop :=
  ∃ r log, m.Leaves r log ∧ m'.Leaves r (log.map (Identity.moved w))

namespace Echoes

theorem pure (a : α) : Echoes w (Pure.pure a : Marking α) (Pure.pure a) :=
  ⟨.ok a, [], fun _ => rfl, fun _ => rfl⟩

theorem bind {m m' : Marking α} {f f' : α → Marking β} (hm : Echoes w m m')
    (hf : ∀ a, Echoes w (f a) (f' a)) : Echoes w (m >>= f) (m' >>= f') := by
  obtain ⟨r, log, hm, hm'⟩ := hm
  cases r with
  | error fault => exact ⟨.error fault, log, hm.bind_error, hm'.bind_error⟩
  | ok a =>
    obtain ⟨r, log', hf, hf'⟩ := hf a
    refine ⟨r, log ++ log', hm.bind_ok hf, ?_⟩
    rw [List.map_append]
    exact hm'.bind_ok hf'

/-- Both sides look at their trees first and find what corresponds. -/
theorem bind_lift {e : Except Fault α} {e' : Except Fault γ} {f : α → Marking β}
    {f' : γ → Marking β}
    (h : (∃ fault, e = .error fault ∧ e' = .error fault) ∨
      ∃ a c, e = .ok a ∧ e' = .ok c ∧ Echoes w (f a) (f' c)) :
    Echoes w ((e : Marking α) >>= f) ((e' : Marking γ) >>= f') := by
  rcases h with ⟨fault, rfl, rfl⟩ | ⟨a, c, rfl, rfl, h⟩
  · exact ⟨.error fault, [], fun _ => rfl, fun _ => rfl⟩
  · exact h

theorem forM {as : List α} {bs : List β} {extra : β → Prop} {rel : α → β → Prop}
    {f : α → Marking Unit} {g : β → Marking Unit} (h : Padded extra rel as bs)
    (hextra : ∀ b, extra b → g b = Pure.pure ()) (hrel : ∀ a b, rel a b → Echoes w (f a) (g b)) :
    Echoes w (as.forM f) (bs.forM g) := by
  induction h with
  | nil => exact pure ()
  | pad hb _ ih =>
    change Echoes w _ (g _ >>= fun _ => List.forM _ g)
    rw [hextra _ hb, pure_bind]
    exact ih
  | keep hab _ ih => exact (hrel _ _ hab).bind fun _ => ih

theorem foldlM {as : List α} {bs : List β} {extra : β → Prop} {rel : α → β → Prop}
    {f : γ → α → Marking γ} {g : γ → β → Marking γ} (h : Padded extra rel as bs)
    (hextra : ∀ c b, extra b → g c b = Pure.pure c)
    (hrel : ∀ c a b, rel a b → Echoes w (f c a) (g c b)) (c : γ) :
    Echoes w (as.foldlM f c) (bs.foldlM g c) := by
  induction h generalizing c with
  | nil => exact pure c
  | pad hb _ ih =>
    rw [List.foldlM_cons, hextra c _ hb, pure_bind]
    exact ih c
  | keep hab _ ih =>
    rw [List.foldlM_cons, List.foldlM_cons]
    exact (hrel c _ _ hab).bind ih

end Echoes

end Marking

open Marking (Echoes)

section

variable {w : Layers} {s s' : Spot}

/-! ## Expressions -/

theorem Spot.Mirrors.normalized (h : Mirrors w s.unwrapParentheses s'.unwrapParentheses) :
    Mirrors w s.normalized s'.normalized := h.unwrapConjunction

theorem mark_mirrors (h : s.Mirrors w s') : Echoes w (Marking.mark s) (Marking.mark s') := by
  refine ⟨.ok (), [s.identity], fun _ => rfl, ?_⟩
  unfold Marking.mark
  rw [h.identity]
  intro c
  rfl

theorem Spot.require_eq (s : Spot) (key : String) :
    s.require key = if (s.tree.field? key).isSome then .ok (s.get key)
      else .error (if s.tree.isObject then .missingField key else .noFields) := by
  unfold require get Tree.get
  rw [Tree.require_eq]
  cases s.tree.field? key <;> rfl

theorem markElement_mirrors (h : s.Mirrors w s') : Echoes w (markElement s) (markElement s') := by
  have hfield : (s'.tree.field? "openingElement").isSome =
      (s.tree.field? "openingElement").isSome := by
    rw [h.tree, Tree.field?_wrapped, Option.isSome_map]
  apply Echoes.bind_lift
  rw [Spot.require_eq, Spot.require_eq, hfield, h.isObject]
  split
  · exact .inr ⟨_, _, rfl, rfl, mark_mirrors (h.get (by decide))⟩
  · exact .inl ⟨_, rfl, rfl⟩

theorem markIfElement_mirrors (h : s.Mirrors w s') :
    Echoes w (markIfElement s) (markIfElement s') := by
  unfold markIfElement
  rw [h.isElement]
  split
  · exact markElement_mirrors h
  · exact .pure ()

/-- An element in braces is found under parentheses around it, around the operands of a conjunction
and around the branches of a conditional. -/
theorem markEmbedded_mirrors (h : s.unwrapParentheses.Mirrors w s'.unwrapParentheses) :
    Echoes w (markEmbedded s) (markEmbedded s') := by
  unfold markEmbedded
  simp only [h.isElement, h.isConjunction, h.isConditional]
  split
  · exact markElement_mirrors h
  · split
    · exact markIfElement_mirrors h.unwrapConjunction
    · split
      · apply Echoes.bind
        · exact markIfElement_mirrors (h.unwrapParentheses_get "consequent")
        · intro _
          exact markIfElement_mirrors (h.unwrapParentheses_get "alternate")
      · exact .pure ()

theorem markChild_mirrors (h : s.Mirrors w s') : Echoes w (markChild s) (markChild s') := by
  unfold markChild
  rw [h.isElement, h.isContainer]
  split
  · exact markElement_mirrors h
  · split
    · exact markEmbedded_mirrors (h.unwrapParentheses_get "expression")
    · exact .pure ()

theorem spotsFrom_wrapped (w : Layers) (place : Place) (i : Nat) (items : List Tree) :
    Padded (fun _ => False) (Spot.Mirrors w) (spotsFrom place i items)
      (spotsFrom (w.move place) i (Tree.wrappedItems w place i items)) := by
  induction items generalizing i with
  | nil => exact .nil
  | cons t rest ih =>
    exact .keep ⟨rfl, fun _ => (w.move_item place i).symm⟩ (ih (i + 1))

/-- Going through a value other than a list fails or meets only texts, and these do nothing. -/
theorem entries_of_not_list (w : Layers) (place : Place) {t : Tree}
    (h : ∀ items, t ≠ .list items) :
    (∃ fault, t.entries = .error fault ∧ t.entries = .error fault) ∨
      ∃ es es', t.entries = .ok es ∧ t.entries = .ok es' ∧
        Echoes w ((spotsFrom place 0 es).forM markChild)
          ((spotsFrom (w.move place) 0 es').forM markChild) := by
  cases he : t.entries with
  | error fault => exact .inl ⟨fault, rfl, rfl⟩
  | ok es =>
    rcases Tree.entries_ok he with hlist | ⟨-, htexts⟩
    · exact absurd hlist (h es)
    · refine .inr ⟨es, es, rfl, rfl, ?_⟩
      rw [forM_markChild_texts _ 0 htexts, forM_markChild_texts _ 0 htexts]
      exact .pure ()

/-- The loop over the children of a fragment. -/
theorem forM_entries_mirrors (w : Layers) (place : Place) (children : Tree) :
    Echoes w ((children.entries : Marking _) >>= fun es => (spotsFrom place 0 es).forM markChild)
      (((children.wrapped w place).entries : Marking _) >>= fun es =>
        (spotsFrom (w.move place) 0 es).forM markChild) := by
  apply Echoes.bind_lift
  cases children with
  | list items =>
    refine .inr ⟨items, _, Tree.entries_list items, Tree.entries_list _, ?_⟩
    exact Echoes.forM (spotsFrom_wrapped w place 0 items) (fun _ => False.elim)
      fun _ _ => markChild_mirrors
  | object fields =>
    -- the keys of an object are texts, with the parentheses or without
    obtain ⟨es, hes, htexts⟩ := Tree.entries_object fields
    obtain ⟨es', hes', htexts'⟩ := Tree.entries_object (Tree.wrappedFields w place fields)
    refine .inr ⟨es, es', hes, hes', ?_⟩
    rw [forM_markChild_texts _ 0 htexts, forM_markChild_texts _ 0 htexts']
    exact .pure ()
  | _ => exact entries_of_not_list w place (by simp)

theorem markFragmentChildren_mirrors (h : s.Mirrors w s') (hs : s.tree.isObject = true) :
    Echoes w (markFragmentChildren s) (markFragmentChildren s') := by
  have hplace : s'.place ++ [.field "children"] = w.move (s.place ++ [.field "children"]) := by
    rw [h.place_of_isObject hs, w.move_field_of_not_mem s.place (by decide)]
  have hget : s'.tree.get "children" =
      (s.tree.get "children").wrapped w (s.place ++ [.field "children"]) :=
    (h.get (by decide)).tree
  unfold markFragmentChildren Tree.consult
  rw [if_pos hs, if_pos (h.isObject.trans hs), hget, hplace]
  exact forM_entries_mirrors w _ _

/-- A returned expression is brought down to the same value on both sides, whatever parentheses
stand around it and inside it. -/
theorem markReturnedAll_mirrors {pending pending' : List Spot}
    (h : List.Forall₂ (fun s s' => s.unwrapParentheses.Mirrors w s'.unwrapParentheses) pending
      pending') : Echoes w (markReturnedAll pending) (markReturnedAll pending') := by
  fun_induction markReturnedAll pending generalizing pending'
  case case1 =>
    cases h
    rw [markReturnedAll]
    exact .pure ()
  case case2 s pending e hel ih =>
    cases h with
    | cons hs hrest =>
      have he : e.Mirrors w _ := hs.normalized
      rw [markReturnedAll]
      simp only [he.isElement, if_pos hel]
      exact (markElement_mirrors he).bind fun _ => ih hrest
  case case3 s pending e hel hfr ih =>
    cases h with
    | cons hs hrest =>
      have he : e.Mirrors w _ := hs.normalized
      obtain ⟨fields, hfields⟩ := Tree.isObject_of_isA hfr
      rw [markReturnedAll]
      simp only [he.isElement, he.isFragment, if_neg hel, if_pos hfr]
      exact (markFragmentChildren_mirrors he (by rw [hfields]; rfl)).bind fun _ => ih hrest
  case case4 s pending e hel hfr hco ih =>
    cases h with
    | @cons _ s' _ pending' hs hrest =>
      have he : e.Mirrors w s'.normalized := hs.normalized
      have hbranches : markReturnedAll (s' :: pending') = markReturnedAll
          (s'.normalized.get "consequent" :: s'.normalized.get "alternate" :: pending') := by
        rw [markReturnedAll]
        simp only [he.isElement, he.isFragment, he.isConditional, if_neg hel, if_neg hfr,
          dif_pos hco]
      rw [hbranches]
      apply ih
      exact .cons (he.unwrapParentheses_get "consequent")
        (.cons (he.unwrapParentheses_get "alternate") hrest)
  case case5 s pending e hel hfr hco ih =>
    cases h with
    | cons hs hrest =>
      have he : e.Mirrors w _ := hs.normalized
      rw [markReturnedAll]
      simp only [he.isElement, he.isFragment, he.isConditional, if_neg hel, if_neg hfr, dif_neg hco]
      exact ih hrest

theorem markReturned_mirrors (h : s.unwrapParentheses.Mirrors w s'.unwrapParentheses) :
    Echoes w (markReturned s) (markReturned s') := markReturnedAll_mirrors (.cons h .nil)

/-! ## Return sites -/

/-- What is no node or is a block renders nothing. -/
theorem markReturned_eq_pure (h : (s.tree.isNode && !s.tree.isA "BlockStatement") = false) :
    markReturned s = pure () := by
  have hkind {kind : String} (hne : kind ≠ "BlockStatement") : ¬ s.tree.isA kind = true := by
    intro hk
    have hnode := Tree.isNode_of_isA hk
    have hblock := Tree.not_isA hk hne
    simp [hnode, hblock] at h
  have hconj : ¬ s.tree.isConjunction = true := by
    intro hc
    exact hkind (by decide) (Tree.isA_of_isConjunction hc)
  have hnormal : s.normalized = s := by
    unfold Spot.normalized
    rw [Spot.unwrapParentheses_of_not (hkind (by decide)), Spot.unwrapConjunction_of_not hconj]
  have helement : ¬ s.tree.isElement = true := hkind (by decide)
  have hfragment : ¬ s.tree.isFragment = true := hkind (by decide)
  have hconditional : ¬ s.tree.isConditional = true := hkind (by decide)
  unfold markReturned
  rw [markReturnedAll, hnormal, if_neg helement, if_neg hfragment, dif_neg hconditional,
    markReturnedAll]

theorem markReturnSite_of_statement (h : s.tree.isA "ReturnStatement" = true) :
    markReturnSite s = markReturned (s.get "argument") := by
  have hsite : returnSite? s = some (s.get "argument") := by
    simp [returnSite?, Tree.kind_isText, h]
  rw [markReturnSite, hsite]

/-- The body of an arrow function may be looked at whether it is a block or not. -/
theorem markReturnSite_of_arrow (h : s.tree.isA "ArrowFunctionExpression" = true) :
    markReturnSite s = markReturned (s.get "body") := by
  have hno : s.tree.isA "ReturnStatement" = false := Tree.not_isA h (by decide)
  have hsite : returnSite? s = if (s.get "body").tree.isNode &&
      !(s.get "body").tree.isA "BlockStatement" then some (s.get "body") else none := by
    simp [returnSite?, Tree.kind_isText, h, hno]
  rw [markReturnSite, hsite]
  by_cases hbody : ((s.get "body").tree.isNode && !(s.get "body").tree.isA "BlockStatement") = true
  · rw [if_pos hbody]
  · rw [if_neg hbody, markReturned_eq_pure (by simpa using hbody)]

theorem markReturnSite_of_other (hr : s.tree.isA "ReturnStatement" = false)
    (ha : s.tree.isA "ArrowFunctionExpression" = false) : markReturnSite s = pure () := by
  have hsite : returnSite? s = none := by
    simp [returnSite?, Tree.kind_isText, hr, ha]
  rw [markReturnSite, hsite]

theorem markReturnSite_mirrors (h : s.Mirrors w s') :
    Echoes w (markReturnSite s) (markReturnSite s') := by
  cases hr : s.tree.isA "ReturnStatement" with
  | true =>
    rw [markReturnSite_of_statement hr, markReturnSite_of_statement ((h.isA _).trans hr)]
    exact markReturned_mirrors (h.unwrapParentheses_get "argument")
  | false =>
    cases ha : s.tree.isA "ArrowFunctionExpression" with
    | true =>
      rw [markReturnSite_of_arrow ha, markReturnSite_of_arrow ((h.isA _).trans ha)]
      exact markReturned_mirrors (h.unwrapParentheses_get "body")
    | false =>
      rw [markReturnSite_of_other hr ha,
        markReturnSite_of_other ((h.isA _).trans hr) ((h.isA _).trans ha)]
      exact .pure ()

theorem resolveReturnSites_mirrors (h : s.Mirrors w s') :
    Echoes w (resolveReturnSites s) (resolveReturnSites s') := by
  have hspots : Padded (fun c => c.tree.isParenthesized = true) (Spot.Mirrors w)
      ((walkFrom s.visits).map Visit.spot) ((walkFrom s'.visits).map Visit.spot) :=
    (walkFrom_of_shadowed (shadowed_visits h)).map (fun _ hv => hv) fun _ _ hv => hv.spot
  unfold resolveReturnSites descendants
  rw [h.isObject, walk_eq_cons, walk_eq_cons, List.tail_cons, List.tail_cons]
  apply Echoes.bind_lift
  split
  · refine .inr ⟨_, _, rfl, rfl, Echoes.forM hspots (fun c hc => ?_) fun _ _ =>
      markReturnSite_mirrors⟩
    exact markReturnSite_of_other (Tree.not_isA hc (by decide)) (Tree.not_isA hc (by decide))
  · exact .inl ⟨_, rfl, rfl⟩

/-! ## Whole trees -/

/-- What is no node has no kind to be found, in either tree. -/
theorem Spot.Mirrors.require_type (h : s.Mirrors w s') (hn : ¬ s.tree.isNode = true) :
    ∃ fault, s.tree.require "type" = .error fault ∧ s'.tree.require "type" = .error fault := by
  have hn' : ¬ s'.tree.isNode = true := by rwa [h.isNode]
  have hfield : s.tree.field? "type" = none := by simpa [Tree.isNode] using hn
  have hfield' : s'.tree.field? "type" = none := by simpa [Tree.isNode] using hn'
  rw [Tree.require_eq, Tree.require_eq, hfield, hfield', h.isObject]
  exact ⟨_, rfl, rfl⟩

theorem isComponentRoot_mirrors (h : s.Mirrors w s') :
    isComponentRoot s'.tree = isComponentRoot s.tree := by
  have hkind (p : Place) (t : Tree) : isFunctionKind (t.wrapped w p) = isFunctionKind t := by
    cases t <;> rfl
  have hinit : Spot.Mirrors w (s.get "init") (s'.get "init") := h.get (by decide)
  by_cases hn : s.tree.isNode = true
  · rw [isComponentRoot_of_isNode hn, isComponentRoot_of_isNode (h.isNode.trans hn), h.isA, h.isA]
    have hinitNode : (s'.tree.get "init").isNode = (s.tree.get "init").isNode := hinit.isNode
    have hinitKind : isFunctionKind (s'.tree.get "init").kind =
        isFunctionKind (s.tree.get "init").kind := by
      have htype : Spot.Mirrors w ((s.get "init").get "type") ((s'.get "init").get "type") :=
        hinit.get (by decide)
      exact (congrArg isFunctionKind htype.tree).trans (hkind _ _)
    rw [hinitNode, hinitKind]
  · obtain ⟨fault, hfault, hfault'⟩ := h.require_type hn
    unfold isComponentRoot
    rw [hfault, hfault']
    rfl

theorem isComponentRoot_of_isParenthesized {t : Tree} (h : t.isParenthesized = true) :
    isComponentRoot t = .ok false := by
  have hfunction : t.isA "FunctionDeclaration" = false := Tree.not_isA h (by decide)
  have hvariable : t.isA "VariableDeclarator" = false := Tree.not_isA h (by decide)
  simp [isComponentRoot_of_isNode (Tree.isNode_of_isA h), hfunction, hvariable]

theorem scanComponents_mirrors (h : s.Mirrors w s') :
    Echoes w (scanComponents s) (scanComponents s') := by
  refine Echoes.foldlM (walk_of_mirrors h) (fun count v' hv' => ?_) (fun count v v' hv => ?_) 0
  · unfold scanVisit
    rw [isComponentRoot_of_isParenthesized hv']
    rfl
  · unfold scanVisit
    rw [isComponentRoot_mirrors hv.spot]
    apply Echoes.bind_lift
    cases isComponentRoot v.spot.tree with
    | error fault => exact .inl ⟨fault, rfl, rfl⟩
    | ok component =>
      refine .inr ⟨component, component, rfl, rfl, ?_⟩
      cases component with
      | true => exact (resolveReturnSites_mirrors hv.spot).bind fun _ => .pure _
      | false => exact .pure count

theorem markAttributeValue_eq {v : Visit} (h : v.spot.tree.isNode = true) :
    markAttributeValue v =
      if v.spot.tree.isA "JSXExpressionContainer" && isAttributeValue v then
        markEmbedded (v.spot.get "expression")
      else pure () := by
  obtain ⟨kind, hk⟩ := Option.isSome_iff_exists.mp h
  unfold markAttributeValue Tree.isA
  rw [Tree.require_eq_ok.mpr hk, hk]
  rfl

theorem markAttributeValue_mirrors {v v' : Visit} (h : v.Mirrors w v') :
    Echoes w (markAttributeValue v) (markAttributeValue v') := by
  by_cases hn : v.spot.tree.isNode = true
  · rw [markAttributeValue_eq hn, markAttributeValue_eq (h.spot.isNode.trans hn), h.spot.isA,
      h.isAttributeValue]
    split
    · exact markEmbedded_mirrors (h.spot.unwrapParentheses_get "expression")
    · exact .pure ()
  · exact Echoes.bind_lift (.inl (h.spot.require_type hn))

theorem resolveAttributeValues_mirrors (h : s.Mirrors w s') :
    Echoes w (resolveAttributeValues s) (resolveAttributeValues s') := by
  refine Echoes.forM (walk_of_mirrors h) (fun v' hv' => ?_) fun _ _ => markAttributeValue_mirrors
  have hno : v'.spot.tree.isA "JSXExpressionContainer" = false := Tree.not_isA hv' (by decide)
  rw [markAttributeValue_eq (Tree.isNode_of_isA hv'), hno]
  rfl

theorem locate_mirrors (h : s.Mirrors w s') : Echoes w (locate s) (locate s') := by
  apply (scanComponents_mirrors h).bind
  intro components
  exact (resolveAttributeValues_mirrors h).bind fun _ => .pure components

end

/-- Parentheses around expressions are transparent. With any number of them put around the values
of the fields that hold expressions, the search through a whole tree from a fresh context ends with
the same record or the same fault. It marks the values that it marks without them, no more and no
fewer and in the same order, at the places where they now stand; these are different for different
values, and what is found there is the value with the parentheses below it. -/
theorem locateTopmost_wrapped (t : Tree) (w : Layers) (path : String) :
    let plain := locateTopmost (.root t) ⟨path, []⟩
    let wrapped := locateTopmost (.root (t.wrapped w [])) ⟨path, []⟩
    wrapped.1 = plain.1 ∧ wrapped.2.marked = plain.2.marked.map (Identity.moved w) ∧
      Function.Injective w.move ∧
      ∀ p, (t.wrapped w []).at? (w.move p) = (t.at? p).map (Tree.wrapped w p) := by
  intro plain wrapped
  obtain ⟨r, log, hplain, hwrapped⟩ := locate_mirrors (Spot.mirrors_root w t)
  have hmarked : (FileContext.markAll ⟨path, []⟩ (log.map (Identity.moved w))).marked =
      (FileContext.markAll ⟨path, []⟩ log).marked.map (Identity.moved w) :=
    FileContext.marked_markAll_map (Identity.moved_injective w) log rfl
  have hresult : wrapped.1 = plain.1 ∧
      wrapped.2.marked = plain.2.marked.map (Identity.moved w) := by
    simp only [plain, wrapped, locateTopmost, hplain _, hwrapped _]
    cases r with
    | error fault => exact ⟨rfl, hmarked⟩
    | ok components =>
      refine ⟨?_, hmarked⟩
      simp [FileContext.size, hmarked]
  exact ⟨hresult.1, hresult.2, w.move_injective, w.at?_move t⟩

end TopTag
