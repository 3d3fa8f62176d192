import TopTag.Proofs.Marking
import TopTag.Proofs.Rendered
import TopTag.Tagging

/-!
# Exact marking

Each function that looks for topmost elements, with the elements whose opening tags it marks and the
condition under which it gets through. The last one is the whole search: on success the marks are
those of the tree's topmost elements, no more and no fewer.
-/

namespace TopTag

namespace Tree

theorem require_eq_ok {t value : Tree} {key : String} :
    t.require key = .ok value ↔ t.field? key = some value := by
  cases t with
  | object fields =>
    rw [require, field?]
    cases fields.lookup key <;> simp
  | _ => simp [require, field?]

theorem exists_require_iff {t : Tree} {key : String} :
    (∃ value, t.require key = .ok value) ↔ (t.field? key).isSome = true := by
  simp only [require_eq_ok, Option.isSome_iff_exists]

theorem not_of_error {α : Type} {e : Except Fault α} {fault : Fault} (h : e = .error fault) :
    ¬∃ a, e = .ok a := by
  rintro ⟨a, ha⟩
  cases h.symm.trans ha

/-- Going through a list meets its items, and going through anything else meets only texts. -/
theorem entries_ok {t : Tree} {es : List Tree} (h : t.entries = .ok es) :
    t = .list es ∨ ((∀ items, t ≠ .list items) ∧ ∀ e ∈ es, ∃ s, e = .text s) := by
  unfold entries at h
  split at h
  · rename_i hv
    cases h
    cases t with
    | list items => exact .inl (by simpa [isVoid] using hv)
    | _ => exact .inr ⟨nofun, by simp⟩
  · split at h
    · cases h
      exact .inl rfl
    · cases h
      exact .inr ⟨nofun, by simp +contextual [eq_comm]⟩
    · cases h
      exact .inr ⟨nofun, by simp +contextual [eq_comm]⟩
    · cases h

/-- The kind of a declared variable's initial value, if that is a node, is no list and no object. -/
def PlainInit (t : Tree) : Prop :=
  t.isA "VariableDeclarator" = true → (t.get "init").isNode = true →
    ∃ b, isFunctionKind (t.get "init").kind = .ok b

end Tree

namespace Spot

/-- The element has an opening tag. -/
def HasTag (x : Spot) : Prop := (x.tree.field? "openingElement").isSome = true

/-- What marks of the element's opening tag go by. -/
def tagIdentity (x : Spot) : Identity := (x.get "openingElement").identity

theorem require_eq_ok {s o : Spot} {key : String} (h : s.require key = .ok o) :
    (s.tree.field? key).isSome = true ∧ o = s.get key := by
  rw [require] at h
  cases hr : s.tree.require key with
  | error fault => rw [hr] at h; cases h
  | ok value =>
    rw [hr] at h
    cases h
    have hf := Tree.require_eq_ok.mp hr
    exact ⟨by simp [hf], by simp [get, Tree.get, hf]⟩

theorem require_eq_error {s : Spot} {key : String} {fault : Fault}
    (h : s.require key = .error fault) : ¬(s.tree.field? key).isSome = true := by
  rw [require] at h
  rw [← Tree.exists_require_iff]
  rintro ⟨value, hv⟩
  rw [hv] at h
  cases h

end Spot

namespace Marking

variable {α β : Type} {extra extra' : Prop} {R R' : Spot → Prop}

/-- The computation marks the opening tags of the spots in `R`. It gets through exactly when each of
them has one and `extra` holds. -/
def MarksTags (m : Marking α) (extra : Prop) (R : Spot → Prop) : Prop :=
  m.Marks (extra ∧ ∀ x, R x → x.HasTag) fun i => ∃ x, R x ∧ x.tagIdentity = i

namespace MarksTags

theorem congr {m : Marking α} (h : MarksTags m extra R) (he : extra ↔ extra')
    (hR : ∀ x, R x ↔ R' x) : MarksTags m extra' R' := by
  obtain rfl : R = R' := funext fun x => propext (hR x)
  exact Marks.congr h (by rw [he]) fun _ _ => Iff.rfl

theorem pure (a : α) : MarksTags (Pure.pure a : Marking α) True fun _ => False :=
  (Marks.pure a).congr (by simp) (by simp)

theorem bind {m : Marking α} {f : α → Marking β} (hm : MarksTags m extra R)
    (hf : ∀ a, MarksTags (f a) extra' R') :
    MarksTags (m >>= f) (extra ∧ extra') fun x => R x ∨ R' x := by
  refine (Marks.bind hm hf).congr ?_ ?_
  · simp only [or_imp, forall_and]
    exact and_and_and_comm
  · simp only [or_and_right, exists_or, implies_true]

theorem bind_lift {e : Except Fault α} {f : α → Marking β}
    (hf : ∀ a, e = .ok a → MarksTags (f a) extra R) (he : ∀ fault, e = .error fault → ¬extra) :
    MarksTags ((e : Marking α) >>= f) extra R :=
  Marks.bind_lift hf fun fault h hok => he fault h hok.1

theorem forM {l : List α} {f : α → Marking Unit} {extra : α → Prop} {R : α → Spot → Prop}
    (h : ∀ a ∈ l, MarksTags (f a) (extra a) (R a)) :
    MarksTags (l.forM f) (∀ a ∈ l, extra a) fun x => ∃ a ∈ l, R a x := by
  refine (Marks.forM h).congr ?_ ?_
  · grind
  · grind

theorem foldlM {l : List α} {f : β → α → Marking β} {extra : α → Prop} {R : α → Spot → Prop}
    (b : β) (h : ∀ a ∈ l, ∀ b, MarksTags (f b a) (extra a) (R a)) :
    MarksTags (l.foldlM f b) (∀ a ∈ l, extra a) fun x => ∃ a ∈ l, R a x := by
  refine (Marks.foldlM b h).congr ?_ ?_
  · grind
  · grind

end MarksTags

end Marking

open Marking Spot

/-! ## One expression -/

theorem markElement_marks (s : Spot) : MarksTags (markElement s) True fun x => x = s := by
  refine Marks.bind_lift (fun o ho => ?_) fun fault hf hok => ?_
  · obtain ⟨htag, rfl⟩ := require_eq_ok ho
    exact (Marks.mark _).congr (by simpa [HasTag] using htag) (by simp [tagIdentity])
  · exact require_eq_error hf (hok.2 s rfl)

theorem markIfElement_marks (s : Spot) :
    MarksTags (markIfElement s) True fun x => x.tree.isElement = true ∧ x = s := by
  rw [markIfElement]
  split
  · rename_i h
    refine (markElement_marks s).congr Iff.rfl fun x => ⟨?_, And.right⟩
    rintro rfl
    exact ⟨h, rfl⟩
  · rename_i h
    refine (MarksTags.pure ()).congr Iff.rfl fun x => ⟨False.elim, ?_⟩
    rintro ⟨hx, rfl⟩
    exact h hx

theorem markEmbedded_marks (s : Spot) : MarksTags (markEmbedded s) True (Embeds s) := by
  rw [markEmbedded]
  -- the four ways of the function, each against the one description of what braces embed
  split
  · rename_i h
    have hn := normalized_of_not_conjunction (bare_of_isElement h).2
    refine (markElement_marks _).congr Iff.rfl fun x => ?_
    rw [embeds_iff, hn]
    constructor
    · rintro rfl
      exact ⟨h, .inl rfl⟩
    · rintro ⟨-, rfl | ⟨b, hb, -⟩⟩
      · rfl
      · exact absurd hb (not_branch_of_isA h (by decide))
  · split
    · rename_i h
      have hk := Tree.isA_of_isConjunction h
      refine (markIfElement_marks _).congr Iff.rfl fun x => ?_
      rw [embeds_iff, normalized]
      refine and_congr_right fun _ => ⟨.inl, ?_⟩
      rintro (rfl | ⟨b, hb, -⟩)
      · rfl
      · exact absurd hb (not_branch_of_isA hk (by decide))
    · rename_i hel hconj
      have hn := normalized_of_not_conjunction (by simpa using hconj)
      split
      · rename_i h
        refine ((markIfElement_marks _).bind fun _ => markIfElement_marks _).congr (by simp)
          fun x => ?_
        rw [embeds_iff, hn]
        constructor
        · rintro (⟨hx, rfl⟩ | ⟨hx, rfl⟩)
          · exact ⟨hx, .inr ⟨_, ⟨h, .inl rfl⟩, rfl⟩⟩
          · exact ⟨hx, .inr ⟨_, ⟨h, .inr rfl⟩, rfl⟩⟩
        · rintro ⟨hx, rfl | ⟨b, ⟨-, rfl | rfl⟩, rfl⟩⟩
          · exact absurd hx hel
          · exact .inl ⟨hx, rfl⟩
          · exact .inr ⟨hx, rfl⟩
      · rename_i h
        refine (MarksTags.pure ()).congr Iff.rfl fun x => ⟨False.elim, ?_⟩
        rw [embeds_iff, hn]
        rintro ⟨hx, rfl | ⟨b, ⟨hb, -⟩, -⟩⟩
        · exact hel hx
        · exact h hb

theorem markChild_marks (s : Spot) : MarksTags (markChild s) True (Yields s) := by
  rw [markChild]
  split
  · rename_i h
    refine (markElement_marks s).congr Iff.rfl fun x => ⟨?_, ?_⟩
    · rintro rfl
      exact .element h
    · rintro (_ | ⟨hc, -⟩)
      · rfl
      · exact absurd (Tree.isA_unique h hc) (by decide)
  · rename_i hel
    split
    · rename_i h
      refine (markEmbedded_marks _).congr Iff.rfl fun x => ⟨.embedded h, ?_⟩
      rintro (hx | ⟨-, hx⟩)
      · exact absurd hx hel
      · exact hx
    · rename_i h
      refine (MarksTags.pure ()).congr Iff.rfl fun x => ⟨False.elim, ?_⟩
      rintro (hx | ⟨hc, -⟩)
      · exact hel hx
      · exact h hc

theorem mem_spotsFrom {place : Place} {i : Nat} {items : List Tree} {c : Spot} :
    c ∈ spotsFrom place i items ↔
      ∃ k, items[k]? = some c.tree ∧ c.place = place ++ [.item (i + k)] := by
  obtain ⟨cplace, ctree⟩ := c
  induction items generalizing i with
  | nil => simp [spotsFrom]
  | cons t rest ih =>
    rw [spotsFrom, List.mem_cons, ih]
    constructor
    · rintro (h | ⟨k, hk, hp⟩)
      · cases h
        exact ⟨0, rfl, rfl⟩
      · exact ⟨k + 1, by simpa using hk, by rw [hp]; congr 3; omega⟩
    · rintro ⟨k, hk, hp⟩
      cases k with
      | zero =>
        simp only [List.getElem?_cons_zero, Option.some.injEq] at hk
        exact .inl (by simp_all)
      | succ k => exact .inr ⟨k, by simpa using hk, by rw [hp]; congr 3; omega⟩

/-- The children that a fragment's loop goes through are, as far as they render anything, the
entries of its list of children. -/
theorem offers_iff {f x : Spot} {es : List Tree} (h : (f.tree.get "children").entries = .ok es) :
    Offers f x ↔ ∃ c ∈ spotsFrom (f.place ++ [.field "children"]) 0 es, Yields c x := by
  rcases Tree.entries_ok h with hl | ⟨hl, htext⟩
  · have hfield : f.tree.field? "children" = some (.list es) := by
      rw [Tree.get] at hl
      cases hf : f.tree.field? "children" <;> simp_all
    simp only [Offers, Entry, mem_spotsFrom, hfield, Option.some.injEq, Tree.list.injEq,
      List.append_assoc, List.cons_append, List.nil_append, Nat.zero_add]
    constructor
    · rintro ⟨c, ⟨_, i, rfl, hi, hp⟩, hx⟩
      exact ⟨c, ⟨i, hi, hp⟩, hx⟩
    · rintro ⟨c, ⟨i, hi, hp⟩, hx⟩
      exact ⟨c, ⟨es, i, rfl, hi, hp⟩, hx⟩
  · constructor
    · rintro ⟨c, ⟨items, i, hf, -, -⟩, -⟩
      exact absurd (by rw [Tree.get, hf]; rfl) (hl items)
    · rintro ⟨c, hc, hx⟩
      obtain ⟨k, hk, -⟩ := mem_spotsFrom.mp hc
      obtain ⟨s, hs⟩ := htext _ (List.mem_of_getElem? hk)
      rcases hx with hx | ⟨hx, -⟩
      · rw [hs] at hx
        cases hx
      · rw [hs] at hx
        cases hx

theorem markFragmentChildren_marks (f : Spot) :
    MarksTags (markFragmentChildren f)
      (f.tree.isObject = true ∧ ∃ es, (f.tree.get "children").entries = .ok es) (Offers f) := by
  refine MarksTags.bind_lift (fun children hc => ?_) fun fault hf hok => ?_
  · rw [Tree.consult] at hc
    split at hc
    · rename_i hobj
      cases hc
      refine MarksTags.bind_lift (fun es hes => ?_) fun fault hf hok => Tree.not_of_error hf hok.2
      refine (MarksTags.forM fun c _ => markChild_marks c).congr (by simp [hobj, hes]) fun x => ?_
      exact (offers_iff hes).symm
    · cases hc
  · rw [Tree.consult, if_pos hok.1] at hf
    cases hf

/-! ## Return sites -/

theorem markReturnedAll_marks (pending : List Spot) :
    MarksTags (markReturnedAll pending) (∀ s ∈ pending, s.Open)
      fun x => ∃ s ∈ pending, Renders s x := by
  fun_induction markReturnedAll pending with
  | case1 => exact (MarksTags.pure ()).congr (by simp) (by simp)
  | case2 s pending e h ih =>
    have hc : s.normalized.tree.isConditional = false := Tree.not_isA h (by decide)
    have hf : s.normalized.tree.isFragment = false := Tree.not_isA h (by decide)
    have hel : s.normalized.tree.isElement = true := h
    refine ((markElement_marks e).bind fun _ => ih).congr ?_ fun x => ?_
    · simp [open_of_not_conditional hc, hf]
    · simp [renders_of_not_conditional hc, hel, hf, e]
  | case3 s pending e hel h ih =>
    have hc : s.normalized.tree.isConditional = false := Tree.not_isA h (by decide)
    have hf : s.normalized.tree.isFragment = true := h
    have hobj : s.normalized.tree.isObject = true := by
      obtain ⟨fields, hfields⟩ := Tree.isObject_of_isA h
      rw [hfields]
      rfl
    have hel : s.normalized.tree.isElement = false := by simpa using hel
    refine ((markFragmentChildren_marks e).bind fun _ => ih).congr ?_ fun x => ?_
    · simp [open_of_not_conditional hc, hf, hobj, e]
    · simp [renders_of_not_conditional hc, hel, hf, e]
  | case4 s pending e hel hfr h ih =>
    have hc : s.normalized.tree.isConditional = true := h
    refine ih.congr ?_ fun x => ?_
    · simp [open_of_conditional hc, e, and_assoc]
    · simp [renders_of_conditional hc, e, or_assoc]
  | case5 s pending e hel hfr h ih =>
    have hc : s.normalized.tree.isConditional = false := by simpa using h
    have hf : s.normalized.tree.isFragment = false := by simpa using hfr
    have hel : s.normalized.tree.isElement = false := by simpa using hel
    refine ih.congr ?_ fun x => ?_
    · simp [open_of_not_conditional hc, hf]
    · simp [renders_of_not_conditional hc, hel, hf]

theorem markReturned_marks (s : Spot) : MarksTags (markReturned s) s.Open (Renders s) :=
  (markReturnedAll_marks [s]).congr (by simp) (by simp)

theorem returnSite?_eq_some {s e : Spot} : returnSite? s = some e ↔ Returns s e := by
  simp only [returnSite?, Tree.kind_isText]
  split
  · rename_i h
    rw [Option.some.injEq]
    constructor
    · rintro rfl
      exact .statement h
    · rintro (_ | ⟨ha, -, -⟩)
      · rfl
      · exact absurd (Tree.isA_unique h ha) (by decide)
  · rename_i h
    split
    · rename_i ha
      simp only [Option.ite_none_right_eq_some, Bool.and_eq_true, Bool.not_eq_true',
        Option.some.injEq]
      constructor
      · rintro ⟨⟨hn, hb⟩, rfl⟩
        exact .arrow ha hn hb
      · rintro (hr | ⟨-, hn, hb⟩)
        · exact absurd hr h
        · exact ⟨⟨hn, hb⟩, rfl⟩
    · rename_i ha
      simp only [reduceCtorEq, false_iff]
      rintro (hr | ⟨ha', -, -⟩)
      · exact h hr
      · exact ha ha'

theorem markReturnSite_marks (s : Spot) :
    MarksTags (markReturnSite s) (∀ e, Returns s e → e.Open)
      fun x => ∃ e, Returns s e ∧ Renders e x := by
  simp only [← returnSite?_eq_some]
  rw [markReturnSite]
  split
  · rename_i e he
    exact (markReturned_marks e).congr (by simp [he]) (by simp [he])
  · rename_i he
    exact (MarksTags.pure ()).congr (by simp [he]) (by simp [he])

theorem resolveReturnSites_marks (s : Spot) :
    MarksTags (resolveReturnSites s)
      (s.tree.isObject = true ∧ ∀ site, Below s site → ∀ e, Returns site e → e.Open)
      fun x => ∃ site, Below s site ∧ ∃ e, Returns site e ∧ Renders e x := by
  refine MarksTags.bind_lift (fun nodes hn => ?_) fun fault hf hok => ?_
  · have hobj : s.tree.isObject = true := by
      rw [descendants] at hn
      split at hn
      · assumption
      · cases hn
    refine (MarksTags.forM fun c _ => markReturnSite_marks c).congr ?_ fun x => ?_
    · simp only [mem_descendants hn, hobj, true_and]
    · simp only [mem_descendants hn]
  · rw [descendants, if_pos hok.1] at hf
    cases hf

/-! ## Whole trees -/

theorem isFunctionKind_ok {t : Tree} {b : Bool} (h : isFunctionKind t.kind = .ok b) :
    b = (t.isA "FunctionExpression" || t.isA "ArrowFunctionExpression") := by
  simp only [← Tree.kind_isText]
  unfold isFunctionKind at h
  split at h <;> cases h
  simp [functionKinds]

theorem isComponentRoot_of_isNode {t : Tree} (h : t.isNode = true) :
    isComponentRoot t =
      if t.isA "FunctionDeclaration" = true then .ok true
      else if (t.isA "VariableDeclarator" && (t.get "init").isNode) = true then
        isFunctionKind (t.get "init").kind
      else .ok false := by
  obtain ⟨kind, hk⟩ := Option.isSome_iff_exists.mp h
  simp only [isComponentRoot, Tree.require_eq_ok.mpr hk, Tree.isA, hk, Option.any_some]
  rfl

theorem isNode_of_isComponentRoot {t : Tree} {b : Bool} (h : isComponentRoot t = .ok b) :
    t.isNode = true := by
  rw [Tree.isNode, ← Tree.exists_require_iff]
  cases hr : t.require "type" with
  | error fault => rw [isComponentRoot, hr] at h; cases h
  | ok kind => exact ⟨kind, rfl⟩

theorem isComponentRoot_ok {t : Tree} {b : Bool} (h : isComponentRoot t = .ok b) :
    (t.isNode = true ∧ t.PlainInit) ∧ (b = true ↔ t.IsComponent) := by
  have hn := isNode_of_isComponentRoot h
  rw [isComponentRoot_of_isNode hn] at h
  split at h
  · rename_i hf
    cases h
    have hplain : t.PlainInit := fun hv => absurd (Tree.isA_unique hf hv) (by decide)
    exact ⟨⟨hn, hplain⟩, by simp [Tree.IsComponent, hf]⟩
  · rename_i hf
    split at h
    · rename_i hv
      rw [Bool.and_eq_true] at hv
      refine ⟨⟨hn, fun _ _ => ⟨b, h⟩⟩, ?_⟩
      rw [isFunctionKind_ok h]
      simp [Tree.IsComponent, hf, hv.1]
    · rename_i hv
      cases h
      refine ⟨⟨hn, fun h1 h2 => absurd (by simp [h1, h2]) hv⟩, ?_⟩
      simp only [Bool.false_eq_true, false_iff]
      rintro (hf' | ⟨hv', hi⟩)
      · exact hf hf'
      · exact hv (by rw [hv', Bool.true_and]; exact hi.elim Tree.isNode_of_isA Tree.isNode_of_isA)

theorem isComponentRoot_error {t : Tree} {fault : Fault} (h : isComponentRoot t = .error fault) :
    ¬(t.isNode = true ∧ t.PlainInit) := by
  rintro ⟨hn, hplain⟩
  rw [isComponentRoot_of_isNode hn] at h
  split at h
  · cases h
  · split at h
    · rename_i hv
      rw [Bool.and_eq_true] at hv
      exact Tree.not_of_error h (hplain hv.1 hv.2)
    · cases h

/-- The search for return sites gets past the spot: it is a node of a kind that can be looked up,
and every fragment it has to go into can be gone through. -/
def Scannable (s : Spot) : Prop :=
  (s.tree.isNode = true ∧ s.tree.PlainInit) ∧ ∀ e, ReturnSite s e → e.Open

theorem isObject_of_isComponent {t : Tree} (h : t.IsComponent) : t.isObject = true := by
  have hfields : ∃ fields, t = .object fields := by
    rcases h with h | ⟨h, -⟩
    · exact Tree.isObject_of_isA h
    · exact Tree.isObject_of_isA h
  obtain ⟨fields, rfl⟩ := hfields
  rfl

theorem scanVisit_marks (n : Nat) (v : Visit) :
    MarksTags (scanVisit n v) (Scannable v.spot)
      fun x => ∃ e, ReturnSite v.spot e ∧ Renders e x := by
  refine MarksTags.bind_lift (fun b hb => ?_) fun fault hf hok => isComponentRoot_error hf hok.1
  obtain ⟨hnode, hcomp⟩ := isComponentRoot_ok hb
  cases b with
  | true =>
    have hc : v.spot.tree.IsComponent := hcomp.mp rfl
    refine ((resolveReturnSites_marks v.spot).bind fun _ => MarksTags.pure (n + 1)).congr ?_
      fun x => ?_
    · simp only [Scannable, ReturnSite, hnode, hc, isObject_of_isComponent hc]
      grind
    · simp only [ReturnSite, hc]
      grind
  | false =>
    have hc : ¬v.spot.tree.IsComponent := fun h => by simpa using hcomp.mpr h
    refine (MarksTags.pure n).congr ?_ fun x => ?_
    · simp [Scannable, ReturnSite, hc, hnode]
    · simp [ReturnSite, hc]

theorem scanComponents_marks (s : Spot) :
    MarksTags (scanComponents s) (∀ d, Within s d → Scannable d)
      fun x => ∃ d, Within s d ∧ ∃ e, ReturnSite d e ∧ Renders e x := by
  refine (MarksTags.foldlM 0 fun v _ n => scanVisit_marks n v).congr ?_ fun x => ?_
  · simp only [← exists_mem_walk]
    grind
  · simp only [← exists_mem_walk]
    grind

theorem markAttributeValue_marks (v : Visit) :
    MarksTags (markAttributeValue v) (v.spot.tree.isNode = true)
      fun x => v.spot.tree.isContainer = true ∧ isAttributeValue v = true ∧
        Embeds (v.spot.get "expression") x := by
  refine MarksTags.bind_lift (fun kind hk => ?_) fun fault hf hok =>
    Tree.not_of_error hf (Tree.exists_require_iff.mpr hok)
  have hfield := Tree.require_eq_ok.mp hk
  have hnode : v.spot.tree.isNode = true := by rw [Tree.isNode, hfield]; rfl
  have hkind : kind.isText "JSXExpressionContainer" = v.spot.tree.isContainer := by
    rw [Tree.isContainer, Tree.isA, hfield]
    rfl
  rw [hkind]
  split
  · rename_i h
    rw [Bool.and_eq_true] at h
    exact (markEmbedded_marks _).congr (by simp [hnode]) (by simp [h])
  · rename_i h
    rw [Bool.and_eq_true, not_and] at h
    refine (MarksTags.pure ()).congr (by simp [hnode]) fun x => ⟨False.elim, ?_⟩
    rintro ⟨hc, hv, -⟩
    exact h hc hv

/-- The visits that stand as attribute values are the children of attributes in that field. -/
theorem exists_attributeValue_iff {s c : Spot} :
    (∃ v ∈ walk s, v.spot = c ∧ isAttributeValue v = true) ↔
      ∃ a, Within s a ∧ a.tree.isA "JSXAttribute" = true ∧ (c, "value") ∈ a.children := by
  simp only [mem_walk, isAttributeValue, Bool.and_eq_true, beq_iff_eq]
  constructor
  · rintro ⟨v, rfl | ⟨a, ha, hv⟩, rfl, hkey, hparent⟩
    · cases hkey
    · obtain ⟨hp, key, hk, hc⟩ := mem_visits.mp hv
      rw [hkey, Option.some.injEq] at hk
      rw [hp] at hparent
      exact ⟨a, ha, hparent, hk ▸ hc⟩
  · rintro ⟨a, ha, hattr, hc⟩
    exact ⟨⟨c, some a.tree, some "value"⟩, .inr ⟨a, ha, mem_visits.mpr ⟨rfl, _, rfl, hc⟩⟩, rfl, rfl,
      hattr⟩

theorem resolveAttributeValues_marks (s : Spot) :
    MarksTags (resolveAttributeValues s) (∀ d, Within s d → d.tree.isNode = true)
      fun x => ∃ a, Within s a ∧ ∃ e, AttributeSite a e ∧ Embeds e x := by
  refine (MarksTags.forM fun v _ => markAttributeValue_marks v).congr ?_ fun x => ?_
  · simp only [← exists_mem_walk]
    grind
  · constructor
    · rintro ⟨v, hv, hc, hval, hx⟩
      obtain ⟨a, ha, hattr, hchild⟩ := exists_attributeValue_iff.mp ⟨v, hv, rfl, hval⟩
      exact ⟨a, ha, _, ⟨hattr, v.spot, hchild, hc, rfl⟩, hx⟩
    · rintro ⟨a, ha, _, ⟨hattr, c, hchild, hc, rfl⟩, hx⟩
      obtain ⟨v, hv, rfl, hval⟩ := exists_attributeValue_iff.mpr ⟨a, ha, hattr, hchild⟩
      exact ⟨v, hv, hc, hval, hx⟩

/-- The whole search marks the opening tags of the topmost elements. -/
theorem locate_marks (s : Spot) :
    MarksTags (locate s) (∀ d, Within s d → Scannable d) (Topmost s) := by
  refine ((scanComponents_marks s).bind fun n =>
    (resolveAttributeValues_marks s).bind fun _ => MarksTags.pure n).congr ?_ fun x => ?_
  · constructor
    · exact fun h => h.1
    · exact fun h => ⟨h, fun d hd => (h d hd).1.1, trivial⟩
  · constructor
    · rintro (⟨d, hd, e, he, hx⟩ | ⟨a, ha, e, he, hx⟩ | h)
      · exact .returned hd he hx
      · exact .given ha he hx
      · exact h.elim
    · rintro (⟨hd, he, hx⟩ | ⟨ha, he, hx⟩)
      · exact .inl ⟨_, hd, _, he, hx⟩
      · exact .inr (.inl ⟨_, ha, _, he, hx⟩)

/-- What a search without fault found: each topmost element has an opening tag, and the marks are
the identities of these tags. -/
theorem locate_exec {s : Spot} {c d : FileContext} {n : Nat} (h : (locate s).exec c = (.ok n, d)) :
    (∀ x, Topmost s x → x.HasTag) ∧
      ∀ i, i ∈ d.marked ↔ i ∈ c.marked ∨ ∃ x, Topmost s x ∧ x.tagIdentity = i := by
  obtain ⟨⟨-, htag⟩, hmarks⟩ := Marks.of_exec (locate_marks s) h
  exact ⟨htag, hmarks⟩

theorem locate_of_locateTopmost {s : Spot} {c d : FileContext} {record : Record}
    (h : locateTopmost s c = (.ok record, d)) : ∃ n, (locate s).exec c = (.ok n, d) := by
  rw [locateTopmost] at h
  split at h
  · cases h
  · rename_i n d' hn
    simp only [Prod.mk.injEq] at h
    exact ⟨n, h.2 ▸ hn⟩

/-- A search through a whole tree from a fresh context that meets no fault marks exactly the opening
tags of the tree's topmost elements, each of which has one. -/
theorem mem_marked_locateTopmost (t : Tree) (path : String) {record : Record} {c : FileContext}
    (h : locateTopmost (.root t) ⟨path, []⟩ = (.ok record, c)) :
    (∀ x, Topmost (.root t) x → (x.tree.field? "openingElement").isSome = true) ∧
      ∀ i, i ∈ c.marked ↔
        ∃ x, Topmost (.root t) x ∧ (x.get "openingElement").identity = i := by
  obtain ⟨n, hn⟩ := locate_of_locateTopmost h
  obtain ⟨htag, hmarks⟩ := locate_exec hn
  refine ⟨htag, fun i => ?_⟩
  simpa [tagIdentity] using hmarks i

/-- An element without attributes. -/
def innerElement : Tree :=
  .object [("type", .text "JSXElement"),
    ("openingElement", .object [("type", .text "JSXOpeningElement")])]

/-- An attribute whose value is an element in braces. -/
def elementAttribute : Tree :=
  .object [("type", .text "JSXAttribute"),
    ("value", .object [("type", .text "JSXExpressionContainer"), ("expression", innerElement)])]

/-- A `return` of an element in parentheses behind a conjunction; the element has an attribute that
is given another element. -/
def guardedReturn : Tree :=
  .object [("type", .text "ReturnStatement"),
    ("argument", .object [("type", .text "LogicalExpression"), ("operator", .text "&&"),
      ("right", .object [("type", .text "ParenthesizedExpression"),
        ("expression", .object [("type", .text "JSXElement"),
          ("openingElement", .object [("type", .text "JSXOpeningElement"),
            ("attributes", .list [elementAttribute])])])])])]

/-- A component with that `return`. -/
def guardedComponent : Tree :=
  .object [("type", .text "FunctionDeclaration"),
    ("body", .object [("type", .text "BlockStatement"), ("body", .list [guardedReturn])])]

theorem eq_of_isOk {α β : Type} {r : Except Fault α × β} (h : r.1.isOk = true) :
    ∃ a, r = (.ok a, r.2) := by
  obtain ⟨e, c⟩ := r
  cases e with
  | error fault => cases h
  | ok a => exact ⟨a, rfl⟩

theorem mem_marked_guardedComponent :
    let result := locateTopmost (.root guardedComponent) ⟨"src/App.tsx", []⟩
    result.1.isOk = true ∧ result.2.size = 2 ∧
      ∀ i, i ∈ result.2.marked ↔
        ∃ x, Topmost (.root guardedComponent) x ∧ (x.get "openingElement").identity = i := by
  have hok : (locateTopmost (.root guardedComponent) ⟨"src/App.tsx", []⟩).1.isOk = true := by
    decide +kernel
  obtain ⟨record, h⟩ := eq_of_isOk hok
  exact ⟨hok, by decide +kernel, (mem_marked_locateTopmost _ _ h).2⟩

end TopTag
