import TopTag.Fault
import TopTag.Markup
import TopTag.Proofs.Reach

/-!
# Rendered elements

Which elements an expression renders, said without the loops that find them: `Renders` for an
expression that a function returns, `Embeds` for one that stands in braces, and `Topmost` for the
elements of a whole tree. Parentheses and conjunctions are layers; each loop comes to the one value
under the layers that is not a layer itself.

## Main definitions

* `Spot.Reveals`: what an expression may come down to, through layers and branches.
* `Spot.Renders`, `Spot.Embeds`: the elements an expression renders.
* `Spot.Topmost`: the elements that the components and the attributes of a tree render.
-/

namespace TopTag

namespace Tree

theorem isA_iff {t : Tree} {kind : String} :
    t.isA kind = true ↔ t.field? "type" = some (.text kind) := by
  rw [isA]
  cases t.field? "type" with
  | none => simp
  | some k => cases k <;> simp [isText]

theorem object_of_isNode {t : Tree} (h : t.isNode = true) : ∃ fields, t = .object fields := by
  cases t with
  | object fields => exact ⟨fields, rfl⟩
  | _ => cases h

theorem isNode_of_isA {t : Tree} {kind : String} (h : t.isA kind = true) : t.isNode = true := by
  rw [isNode, isA_iff.mp h]
  rfl

/-- A node has one kind only. -/
theorem isA_unique {t : Tree} {a b : String} (ha : t.isA a = true) (hb : t.isA b = true) :
    a = b := by
  have h := (isA_iff.mp ha).symm.trans (isA_iff.mp hb)
  simpa using h

theorem not_isA {t : Tree} {a b : String} (ha : t.isA a = true) (hab : a ≠ b) :
    t.isA b = false := by
  cases hb : t.isA b with
  | false => rfl
  | true => exact absurd (isA_unique ha hb) hab

theorem kind_isText (t : Tree) (kind : String) : t.kind.isText kind = t.isA kind := by
  rw [Tree.kind, get, isA]
  cases t.field? "type" <;> rfl

theorem isA_of_isConjunction {t : Tree} (h : t.isConjunction = true) :
    t.isA "LogicalExpression" = true := (Bool.and_eq_true_iff.mp h).1

/-- A component: a declared function, or a variable whose initial value is a function. -/
def IsComponent (t : Tree) : Prop :=
  t.isA "FunctionDeclaration" = true ∨
    (t.isA "VariableDeclarator" = true ∧ ((t.get "init").isA "FunctionExpression" = true ∨
      (t.get "init").isA "ArrowFunctionExpression" = true))

end Tree

namespace Spot

open Relation

/-! ## Relations -/

/-- `s` is a pair of parentheses around `e`. -/
def Encloses (s e : Spot) : Prop := s.tree.isParenthesized = true ∧ e = s.get "expression"

/-- `s` is a layer around `e`: parentheses, or a conjunction whose last operand is `e`. -/
def Layer (s e : Spot) : Prop :=
  Encloses s e ∨ (s.tree.isConjunction = true ∧ e = s.get "right")

/-- `b` is a branch of the conditional `s`. -/
def Branch (s b : Spot) : Prop :=
  s.tree.isConditional = true ∧ (b = s.get "consequent" ∨ b = s.get "alternate")

/-- An expression at `s` may come down to `e`, through layers and branches of conditionals. -/
def Reveals : Spot → Spot → Prop := ReflTransGen fun s e => Layer s e ∨ Branch s e

/-- `c` is an entry of the list in a field of `s`. -/
def Entry (s : Spot) (key : String) (c : Spot) : Prop :=
  ∃ items i, s.tree.field? key = some (.list items) ∧ items[i]? = some c.tree ∧
    c.place = s.place ++ [.field key, .item i]

/-- What an expression in braces renders: the element under its layers, or, when it is a conditional
in parentheses, the elements that stand in its branches in parentheses. -/
inductive Embeds : Spot → Spot → Prop
  | chain {s x : Spot} (h : ReflTransGen Layer s x) (hx : x.tree.isElement = true) : Embeds s x
  | branch {s e b x : Spot} (h : ReflTransGen Encloses s e) (hb : Branch e b)
      (hbx : ReflTransGen Encloses b x) (hx : x.tree.isElement = true) : Embeds s x

/-- What a child of a fragment renders: itself if it is an element, and what its braces embed. -/
inductive Yields : Spot → Spot → Prop
  | element {x : Spot} (hx : x.tree.isElement = true) : Yields x x
  | embedded {c x : Spot} (hc : c.tree.isContainer = true) (hx : Embeds (c.get "expression") x) :
      Yields c x

/-- What a fragment renders: what its children do. -/
def Offers (f x : Spot) : Prop := ∃ c, Entry f "children" c ∧ Yields c x

/-- What a returned expression renders: the elements it may come down to, and what the fragments it
may come down to render. -/
inductive Renders : Spot → Spot → Prop
  | element {s x : Spot} (h : Reveals s x) (hx : x.tree.isElement = true) : Renders s x
  | fragment {s f x : Spot} (h : Reveals s f) (hf : f.tree.isFragment = true) (hx : Offers f x) :
      Renders s x

/-- `e` is the expression that the node `s` returns: the argument of a `return`, or the body of an
arrow function that is no block. -/
inductive Returns : Spot → Spot → Prop
  | statement {s : Spot} (h : s.tree.isA "ReturnStatement" = true) : Returns s (s.get "argument")
  | arrow {s : Spot} (h : s.tree.isA "ArrowFunctionExpression" = true)
      (hn : (s.get "body").tree.isNode = true)
      (hb : (s.get "body").tree.isA "BlockStatement" = false) : Returns s (s.get "body")

/-- `e` is what a return site below the component `s` returns. -/
def ReturnSite (s e : Spot) : Prop := s.tree.IsComponent ∧ ∃ site, Below s site ∧ Returns site e

/-- `e` is what the braces of an attribute's value hold, the attribute being `a`. -/
def AttributeSite (a e : Spot) : Prop :=
  a.tree.isA "JSXAttribute" = true ∧
    ∃ c, (c, "value") ∈ a.children ∧ c.tree.isContainer = true ∧ e = c.get "expression"

/-- The elements that a tree's components return and that its attributes are given. -/
inductive Topmost (root : Spot) : Spot → Prop
  | returned {s e x : Spot} (hs : Within root s) (he : ReturnSite s e) (hx : Renders e x) :
      Topmost root x
  | given {a e x : Spot} (ha : Within root a) (he : AttributeSite a e) (hx : Embeds e x) :
      Topmost root x

/-! ## Layers -/

/-- A value that is no layer. -/
def Bare (s : Spot) : Prop := s.tree.isParenthesized = false ∧ s.tree.isConjunction = false

theorem not_isConjunction_of_isA {t : Tree} {kind : String} (h : t.isA kind = true)
    (hk : kind ≠ "LogicalExpression") : t.isConjunction = false := by
  rw [Tree.isConjunction, Tree.not_isA h hk, Bool.false_and]

theorem bare_of_isA {s : Spot} {kind : String} (h : s.tree.isA kind = true)
    (hp : kind ≠ "ParenthesizedExpression") (hc : kind ≠ "LogicalExpression") : Bare s :=
  ⟨Tree.not_isA h hp, not_isConjunction_of_isA h hc⟩

theorem bare_of_isElement {s : Spot} (h : s.tree.isElement = true) : Bare s :=
  bare_of_isA h (by decide) (by decide)

theorem bare_of_isFragment {s : Spot} (h : s.tree.isFragment = true) : Bare s :=
  bare_of_isA h (by decide) (by decide)

theorem bare_of_isConditional {s : Spot} (h : s.tree.isConditional = true) : Bare s :=
  bare_of_isA h (by decide) (by decide)

theorem Bare.not_layer {s e : Spot} (h : Bare s) : ¬Layer s e := by
  rintro (⟨hp, -⟩ | ⟨hc, -⟩)
  · exact Bool.false_ne_true (h.1.symm.trans hp)
  · exact Bool.false_ne_true (h.2.symm.trans hc)

/-- What stands under a layer is determined by it. -/
theorem Layer.unique {s e e' : Spot} (h : Layer s e) (h' : Layer s e') : e = e' := by
  rcases h with ⟨hp, rfl⟩ | ⟨hc, rfl⟩ <;> rcases h' with ⟨hp', rfl⟩ | ⟨hc', rfl⟩
  · rfl
  · exact absurd (Tree.isA_unique hp (Tree.isA_of_isConjunction hc')) (by decide)
  · exact absurd (Tree.isA_unique hp' (Tree.isA_of_isConjunction hc)) (by decide)
  · rfl

/-- Only one bare value stands under the layers of a value. -/
theorem Bare.eq_of_layers {s e e' : Spot} (h : Bare e) (h' : Bare e')
    (hs : ReflTransGen Layer s e) (hs' : ReflTransGen Layer s e') : e = e' := by
  have unique : Relator.RightUnique Layer := fun _ _ _ => Layer.unique
  rcases ReflTransGen.total_of_right_unique unique hs hs' with hee | hee
  · rcases hee.cases_head with heq | ⟨_, hstep, -⟩
    · exact heq
    · exact absurd hstep h.not_layer
  · rcases hee.cases_head with heq | ⟨_, hstep, -⟩
    · exact heq.symm
    · exact absurd hstep h'.not_layer

theorem encloses_unwrapParentheses (s : Spot) :
    ReflTransGen Encloses s s.unwrapParentheses ∧
      s.unwrapParentheses.tree.isParenthesized = false := by
  fun_induction unwrapParentheses s with
  | case1 s h ih => exact ⟨.head ⟨h, rfl⟩ ih.1, ih.2⟩
  | case2 s h => exact ⟨.refl, by simpa using h⟩

theorem layers_of_encloses {s e : Spot} (h : ReflTransGen Encloses s e) :
    ReflTransGen Layer s e := ReflTransGen.mono (fun _ _ => .inl) _ _ h

theorem layers_unwrapConjunction (s : Spot) (hs : s.tree.isParenthesized = false) :
    ReflTransGen Layer s s.unwrapConjunction ∧ Bare s.unwrapConjunction := by
  fun_induction unwrapConjunction s with
  | case1 s h ih =>
    obtain ⟨hright, hbare⟩ := encloses_unwrapParentheses (s.get "right")
    obtain ⟨hrest, hend⟩ := ih hbare
    exact ⟨.head (.inr ⟨h, rfl⟩) ((layers_of_encloses hright).trans hrest), hend⟩
  | case2 s h => exact ⟨.refl, hs, by simpa using h⟩

theorem layers_normalized (s : Spot) : ReflTransGen Layer s s.normalized ∧ Bare s.normalized := by
  obtain ⟨hp, hbare⟩ := encloses_unwrapParentheses s
  obtain ⟨hc, hend⟩ := layers_unwrapConjunction _ hbare
  exact ⟨(layers_of_encloses hp).trans hc, hend⟩

/-- The bare value under the layers is the normalized one. -/
theorem layers_iff {s e : Spot} (he : Bare e) : ReflTransGen Layer s e ↔ e = s.normalized := by
  obtain ⟨hs, hbare⟩ := layers_normalized s
  constructor
  · exact fun h => he.eq_of_layers hbare h hs
  · rintro rfl
    exact hs

/-- The value inside all parentheses is determined. -/
theorem encloses_iff {s e : Spot} (he : e.tree.isParenthesized = false) :
    ReflTransGen Encloses s e ↔ e = s.unwrapParentheses := by
  obtain ⟨hs, hbare⟩ := encloses_unwrapParentheses s
  refine ⟨fun h => ?_, fun h => h ▸ hs⟩
  have unique : Relator.RightUnique Encloses := fun _ _ _ h h' => h.2.trans h'.2.symm
  rcases ReflTransGen.total_of_right_unique unique h hs with hee | hee
  · rcases hee.cases_head with heq | ⟨_, ⟨hp, -⟩, -⟩
    · exact heq
    · exact absurd (he.symm.trans hp) Bool.false_ne_true
  · rcases hee.cases_head with heq | ⟨_, ⟨hp, -⟩, -⟩
    · exact heq.symm
    · exact absurd (hbare.symm.trans hp) Bool.false_ne_true

/-! ## What is revealed -/

theorem not_branch_of_isA {s b : Spot} {kind : String} (h : s.tree.isA kind = true)
    (hk : kind ≠ "ConditionalExpression") : ¬Branch s b := by
  rintro ⟨hc, -⟩
  exact hk (Tree.isA_unique h hc)

/-- A layer reveals what the value under it reveals. -/
theorem reveals_of_layer {s e x : Spot} (h : Layer s e) (hx : Bare x) :
    Reveals s x ↔ Reveals e x := by
  refine ⟨fun hs => ?_, fun he => .head (.inl h) he⟩
  rcases hs.cases_head with rfl | ⟨e', hstep | hstep, hrest⟩
  · exact absurd h hx.not_layer
  · exact h.unique hstep ▸ hrest
  · exact absurd h (bare_of_isConditional hstep.1).not_layer

theorem reveals_normalized {s x : Spot} (hx : Bare x) : Reveals s x ↔ Reveals s.normalized x := by
  have h := (layers_normalized s).1
  generalize s.normalized = e at h
  induction h using ReflTransGen.head_induction_on with
  | refl => rfl
  | head hstep _ ih => exact (reveals_of_layer hstep hx).trans ih

/-- An expression whose normal form is no conditional reveals just that form. -/
theorem reveals_iff_eq {s x : Spot} (hs : s.normalized.tree.isConditional = false) (hx : Bare x) :
    Reveals s x ↔ x = s.normalized := by
  rw [reveals_normalized hx]
  constructor
  · intro h
    rcases h.cases_head with heq | ⟨_, hstep | hstep, -⟩
    · exact heq.symm
    · exact absurd hstep (layers_normalized s).2.not_layer
    · exact absurd (hs.symm.trans hstep.1) Bool.false_ne_true
  · rintro rfl
    exact .refl

/-- An expression whose normal form is a conditional reveals what the two branches reveal. -/
theorem reveals_iff_branches {s x : Spot} (hs : s.normalized.tree.isConditional = true)
    (hx : Bare x) (hxc : x.tree.isConditional = false) :
    Reveals s x ↔
      Reveals (s.normalized.get "consequent") x ∨ Reveals (s.normalized.get "alternate") x := by
  rw [reveals_normalized hx]
  constructor
  · intro h
    rcases h.cases_head with rfl | ⟨b, hstep | hstep, hrest⟩
    · exact absurd (hxc.symm.trans hs) Bool.false_ne_true
    · exact absurd hstep (layers_normalized s).2.not_layer
    · rcases hstep.2 with rfl | rfl
      · exact .inl hrest
      · exact .inr hrest
  · rintro (h | h)
    · exact .head (.inr ⟨hs, .inl rfl⟩) h
    · exact .head (.inr ⟨hs, .inr rfl⟩) h

/-! ## What is rendered -/

/-- Going through the children of every fragment that the expression reveals is possible. -/
def Open (s : Spot) : Prop :=
  ∀ f, Reveals s f → f.tree.isFragment = true → ∃ es, (f.tree.get "children").entries = .ok es

theorem renders_of_not_conditional {s x : Spot}
    (hs : s.normalized.tree.isConditional = false) :
    Renders s x ↔ (s.normalized.tree.isElement = true ∧ x = s.normalized) ∨
      (s.normalized.tree.isFragment = true ∧ Offers s.normalized x) := by
  constructor
  · rintro (⟨h, hx⟩ | ⟨h, hf, hx⟩)
    · obtain rfl := (reveals_iff_eq hs (bare_of_isElement hx)).mp h
      exact .inl ⟨hx, rfl⟩
    · obtain rfl := (reveals_iff_eq hs (bare_of_isFragment hf)).mp h
      exact .inr ⟨hf, hx⟩
  · rintro (⟨hx, rfl⟩ | ⟨hf, hx⟩)
    · exact .element ((reveals_iff_eq hs (bare_of_isElement hx)).mpr rfl) hx
    · exact .fragment ((reveals_iff_eq hs (bare_of_isFragment hf)).mpr rfl) hf hx

theorem open_of_not_conditional {s : Spot} (hs : s.normalized.tree.isConditional = false) :
    Open s ↔ (s.normalized.tree.isFragment = true →
      ∃ es, (s.normalized.tree.get "children").entries = .ok es) := by
  constructor
  · exact fun h hf => h _ ((reveals_iff_eq hs (bare_of_isFragment hf)).mpr rfl) hf
  · intro h f hr hf
    obtain rfl := (reveals_iff_eq hs (bare_of_isFragment hf)).mp hr
    exact h hf

theorem reveals_element_iff_branches {s x : Spot} (hs : s.normalized.tree.isConditional = true)
    (hx : x.tree.isElement = true) : Reveals s x ↔
      Reveals (s.normalized.get "consequent") x ∨ Reveals (s.normalized.get "alternate") x :=
  reveals_iff_branches hs (bare_of_isElement hx) (Tree.not_isA hx (by decide))

theorem reveals_fragment_iff_branches {s f : Spot} (hs : s.normalized.tree.isConditional = true)
    (hf : f.tree.isFragment = true) : Reveals s f ↔
      Reveals (s.normalized.get "consequent") f ∨ Reveals (s.normalized.get "alternate") f :=
  reveals_iff_branches hs (bare_of_isFragment hf) (Tree.not_isA hf (by decide))

theorem renders_of_conditional {s x : Spot} (hs : s.normalized.tree.isConditional = true) :
    Renders s x ↔
      Renders (s.normalized.get "consequent") x ∨ Renders (s.normalized.get "alternate") x := by
  constructor
  · rintro (⟨h, hx⟩ | ⟨h, hf, hx⟩)
    · exact ((reveals_element_iff_branches hs hx).mp h).imp (.element · hx) (.element · hx)
    · exact ((reveals_fragment_iff_branches hs hf).mp h).imp (.fragment · hf hx) (.fragment · hf hx)
  · rintro ((⟨h, hx⟩ | ⟨h, hf, hx⟩) | (⟨h, hx⟩ | ⟨h, hf, hx⟩))
    · exact .element ((reveals_element_iff_branches hs hx).mpr (.inl h)) hx
    · exact .fragment ((reveals_fragment_iff_branches hs hf).mpr (.inl h)) hf hx
    · exact .element ((reveals_element_iff_branches hs hx).mpr (.inr h)) hx
    · exact .fragment ((reveals_fragment_iff_branches hs hf).mpr (.inr h)) hf hx

theorem open_of_conditional {s : Spot} (hs : s.normalized.tree.isConditional = true) :
    Open s ↔ Open (s.normalized.get "consequent") ∧ Open (s.normalized.get "alternate") := by
  constructor
  · intro h
    exact ⟨fun f hr hf => h f ((reveals_fragment_iff_branches hs hf).mpr (.inl hr)) hf,
      fun f hr hf => h f ((reveals_fragment_iff_branches hs hf).mpr (.inr hr)) hf⟩
  · rintro ⟨hc, ha⟩ f hr hf
    rcases (reveals_fragment_iff_branches hs hf).mp hr with hr | hr
    · exact hc f hr hf
    · exact ha f hr hf

theorem normalized_of_not_conjunction {s : Spot}
    (h : s.unwrapParentheses.tree.isConjunction = false) : s.normalized = s.unwrapParentheses := by
  rw [normalized, unwrapConjunction, dif_neg (by simp [h])]

/-- What braces embed, by the two loops over layers. -/
theorem embeds_iff {s x : Spot} :
    Embeds s x ↔ x.tree.isElement = true ∧
      (x = s.normalized ∨ ∃ b, Branch s.unwrapParentheses b ∧ x = b.unwrapParentheses) := by
  constructor
  · rintro (⟨h, hx⟩ | ⟨h, hb, hbx, hx⟩)
    · exact ⟨hx, .inl ((layers_iff (bare_of_isElement hx)).mp h)⟩
    · obtain rfl := (encloses_iff (bare_of_isConditional hb.1).1).mp h
      exact ⟨hx, .inr ⟨_, hb, (encloses_iff (bare_of_isElement hx).1).mp hbx⟩⟩
  · rintro ⟨hx, rfl | ⟨b, hb, rfl⟩⟩
    · exact .chain (layers_normalized s).1 hx
    · exact .branch (encloses_unwrapParentheses s).1 hb (encloses_unwrapParentheses b).1 hx

end Spot

end TopTag
