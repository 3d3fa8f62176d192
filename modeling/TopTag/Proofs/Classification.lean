import TopTag.Proofs.Located

/-!
# Returned and embedded expressions

An expression that is returned and one that stands in braces are looked at in two ways. The first
takes layers and branches off until none is left, the second goes one branch deep and passes
fragments over. So whatever the second marks, the first marks too, and on an expression with nothing
for the first to go deeper into (`Spot.Simple`) the two are the same computation.
-/

namespace TopTag

open Spot Relation Marking

namespace Spot

/-- Inside its parentheses the expression is no fragment, no conjunction that ends in a conditional
or a fragment, and no conditional with a branch that is, inside parentheses of its own, a
conjunction, a conditional or a fragment. -/
structure Simple (s : Spot) : Prop where
  fragment : ∀ e, ReflTransGen Encloses s e → e.tree.isFragment = false
  conjunction : ∀ e x, ReflTransGen Encloses s e → e.tree.isConjunction = true →
    ReflTransGen Layer e x → x.tree.isConditional = false ∧ x.tree.isFragment = false
  branch : ∀ e b x, ReflTransGen Encloses s e → Branch e b → ReflTransGen Encloses b x →
    x.tree.isConjunction = false ∧ x.tree.isConditional = false ∧ x.tree.isFragment = false

section

variable {s e x : Spot}

theorem reveals_of_encloses (h : ReflTransGen Encloses s x) : Reveals s x :=
  ReflTransGen.mono (fun _ _ h => .inl (.inl h)) _ _ h

/-- What braces embed is rendered by the same expression when it is returned. -/
theorem Embeds.renders (h : Embeds s x) : Renders s x := by
  cases h with
  | chain h hx => exact .element (ReflTransGen.mono (fun _ _ => .inl) _ _ h) hx
  | branch h hb hbx hx =>
    have hbranch : Reveals s _ := (reveals_of_encloses h).tail (.inr hb)
    exact .element (hbranch.trans (reveals_of_encloses hbx)) hx

theorem not_isParenthesized_of_isConjunction (h : e.tree.isConjunction = true) :
    e.tree.isParenthesized = false :=
  Tree.not_isA (Tree.isA_of_isConjunction h) (by decide)

/-- What is no pair of parentheses is met at the end of the parentheses only. -/
theorem eq_false_of_encloses {p : Tree → Bool}
    (hp : ∀ e : Spot, p e.tree = true → e.tree.isParenthesized = false)
    (hs : p s.unwrapParentheses.tree = false) (h : ReflTransGen Encloses s x) :
    p x.tree = false := by
  cases hx : p x.tree with
  | false => rfl
  | true =>
    obtain rfl := (encloses_iff (hp x hx)).mp h
    exact hx.symm.trans hs

/-- The condition in terms of the two loops that take layers off. -/
theorem simple_iff : Simple s ↔
    s.unwrapParentheses.tree.isFragment = false ∧
    (s.unwrapParentheses.tree.isConjunction = true →
      s.normalized.tree.isConditional = false ∧ s.normalized.tree.isFragment = false) ∧
    ∀ b, Branch s.unwrapParentheses b → b.unwrapParentheses.tree.isConjunction = false ∧
      b.unwrapParentheses.tree.isConditional = false ∧
      b.unwrapParentheses.tree.isFragment = false := by
  have hs := (encloses_unwrapParentheses s).1
  constructor
  · rintro ⟨hfragment, hconjunction, hbranch⟩
    refine ⟨hfragment _ hs, fun hc => ?_, fun b hb => ?_⟩
    · exact hconjunction _ _ hs hc (layers_unwrapConjunction _ (encloses_unwrapParentheses s).2).1
    · exact hbranch _ b _ hs hb (encloses_unwrapParentheses b).1
  · rintro ⟨hfragment, hconjunction, hbranch⟩
    refine ⟨fun e he => ?_, fun e x he hc hx => ?_, fun e b x he hb hx => ?_⟩
    · exact eq_false_of_encloses (fun e h => (bare_of_isFragment h).1) hfragment he
    · obtain rfl := (encloses_iff (not_isParenthesized_of_isConjunction hc)).mp he
      have hlayers := (layers_of_encloses hs).trans hx
      constructor
      · cases hk : x.tree.isConditional with
        | false => rfl
        | true =>
          obtain rfl := (layers_iff (bare_of_isConditional hk)).mp hlayers
          exact hk.symm.trans (hconjunction hc).1
      · cases hk : x.tree.isFragment with
        | false => rfl
        | true =>
          obtain rfl := (layers_iff (bare_of_isFragment hk)).mp hlayers
          exact hk.symm.trans (hconjunction hc).2
    · obtain rfl := (encloses_iff (bare_of_isConditional hb.1).1).mp he
      obtain ⟨hconj, hcond, hfrag⟩ := hbranch b hb
      exact ⟨eq_false_of_encloses (fun _ => not_isParenthesized_of_isConjunction) hconj hx,
        eq_false_of_encloses (fun e h => (bare_of_isConditional h).1) hcond hx,
        eq_false_of_encloses (fun e h => (bare_of_isFragment h).1) hfrag hx⟩

end

end Spot

/-! ## One computation -/

section

variable {s : Spot}

/-- A returned expression that comes down to no conditional and no fragment is marked if it comes
down to an element. -/
theorem markReturnedAll_cons (pending : List Spot) (hc : s.normalized.tree.isConditional = false)
    (hf : s.normalized.tree.isFragment = false) :
    markReturnedAll (s :: pending) =
      (markIfElement s.normalized >>= fun _ => markReturnedAll pending) := by
  rw [markReturnedAll, markIfElement]
  simp only [hc, hf]
  split
  · rfl
  · simp

theorem markReturned_eq_markIfElement (hc : s.normalized.tree.isConditional = false)
    (hf : s.normalized.tree.isFragment = false) :
    markReturned s = markIfElement s.normalized := by
  rw [markReturned, markReturnedAll_cons [] hc hf, markReturnedAll]
  exact bind_pure_unit

/-- A returned conditional whose branches go no deeper is marked branch by branch. -/
theorem markReturned_of_branches (hc : s.normalized.tree.isConditional = true)
    (hb : ∀ b, Branch s.normalized b → b.unwrapParentheses.tree.isConjunction = false ∧
      b.unwrapParentheses.tree.isConditional = false ∧
      b.unwrapParentheses.tree.isFragment = false) :
    markReturned s = (markIfElement (s.normalized.get "consequent").unwrapParentheses >>= fun _ =>
      markIfElement (s.normalized.get "alternate").unwrapParentheses) := by
  have hbranch {b : Spot} (h : Branch s.normalized b) (pending : List Spot) :
      markReturnedAll (b :: pending) =
        (markIfElement b.unwrapParentheses >>= fun _ => markReturnedAll pending) := by
    obtain ⟨hconj, hcond, hfrag⟩ := hb b h
    have hnormal := normalized_of_not_conjunction hconj
    rw [markReturnedAll_cons pending (hnormal ▸ hcond) (hnormal ▸ hfrag), hnormal]
  have helement : ¬ s.normalized.tree.isElement = true := by
    simp [Tree.isElement, Tree.not_isA hc (by decide : _ ≠ "JSXElement")]
  have hfragment : ¬ s.normalized.tree.isFragment = true := by
    simp [Tree.isFragment, Tree.not_isA hc (by decide : _ ≠ "JSXFragment")]
  rw [markReturned, markReturnedAll, if_neg helement, if_neg hfragment, dif_pos hc,
    hbranch ⟨hc, .inl rfl⟩, hbranch ⟨hc, .inr rfl⟩, markReturnedAll]
  congr 1
  funext _
  exact bind_pure_unit

/-- On a simple expression the two ways of looking are one computation. -/
theorem markReturned_of_simple (h : Simple s) : markReturned s = markEmbedded s := by
  obtain ⟨hfragment, hconjunction, hbranch⟩ := simple_iff.mp h
  unfold markEmbedded
  cases hconj : s.unwrapParentheses.tree.isConjunction with
  | true =>
    obtain ⟨hc, hf⟩ := hconjunction hconj
    have helement : s.unwrapParentheses.tree.isElement = false :=
      Tree.not_isA (Tree.isA_of_isConjunction hconj) (by decide)
    simp only [helement, hconj, markReturned_eq_markIfElement hc hf]
    rfl
  | false =>
    have hnormal := normalized_of_not_conjunction hconj
    cases hcond : s.unwrapParentheses.tree.isConditional with
    | true =>
      have helement : s.unwrapParentheses.tree.isElement = false := Tree.not_isA hcond (by decide)
      rw [markReturned_of_branches (hnormal ▸ hcond) (hnormal ▸ hbranch), hnormal]
      simp only [helement, hconj, hcond]
      rfl
    | false =>
      rw [markReturned_eq_markIfElement (hnormal ▸ hcond) (hnormal ▸ hfragment), hnormal]
      simp only [hconj, hcond]
      rfl

end

/-- A computation whose condition holds gets through in every context. -/
theorem Marking.Marks.exists_exec {α : Type} {m : Marking α} {ok : Prop} {P : Identity → Prop}
    (h : Marks m ok P) (hok : ok) (c : FileContext) :
    ∃ a d, m.exec c = (.ok a, d) ∧ ∀ i, i ∈ d.marked ↔ i ∈ c.marked ∨ P i := by
  obtain ⟨r, log, hm, hr, hlog⟩ := h
  obtain ⟨a, rfl⟩ := hr.mpr hok
  refine ⟨a, _, hm c, fun i => ?_⟩
  rw [FileContext.mem_marked_markAll, hlog hok]

/-- Whenever an expression that is returned is gone through without fault, so is the same expression
in braces, and everything marked there is marked for the returned one. On a simple expression the
two end alike in every context, with the same marks, or the same fault and the same marks before
it. -/
theorem markEmbedded_of_markReturned (s : Spot) (c : FileContext) :
    (((markReturned s).exec c).1 = .ok () →
      ((markEmbedded s).exec c).1 = .ok () ∧
        ((markEmbedded s).exec c).2.marked ⊆ ((markReturned s).exec c).2.marked) ∧
    (Simple s → (markEmbedded s).exec c = (markReturned s).exec c) := by
  refine ⟨fun h => ?_, fun h => by rw [markReturned_of_simple h]⟩
  obtain ⟨⟨-, htags⟩, hmarks⟩ := (markReturned_marks s).of_exec (Prod.ext h rfl)
  obtain ⟨_, d, hrun, hmarks'⟩ := (markEmbedded_marks s).exists_exec
    ⟨trivial, fun x hx => htags x hx.renders⟩ c
  rw [hrun]
  refine ⟨rfl, fun i hi => (hmarks i).mpr ?_⟩
  rcases (hmarks' i).mp hi with hi | ⟨x, hx, hi⟩
  · exact .inl hi
  · exact .inr ⟨x, hx.renders, hi⟩

/-- One of two elements, in parentheses. -/
def plainChoice : Tree :=
  .object [("type", .text "ParenthesizedExpression"),
    ("expression", .object [("type", .text "ConditionalExpression"),
      ("consequent", .object [("type", .text "ParenthesizedExpression"),
        ("expression", innerElement)]),
      ("alternate", innerElement)])]

/-- One of two elements, the second behind a conjunction. -/
def guardedChoice : Tree :=
  .object [("type", .text "ConditionalExpression"), ("consequent", innerElement),
    ("alternate", .object [("type", .text "LogicalExpression"), ("operator", .text "&&"),
      ("right", innerElement)])]

theorem markEmbedded_of_choices :
    (∃ c, (markReturned (.root guardedChoice)).exec ⟨"src/App.tsx", []⟩ = (.ok (), c) ∧
      c.size = 2 ∧
      ∃ d, (markEmbedded (.root guardedChoice)).exec ⟨"src/App.tsx", []⟩ = (.ok (), d) ∧
        d.size = 1 ∧ d.marked ⊆ c.marked) ∧
    Simple (.root plainChoice) ∧
      ((markReturned (.root plainChoice)).exec ⟨"src/App.tsx", []⟩).2.size = 2 ∧
      (markEmbedded (.root plainChoice)).exec ⟨"src/App.tsx", []⟩ =
        (markReturned (.root plainChoice)).exec ⟨"src/App.tsx", []⟩ := by
  have hsimple : Simple (.root plainChoice) := by
    refine simple_iff.mpr ⟨by decide +kernel, fun h => absurd h (by decide +kernel), ?_⟩
    rintro b ⟨-, rfl | rfl⟩ <;> decide +kernel
  obtain ⟨_, hrun⟩ := eq_of_isOk
    (r := (markReturned (.root guardedChoice)).exec ⟨"src/App.tsx", []⟩) (by decide +kernel)
  obtain ⟨hok, hsub⟩ :=
    (markEmbedded_of_markReturned (.root guardedChoice) ⟨"src/App.tsx", []⟩).1 (by rw [hrun])
  refine ⟨⟨_, hrun, by decide +kernel, _, Prod.ext hok rfl, by decide +kernel, hsub⟩, hsimple,
    by decide +kernel, ?_⟩
  exact (markEmbedded_of_markReturned (.root plainChoice) ⟨"src/App.tsx", []⟩).2 hsimple

end TopTag
