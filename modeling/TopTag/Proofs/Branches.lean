import Mathlib.Logic.Function.Iterate
import TopTag.Proofs.Place
import TopTag.Proofs.Rendered
import TopTag.Topmost

/-!
# Returned expressions branch by branch

The search through a returned expression keeps a list of the values still to be looked at, and the
branches of a conditional go to its front. `markByBranch` is the recursion without a list: the first
branch is gone through to its end before the second is begun. As computations the two are one
(`markReturnedAll_eq_forM`), so they agree on every context, on the fault that stops them and on the
marks made until then. The search ends because each of its turns leaves less to be looked at
(`iterate_afterTurn_eq_nil`).
-/

namespace TopTag

open Relation

namespace Spot

/-- `x` stands somewhere in the value at `s`, or is all of it. -/
def Part (s x : Spot) : Prop := ∃ path, x.place = s.place ++ path ∧ s.tree.at? path = some x.tree

theorem Part.refl (s : Spot) : Part s s := ⟨[], by simp⟩

theorem Part.trans {s x y : Spot} (h : Part s x) (g : Part x y) : Part s y := by
  obtain ⟨path, hplace, hat⟩ := h
  obtain ⟨path', hplace', hat'⟩ := g
  refine ⟨path ++ path', ?_, ?_⟩
  · rw [hplace', hplace, List.append_assoc]
  · rw [Tree.at?_append, hat, Option.bind_some, hat']

/-- A field that is absent reads as `null`; any other stands in the object. -/
theorem null_or_part_get (s : Spot) (key : String) :
    (s.get key).tree = .null ∨ Part s (s.get key) := by
  cases h : s.tree.field? key with
  | none => exact .inl (by simp [Tree.get, h])
  | some t =>
    refine .inr ⟨[.field key], rfl, ?_⟩
    simp [Tree.at?_field, Tree.get, h]

theorem Layer.eq_get {s e : Spot} (h : Layer s e) : ∃ key, e = s.get key := by
  rcases h with ⟨-, rfl⟩ | ⟨-, rfl⟩
  · exact ⟨"expression", rfl⟩
  · exact ⟨"right", rfl⟩

theorem Layer.ne_null {s e : Spot} (h : Layer s e) : s.tree ≠ .null := by
  intro hnull
  refine Bare.not_layer ⟨?_, ?_⟩ h <;> rw [hnull] <;> rfl

/-- What stands under layers is a part of the value around it, unless the last layer is empty. -/
theorem null_or_part_of_layers {s e : Spot} (h : ReflTransGen Layer s e) :
    e.tree = .null ∨ Part s e := by
  induction h with
  | refl => exact .inr (.refl s)
  | tail _ hlayer ih =>
    obtain ⟨key, rfl⟩ := hlayer.eq_get
    have hpart := ih.resolve_left hlayer.ne_null
    exact (null_or_part_get _ key).imp_right hpart.trans

theorem weight_branch_lt {s : Spot} (h : s.normalized.tree.isConditional = true) (key : String) :
    (s.normalized.get key).tree.weight < s.tree.weight :=
  Nat.lt_of_lt_of_le (Tree.weight_get_lt_of_isA h key) (weight_normalized_le s)

end Spot

/-- Marks what a returned expression renders, the first branch of a conditional completely before
the second. -/
def markByBranch (s : Spot) : Marking Unit :=
  let e := s.normalized
  if e.tree.isElement then markElement e
  else if e.tree.isFragment then markFragmentChildren e
  else if _h : e.tree.isConditional = true then do
    markByBranch (e.get "consequent")
    markByBranch (e.get "alternate")
  else pure ()
termination_by s.tree.weight
decreasing_by
  · exact Spot.weight_branch_lt _h _
  · exact Spot.weight_branch_lt _h _

/-- The loop over the pending values is the recursion on each of them in turn. -/
theorem markReturnedAll_eq_forM (pending : List Spot) :
    markReturnedAll pending = pending.forM markByBranch := by
  fun_induction markReturnedAll pending with
  | case1 => rfl
  | case2 s pending e helement ih =>
    rw [List.forM, ih, markByBranch, if_pos helement]
  | case3 s pending e helement hfragment ih =>
    rw [List.forM, ih, markByBranch, if_neg helement, if_pos hfragment]
  | case4 s pending e helement hfragment hconditional ih =>
    -- the branches stand in front of the rest on one side, and in a block of their own on the other
    have hbranches : markByBranch s = (markByBranch (e.get "consequent") >>= fun _ =>
        markByBranch (e.get "alternate")) := by
      rw [markByBranch, if_neg helement, if_neg hfragment, dif_pos hconditional]
    rw [ih, List.forM, List.forM, List.forM, hbranches, bind_assoc]
  | case5 s pending e helement hfragment hconditional ih =>
    rw [List.forM, ih, markByBranch, if_neg helement, if_neg hfragment, dif_neg hconditional,
      pure_bind]

/-! ## Turns of the search -/

/-- Marks what a value comes down to, unless that is a conditional. -/
def markAtOnce (s : Spot) : Marking Unit :=
  if s.normalized.tree.isElement then markElement s.normalized
  else if s.normalized.tree.isFragment then markFragmentChildren s.normalized
  else pure ()

/-- The values that are pending after one turn. -/
def afterTurn : List Spot → List Spot
  | [] => []
  | s :: pending =>
    if s.normalized.tree.isConditional then
      s.normalized.get "consequent" :: s.normalized.get "alternate" :: pending
    else pending

/-- One turn takes the first pending value, and marks it or puts its branches in its place. -/
theorem markReturnedAll_cons_eq_turn (s : Spot) (pending : List Spot) :
    markReturnedAll (s :: pending) =
      (markAtOnce s >>= fun _ => markReturnedAll (afterTurn (s :: pending))) := by
  rw [markReturnedAll, markAtOnce, afterTurn]
  have hother {kind : String} (hk : "ConditionalExpression" ≠ kind)
      (hs : s.normalized.tree.isA kind = true) : s.normalized.tree.isConditional = false := by
    cases hc : s.normalized.tree.isConditional with
    | false => rfl
    | true => exact absurd (Tree.isA_unique hc hs) hk
  by_cases helement : s.normalized.tree.isElement = true
  · simp only [helement, hother (by decide) helement]
    rfl
  · by_cases hfragment : s.normalized.tree.isFragment = true
    · simp only [helement, hfragment, hother (by decide) hfragment]
      rfl
    · by_cases hconditional : s.normalized.tree.isConditional = true <;>
        simp [helement, hfragment, hconditional]

theorem pendingSpotWeight_afterTurn_lt (s : Spot) (pending : List Spot) :
    pendingSpotWeight (afterTurn (s :: pending)) < pendingSpotWeight (s :: pending) := by
  rw [afterTurn]
  split
  · rename_i hconditional
    exact pending_branches_lighter hconditional pending
  · exact pending_shorter s pending

/-- After as many turns as the pending values weigh, none is left. -/
theorem iterate_afterTurn_eq_nil {n : Nat} {pending : List Spot}
    (h : pendingSpotWeight pending ≤ n) : afterTurn^[n] pending = [] := by
  induction n generalizing pending with
  | zero =>
    cases pending with
    | nil => rfl
    | cons s pending =>
      simp only [pendingSpotWeight, total_cons] at h
      omega
  | succ n ih =>
    rw [Function.iterate_succ_apply]
    cases pending with
    | nil => exact ih (Nat.zero_le n)
    | cons s pending =>
      have hlt := pendingSpotWeight_afterTurn_lt s pending
      exact ih (by omega)

/-- The search through a returned expression is the recursion by branches: in every context it ends
alike, with the same marks or with the same fault and the same marks made before it. Nothing is
pending after one turn for the expression and two for each list and object in it. What an expression
comes down to is a part of it, or `null` where a layer is empty, and no layer itself. -/
theorem markReturned_eq_markByBranch (s : Spot) :
    (∀ c, (markReturned s).exec c = (markByBranch s).exec c) ∧
    (∀ x pending, markReturnedAll (x :: pending) =
      (markAtOnce x >>= fun _ => markReturnedAll (afterTurn (x :: pending)))) ∧
    afterTurn^[2 * s.tree.weight + 1] [s] = [] ∧
    s.normalized.tree.isParenthesized = false ∧ s.normalized.tree.isConjunction = false ∧
    (s.normalized.tree = .null ∨ s.Part s.normalized) := by
  obtain ⟨hlayers, hparentheses, hconjunction⟩ := s.layers_normalized
  refine ⟨fun c => ?_, markReturnedAll_cons_eq_turn, iterate_afterTurn_eq_nil (Nat.le_refl _),
    hparentheses, hconjunction, Spot.null_or_part_of_layers hlayers⟩
  rw [markReturned, markReturnedAll_eq_forM, List.forM, List.forM, bind_pure_unit]

/-- A choice between an element and an element without an opening tag: the first is marked before
the second stops the search. -/
example :
    let choice : Tree := .object [("type", .text "ConditionalExpression"),
      ("consequent", .object [("type", .text "JSXElement"), ("openingElement", .object [])]),
      ("alternate", .object [("type", .text "JSXElement")])]
    let run := (markReturned (.root choice)).exec ⟨"src/App.tsx", []⟩
    run.1.isOk = false ∧
      run.2.marked = [.place [.field "consequent", .field "openingElement"]] := by
  decide +kernel

end TopTag
