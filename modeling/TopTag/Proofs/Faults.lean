import TopTag.Proofs.Collected
import TopTag.Proofs.Unfailing

/-!
# When tagging fails

Tagging fails for two reasons. The search may meet an obstacle, and then the tree is as it was: no
attribute is appended before all topmost elements are found. Or a marked tag refuses attributes,
because it has some that are no list; then the tags in front of it on the walk have got theirs
(`fault_run_iff`). Both reasons are said of the tree alone.
-/

namespace TopTag

open Spot Relation

/-! ## Obstacles to the search -/

namespace Tree

/-- A list or an object; such a kind cannot be looked up. -/
def isCompound : Tree → Bool
  | .list _ | .object _ => true
  | _ => false

/-- A number other than zero, or `true`: it is there, but cannot be gone through. -/
def isSolid : Tree → Bool
  | .bool value => value
  | .int value => value != 0
  | .float value => value != 0
  | _ => false

theorem exists_isFunctionKind_iff {t : Tree} :
    (∃ b, isFunctionKind t = .ok b) ↔ t.isCompound = false := by
  cases t <;> simp [isFunctionKind, isCompound]

theorem exists_entries_iff {t : Tree} : (∃ es, t.entries = .ok es) ↔ t.isSolid = false := by
  unfold entries
  split
  · cases t <;> simp_all [isVoid, isSolid, bne]
  · cases t <;> simp_all [isVoid, isSolid, bne]

end Tree

/-- What stops a search of the tree: the root is no node; a variable begins as a node whose kind is
a list or an object; an element that is rendered or embedded has no opening tag; a fragment that is
rendered has children that cannot be gone through. -/
inductive Obstacle (t : Tree) : Prop
  | root (hroot : t.isNode = false)
  | kind {x : Spot} (hx : Within (.root t) x) (hvariable : x.tree.isA "VariableDeclarator" = true)
      (hinit : (x.tree.get "init").isNode = true)
      (hkind : (x.tree.get "init").kind.isCompound = true)
  | element {x : Spot} (hx : Topmost (.root t) x)
      (htag : x.tree.field? "openingElement" = none)
  | fragment {s e f : Spot} (hs : Within (.root t) s) (he : ReturnSite s e) (hf : Reveals e f)
      (hfragment : f.tree.isFragment = true) (hchildren : (f.tree.get "children").isSolid = true)

section

variable {t : Tree}

theorem scannable_of_not_obstacle (h : ¬ Obstacle t) {x : Spot} (hx : Within (.root t) x) :
    Scannable x := by
  have hroot : t.isNode = true := by
    by_contra hnot
    exact h (.root (by simpa using hnot))
  refine ⟨⟨isNode_of_within hroot hx, fun hvariable hinit => ?_⟩, fun e he f hf hfragment => ?_⟩
  · apply Tree.exists_isFunctionKind_iff.mpr
    by_contra hnot
    exact h (.kind hx hvariable hinit (by simpa using hnot))
  · apply Tree.exists_entries_iff.mpr
    by_contra hnot
    exact h (.fragment hx he hf hfragment (by simpa using hnot))

/-- The search gets through exactly when nothing stops it. -/
theorem searchable_iff : ((∀ x, Within (.root t) x → Scannable x) ∧
    ∀ x, Topmost (.root t) x → x.HasTag) ↔ ¬ Obstacle t := by
  constructor
  · rintro ⟨hscan, htags⟩ hobstacle
    cases hobstacle with
    | root hroot =>
      have hnode := (hscan _ .refl).1.1
      rw [Spot.root] at hnode
      simp [hroot] at hnode
    | kind hx hvariable hinit hkind =>
      have hplain := Tree.exists_isFunctionKind_iff.mp ((hscan _ hx).1.2 hvariable hinit)
      simp [hkind] at hplain
    | element hx htag =>
      have hhas := htags _ hx
      simp [HasTag, htag] at hhas
    | fragment hs he hf hfragment hchildren =>
      have hopen := Tree.exists_entries_iff.mp ((hscan _ hs).2 _ he _ hf hfragment)
      simp [hchildren] at hopen
  · intro h
    refine ⟨fun x => scannable_of_not_obstacle h, fun x hx => ?_⟩
    by_contra hnot
    exact h (.element hx (by simpa [HasTag] using hnot))

/-- A run whose search is stopped leaves the tree alone. -/
theorem run_of_stopped {call : TagCall} (hon : call.enabled = true) {fault : Fault}
    {log : List Identity} (hloc : (locate (.root t)).Leaves (.error fault) log) :
    (call.run t).tree = t ∧ (call.run t).fault = some fault := by
  simp only [TagCall.run, tagTree, tagAt, if_pos (show call.settings.enabled = true from hon),
    Tree.at?_nil, Option.getD_some]
  rw [locateTopmost, ← Spot.root, hloc]
  exact ⟨rfl, rfl⟩

end

/-! ## Tags that refuse -/

section

variable {c : FileContext} {name : String} {t : Tree}

/-- Visits that meet no fault are followed by the others. -/
theorem injectEach_append {before rest : List Spot} {pass pass' : Pass}
    (h : injectEach c name before pass = (pass', none)) :
    injectEach c name (before ++ rest) pass = injectEach c name rest pass' := by
  induction before generalizing pass with
  | nil =>
    cases h
    rfl
  | cons s before ih =>
    rw [List.cons_append, injectEach]
    rw [injectEach] at h
    split at h
    · cases h
    · exact ih h
    · exact ih h

/-- A pass ends at the first marked tag that refuses the attribute, and the targets in front of it
have got theirs. -/
theorem inject_of_refusal (name : String) (ht : t.hasDistinctKeys = true) (hnode : t.isNode = true)
    {before after : List Spot} {bad : Spot}
    (hspots : (walk (.root t)).map Visit.spot = before ++ bad :: after)
    (hbad : bad.isMarkedTag c = true) (hrefuses : bad.tree.isAppendable = false)
    (hbefore : ∀ s ∈ before, s.isMarkedTag c = true → s.tree.isAppendable = true) :
    ∃ fault, (inject c name t []).2 = some fault ∧ (inject c name t []).1.tree =
      t.withAttributes (.across ((before.filter (·.isTarget c name)).map Spot.place)
        (name, c.filePath)) [] := by
  have hwithin : ∀ s ∈ before ++ bad :: after, Within (.root t) s :=
    fun s hs => mem_map_walk.mp (hspots ▸ hs)
  have hfront : ∀ s ∈ before, Within (.root t) s :=
    fun s hs => hwithin s (List.mem_append_left _ hs)
  have horder : (before ++ bad :: after).Pairwise fun s s' => ¬ s'.place <+: s.place := by
    rw [← hspots]
    exact List.pairwise_map.mpr (walk_pairwise ht)
  have hloop := injectEach_eq name ht
    (fun s hs => (at_root t).within ht (hfront s hs))
    (fun s hs => isNode_of_within hnode (hfront s hs)) hbefore
    (List.pairwise_append.mp horder).1 [] (by simp) 0
  rw [Tree.withAttributes_across_nil, List.nil_append] at hloop
  obtain ⟨fault, hfault⟩ := tagged?_of_not_isAppendable name
    (isNode_of_within hnode (hwithin bad (by simp))) hbad hrefuses
  rw [inject_eq_injectEach, hspots, injectEach_append hloop, injectEach, hfault]
  exact ⟨fault, rfl, rfl⟩

/-- A pass over a node either finds that every marked tag can take the attribute, and then meets no
fault, or it comes to a first one that refuses. -/
theorem inject_cases (c : FileContext) (name : String) (ht : t.hasDistinctKeys = true)
    (hnode : t.isNode = true) :
    (∀ s, Within (.root t) s → s.isMarkedTag c = true → s.tree.isAppendable = true) ∧
      (inject c name t []).2 = none ∨
    ∃ before bad after, (walk (.root t)).map Visit.spot = before ++ bad :: after ∧
      (bad.isMarkedTag c = true ∧ bad.tree.isAppendable = false) ∧
      (∀ s ∈ before, s.isMarkedTag c = true → s.tree.isAppendable = true) ∧
      (∃ fault, (inject c name t []).2 = some fault) ∧ (inject c name t []).1.tree =
        t.withAttributes (.across ((before.filter (·.isTarget c name)).map Spot.place)
          (name, c.filePath)) [] := by
  cases hfind : ((walk (.root t)).map Visit.spot).find? fun s =>
      s.isMarkedTag c && !s.tree.isAppendable with
  | none =>
    have happ : ∀ s, Within (.root t) s → s.isMarkedTag c = true →
        s.tree.isAppendable = true := by
      intro s hs hmark
      have hs := List.find?_eq_none.mp hfind s (mem_map_walk.mpr hs)
      simpa [hmark] using hs
    exact .inl ⟨happ, by rw [inject_eq name ht hnode happ]⟩
  | some bad =>
    obtain ⟨hbad, before, after, hspots, hbefore⟩ := List.find?_eq_some_iff_append.mp hfind
    rw [Bool.and_eq_true, Bool.not_eq_true'] at hbad
    have happ : ∀ s ∈ before, s.isMarkedTag c = true → s.tree.isAppendable = true := by
      intro s hs hmark
      simpa [hmark] using hbefore s hs
    obtain ⟨fault, hfault, htree⟩ := inject_of_refusal name ht hnode hspots hbad.1 hbad.2 happ
    exact .inr ⟨before, bad, after, hspots, hbad, happ, ⟨fault, hfault⟩, htree⟩

end

/-! ## Runs -/

/-- The spot is the opening tag of a topmost element. -/
def TopmostTag (t : Tree) (s : Spot) : Prop :=
  s.tree.isA "JSXOpeningElement" = true ∧
    ∃ x, Topmost (.root t) x ∧ s = x.get "openingElement"

section

variable {t : Tree} {s : Spot}

theorem TopmostTag.within (h : TopmostTag t s) : Within (.root t) s := by
  obtain ⟨hkind, x, hx, rfl⟩ := h
  exact hx.within.tail (child_get (by decide) (Tree.isNode_of_isA hkind))

/-- The marked opening tags are those of the topmost elements. -/
theorem isMarkedTag_iff_topmostTag (ht : t.hasDistinctKeys = true) {k : Nat}
    {log : List Identity} (hloc : (locate (.root t)).Leaves (.ok k) log) (display : String)
    (hs : Within (.root t) s) :
    s.isMarkedTag (.ofLog display log) = true ↔ TopmostTag t s := by
  rw [isMarkedTag_ofLog_iff ht hloc display hs]
  constructor
  · rintro ⟨hkind, x, hx, -, rfl⟩
    exact ⟨hkind, x, hx, rfl⟩
  · rintro ⟨hkind, x, hx, rfl⟩
    exact ⟨hkind, x, hx, (locate_exec (hloc ⟨"", []⟩)).1 x hx, rfl⟩

/-- With an obstacle the run fails, and the tree is as it was. -/
theorem run_of_obstacle {call : TagCall} (hon : call.enabled = true) (h : Obstacle t) :
    (call.run t).tree = t ∧ (call.run t).fault.isSome = true := by
  obtain ⟨r, log, hleaves, hok, -⟩ := locate_marks (.root t)
  rw [searchable_iff] at hok
  cases r with
  | error fault =>
    obtain ⟨htree, hfault⟩ := run_of_stopped hon hleaves
    exact ⟨htree, by rw [hfault]; rfl⟩
  | ok k => exact absurd h (hok.mp ⟨k, rfl⟩)

/-- On the walk, `bad` is the first opening tag of a topmost element whose attributes are there and
no list, and `before` is what the walk meets before it. -/
def FirstRefusal (t : Tree) (before : List Spot) (bad : Spot) : Prop :=
  (∃ after, (walk (.root t)).map Visit.spot = before ++ bad :: after) ∧
    (TopmostTag t bad ∧ bad.tree.isAppendable = false) ∧
    ∀ s ∈ before, TopmostTag t s → s.tree.isAppendable = true

/-- Without an obstacle the run goes through, or it ends at the first tag that refuses. -/
theorem run_of_not_obstacle (ht : t.hasDistinctKeys = true) {call : TagCall}
    (hon : call.enabled = true) (h : ¬ Obstacle t) :
    (∀ s, TopmostTag t s → s.tree.isAppendable = true) ∧ (call.run t).fault = none ∨
    ∃ before bad, FirstRefusal t before bad ∧ ∃ lacking : List Spot,
      (∀ s, s ∈ lacking ↔ s ∈ before ∧ TopmostTag t s ∧ s.tree.carries call.name = false) ∧
      (call.run t).fault.isSome = true ∧ (call.run t).tree =
        t.withAttributes (.across (lacking.map Spot.place) (call.name, call.display)) [] := by
  obtain ⟨r, log, hleaves, hok, -⟩ := locate_marks (.root t)
  obtain ⟨k, rfl⟩ := hok.mpr (searchable_iff.mpr h)
  have hnode : t.isNode = true := (scannable_of_not_obstacle h .refl).1.1
  have hmarked {s : Spot} (hs : Within (.root t) s) :
      s.isMarkedTag (.ofLog call.display log) = true ↔ TopmostTag t s :=
    isMarkedTag_iff_topmostTag ht hleaves call.display hs
  obtain ⟨htree, hfault⟩ := run_of_enabled hon hleaves
  rw [htree, hfault]
  rcases inject_cases (.ofLog call.display log) call.name ht hnode with
    ⟨happ, hnone⟩ | ⟨before, bad, after, hspots, ⟨hbad, hrefuses⟩, hbefore, ⟨fault, hsome⟩, hleft⟩
  · exact .inl ⟨fun s htag => happ s htag.within ((hmarked htag.within).mpr htag), hnone⟩
  · have hwithin : ∀ s ∈ before ++ bad :: after, Within (.root t) s :=
      fun s hs => mem_map_walk.mp (hspots ▸ hs)
    have hfront : ∀ s ∈ before, Within (.root t) s :=
      fun s hs => hwithin s (List.mem_append_left _ hs)
    rw [FileContext.filePath_ofLog] at hleft
    refine .inr ⟨before, bad, ⟨⟨after, hspots⟩, ⟨?_, hrefuses⟩, ?_⟩, _, ?_,
      Option.isSome_of_eq_some hsome, hleft⟩
    · exact (hmarked (hwithin bad (by simp))).mp hbad
    · exact fun s hs htag => hbefore s hs ((hmarked (hfront s hs)).mpr htag)
    · intro s
      rw [List.mem_filter, isTarget, Bool.and_eq_true, Bool.not_eq_true']
      exact and_congr_right fun hs => and_congr_left fun _ => hmarked (hfront s hs)

end

/-- An enabled run fails exactly when the tree has an obstacle to the search, or an opening tag of a
topmost element has attributes that are no list. With an obstacle the tree is as it was. Otherwise
it has the attribute at those tags of topmost elements without it that stand on the walk before the
first one that refuses. -/
theorem fault_run_iff (t : Tree) (ht : t.hasDistinctKeys = true) (call : TagCall)
    (hon : call.enabled = true) :
    ((call.run t).fault.isSome = true ↔
      Obstacle t ∨ ∃ s, TopmostTag t s ∧ s.tree.isAppendable = false) ∧
    (Obstacle t → (call.run t).tree = t) ∧
    (¬ Obstacle t → (call.run t).fault.isSome = true → ∃ before bad,
      FirstRefusal t before bad ∧ ∃ lacking : List Spot,
      (∀ s, s ∈ lacking ↔ s ∈ before ∧ TopmostTag t s ∧ s.tree.carries call.name = false) ∧
      (call.run t).tree =
        t.withAttributes (.across (lacking.map Spot.place) (call.name, call.display)) []) := by
  by_cases h : Obstacle t
  · obtain ⟨htree, hfault⟩ := run_of_obstacle hon h
    exact ⟨⟨fun _ => .inl h, fun _ => hfault⟩, fun _ => htree, fun hnot => absurd h hnot⟩
  · rcases run_of_not_obstacle ht hon h with
      ⟨happ, hnone⟩ | ⟨before, bad, hfirst, lacking, hlacking, hfault, htree⟩
    · refine ⟨?_, fun hobstacle => absurd hobstacle h, ?_⟩
      · rw [hnone]
        refine ⟨nofun, ?_⟩
        rintro (hobstacle | ⟨s, htag, hrefuses⟩)
        · exact absurd hobstacle h
        · simp [happ s htag] at hrefuses
      · rw [hnone]
        exact fun _ => nofun
    · refine ⟨⟨fun _ => .inr ⟨bad, hfirst.2.1⟩, fun _ => hfault⟩,
        fun hobstacle => absurd hobstacle h, fun _ _ => ?_⟩
      exact ⟨before, bad, hfirst, lacking, hlacking, htree⟩

/-- A component that returns one of two elements; the tag of the second has no list. -/
def refusingComponent : Tree :=
  .object [("type", .text "FunctionDeclaration"),
    ("body", .object [("type", .text "ReturnStatement"),
      ("argument", .object [("type", .text "ConditionalExpression"),
        ("consequent", .object [("type", .text "JSXElement"),
          ("openingElement", .object [("type", .text "JSXOpeningElement")])]),
        ("alternate", .object [("type", .text "JSXElement"),
          ("openingElement", .object [("type", .text "JSXOpeningElement"),
            ("attributes", .null)])])])])]

theorem fault_run_refusingComponent :
    refusingComponent.hasDistinctKeys = true ∧ choiceCall.enabled = true ∧
    ¬ Obstacle refusingComponent ∧ (choiceCall.run refusingComponent).fault.isSome = true ∧
    (∃ s, TopmostTag refusingComponent s ∧ s.tree.isAppendable = false) ∧
    ∃ before bad, FirstRefusal refusingComponent before bad ∧ ∃ lacking : List Spot,
      (∀ s, s ∈ lacking ↔ s ∈ before ∧ TopmostTag refusingComponent s ∧
        s.tree.carries choiceCall.name = false) ∧
      (choiceCall.run refusingComponent).tree = refusingComponent.withAttributes
        (.across (lacking.map Spot.place) (choiceCall.name, choiceCall.display)) [] := by
  have hkeys : refusingComponent.hasDistinctKeys = true := by decide +kernel
  have hfault : (choiceCall.run refusingComponent).fault.isSome = true := by decide +kernel
  obtain ⟨hiff, hsame, hrefused⟩ := fault_run_iff refusingComponent hkeys choiceCall rfl
  -- the first tag has got the attribute, so nothing stopped the search
  have hclear : ¬ Obstacle refusingComponent := by
    intro hobstacle
    have htagged : ((choiceCall.run refusingComponent).tree.at? [.field "body", .field "argument",
        .field "consequent", .field "openingElement"]).any (·.carries "data-path") = true := by
      decide +kernel
    rw [hsame hobstacle] at htagged
    exact absurd htagged (by decide +kernel)
  have hrefusal := (hiff.mp hfault).resolve_left hclear
  exact ⟨hkeys, rfl, hclear, hfault, hrefusal, hrefused hclear hfault⟩

end TopTag
