import TopTag.Proofs.Located
import TopTag.Proofs.Place

/-!
# Topmost elements are topmost

The way from a return, an arrow function or an attribute down to the element that it renders leads
through parentheses, conjunctions, conditionals, fragments and braces, and never through another
element. So where one element lies above a marked one, such a node stands between the two.
-/

namespace TopTag

namespace Spot

open Relation

/-- A step down from a node that is no element. -/
def Passes (s c : Spot) : Prop := s.tree.isElement = false ∧ Child s c

/-- A node that begins a new piece of markup: a `return`, an arrow function or an attribute. -/
def Divides (m : Spot) : Prop :=
  m.tree.isA "ReturnStatement" = true ∨ m.tree.isA "ArrowFunctionExpression" = true ∨
    m.tree.isA "JSXAttribute" = true

theorem child_entry {s c : Spot} {key : String} (hkey : key ∉ metadataKeys) (h : Entry s key c)
    (hn : c.tree.isNode = true) : Child s c := by
  obtain ⟨items, i, hf, hi, hp⟩ := h
  obtain ⟨fields, htree, hmem⟩ := Tree.mem_of_at?_field hf
  refine ⟨key, mem_children.mpr ⟨fields, _, htree, hmem, hkey, mem_fieldNodes.mpr ⟨hn, .inr ?_⟩⟩⟩
  exact ⟨items, i, rfl, hi, hp⟩

theorem passes_get {s : Spot} {kind key : String} (hs : s.tree.isA kind = true)
    (hk : kind ≠ "JSXElement") (hkey : key ∉ metadataKeys) (hn : (s.get key).tree.isNode = true) :
    Passes s (s.get key) := ⟨Tree.not_isA hs hk, child_get hkey hn⟩

/-- A layer passes on to the node under it. -/
theorem passes_of_layer {s e : Spot} (h : Layer s e) (he : e.tree.isNode = true) : Passes s e := by
  rcases h with ⟨hp, rfl⟩ | ⟨hc, rfl⟩
  · exact passes_get hp (by decide) (by decide) he
  · exact passes_get (Tree.isA_of_isConjunction hc) (by decide) (by decide) he

theorem passes_of_branch {s b : Spot} (h : Branch s b) (hb : b.tree.isNode = true) :
    Passes s b := by
  obtain ⟨hs, rfl | rfl⟩ := h
  · exact passes_get hs (by decide) (by decide) hb
  · exact passes_get hs (by decide) (by decide) hb

theorem isNode_of_layer {s e : Spot} (h : Layer s e) : s.tree.isNode = true := by
  rcases h with ⟨hp, -⟩ | ⟨hc, -⟩
  · exact Tree.isNode_of_isA hp
  · exact Tree.isNode_of_isA (Tree.isA_of_isConjunction hc)

/-- A value that leads down to `x` without passing through an element. -/
def Leads (s x : Spot) : Prop := s.tree.isNode = true ∧ ReflTransGen Passes s x

theorem Leads.head {s e x : Spot} (hs : s.tree.isNode = true)
    (h : e.tree.isNode = true → Passes s e) (he : Leads e x) : Leads s x :=
  ⟨hs, .head (h he.1) he.2⟩

theorem leads_of_reveals {s x : Spot} (h : Reveals s x) (hx : x.tree.isNode = true) :
    Leads s x := by
  induction h using ReflTransGen.head_induction_on with
  | refl => exact ⟨hx, .refl⟩
  | head hstep _ ih =>
    rcases hstep with hl | hb
    · exact ih.head (isNode_of_layer hl) (passes_of_layer hl)
    · exact ih.head (Tree.isNode_of_isA hb.1) (passes_of_branch hb)

theorem reveals_of_layers {s e : Spot} (h : ReflTransGen Layer s e) : Reveals s e :=
  ReflTransGen.mono (fun _ _ => .inl) _ _ h

theorem leads_of_embeds {s x : Spot} (h : Embeds s x) : Leads s x := by
  rcases h with ⟨h, hx⟩ | ⟨h, hb, hbx, hx⟩
  · exact leads_of_reveals (reveals_of_layers h) (Tree.isNode_of_isA hx)
  · have hse := reveals_of_layers (layers_of_encloses h)
    have hbx := reveals_of_layers (layers_of_encloses hbx)
    exact leads_of_reveals (hse.trans (.head (.inr hb) hbx)) (Tree.isNode_of_isA hx)

theorem leads_of_yields {c x : Spot} (h : Yields c x) : Leads c x := by
  rcases h with hx | ⟨hc, hx⟩
  · exact ⟨Tree.isNode_of_isA hx, .refl⟩
  · exact (leads_of_embeds hx).head (Tree.isNode_of_isA hc) (passes_get hc (by decide) (by decide))

theorem leads_of_renders {s x : Spot} (h : Renders s x) : Leads s x := by
  rcases h with ⟨h, hx⟩ | ⟨h, hf, c, hc, hx⟩
  · exact leads_of_reveals h (Tree.isNode_of_isA hx)
  · obtain ⟨hn, hfirst⟩ := leads_of_reveals h (Tree.isNode_of_isA hf)
    obtain ⟨hcn, hrest⟩ := leads_of_yields hx
    have hstep : Passes _ c := ⟨Tree.not_isA hf (by decide), child_entry (by decide) hc hcn⟩
    exact ⟨hn, hfirst.trans (.head hstep hrest)⟩

/-- Every topmost element is reached from a dividing node without passing through an element. -/
theorem exists_divides_of_topmost {root x : Spot} (h : Topmost root x) :
    ∃ m, Within root m ∧ Divides m ∧ TransGen Passes m x := by
  rcases h with ⟨hs, ⟨-, m, hm, hret⟩, hx⟩ | ⟨ha, ⟨hattr, c, hc, hcont, rfl⟩, hx⟩
  · obtain ⟨hn, hrest⟩ := leads_of_renders hx
    refine ⟨m, hs.trans hm.within, ?_⟩
    cases hret with
    | statement hk => exact ⟨.inl hk, .head' (passes_get hk (by decide) (by decide) hn) hrest⟩
    | arrow hk _ _ =>
      exact ⟨.inr (.inl hk), .head' (passes_get hk (by decide) (by decide) hn) hrest⟩
  · obtain ⟨-, hrest⟩ := (leads_of_embeds hx).head (Tree.isNode_of_isA hcont)
      (passes_get hcont (by decide) (by decide))
    exact ⟨_, ha, .inr (.inr hattr), .head' ⟨Tree.not_isA hattr (by decide), _, hc⟩ hrest⟩

theorem below_of_passes {m x : Spot} (h : TransGen Passes m x) : Below m x :=
  TransGen.mono (fun _ _ (hstep : Passes _ _) => hstep.2) _ _ h

theorem Topmost.within {root x : Spot} (h : Topmost root x) : Within root x := by
  obtain ⟨m, hm, -, hx⟩ := exists_divides_of_topmost h
  exact hm.trans (below_of_passes hx).within

theorem Topmost.isElement {root x : Spot} (h : Topmost root x) : x.tree.isElement = true := by
  rcases h with ⟨-, -, hx⟩ | ⟨-, -, hx⟩
  · rcases hx with ⟨-, hx⟩ | ⟨-, -, c, -, hx | ⟨-, hx⟩⟩
    · exact hx
    · exact hx
    · exact (embeds_iff.mp hx).1
  · exact (embeds_iff.mp hx).1

/-- An element above the end of a way that passes no element is above its beginning. -/
theorem below_start_of_passes {t : Tree} (ht : t.hasDistinctKeys = true) {a m x : Spot}
    (ha : At t a) (hm : At t m) (hel : a.tree.isElement = true) (h : TransGen Passes m x)
    (hax : Below a x) : Below a m := by
  -- from the end of the way upwards: each step leads to the parent, which is not `a`
  have up {p b : Spot} (hp : At t p) (hstep : Passes p b) (hab : Below a b) : Below a p := by
    rcases reflTransGen_iff_eq_or_transGen.mp (hab.within_parent ht ha hp hstep.2) with rfl | hap
    · exact absurd (hstep.1.symm.trans hel) Bool.false_ne_true
    · exact hap
  induction h with
  | single hstep => exact up hm hstep hax
  | tail hrest hstep ih =>
    exact ih (up (hm.within ht (below_of_passes hrest).within) hstep hax)

end Spot

open Spot

theorem topmost_of_marked {t : Tree} (ht : t.hasDistinctKeys = true) {path : String} {n : Nat}
    {c : FileContext} (h : (locate (.root t)).exec ⟨path, []⟩ = (.ok n, c)) {b : Spot}
    (hb : Within (.root t) b) (hobj : (b.get "openingElement").tree.isObject = true)
    (hmark : c.isMarked (b.get "openingElement").identity = true) : Topmost (.root t) b := by
  have hi : (b.get "openingElement").identity ∈ c.marked := by
    simpa [FileContext.isMarked] using hmark
  obtain ⟨x, hx, hid⟩ := by simpa using ((locate_exec h).2 _).mp hi
  rw [identity_of_isObject hobj] at hid
  have hplace : x.place = b.place := (List.append_inj' (place_of_identity hid) rfl).1
  have hxb := ((at_root t).within ht hx.within).unique ((at_root t).within ht hb) hplace
  exact hxb ▸ hx

/-- Where an element lies above one whose opening tag is marked, a `return`, an arrow function or an
attribute lies strictly between the two. So markup that is mere content of an element is never
marked along with it. -/
theorem exists_divides_between (t : Tree) (ht : t.hasDistinctKeys = true) (path : String)
    {record : Record} {c : FileContext}
    (h : locateTopmost (.root t) ⟨path, []⟩ = (.ok record, c)) {a b : Spot}
    (ha : Within (.root t) a) (hel : a.tree.isElement = true) (hab : Below a b)
    (hobj : (b.get "openingElement").tree.isObject = true)
    (hmark : c.isMarked (b.get "openingElement").identity = true) :
    ∃ m, Below a m ∧ Below m b ∧ (m.tree.isA "ReturnStatement" = true ∨
      m.tree.isA "ArrowFunctionExpression" = true ∨ m.tree.isA "JSXAttribute" = true) := by
  obtain ⟨n, hn⟩ := locate_of_locateTopmost h
  have htop := topmost_of_marked ht hn (ha.trans hab.within) hobj hmark
  obtain ⟨m, hm, hdiv, hway⟩ := exists_divides_of_topmost htop
  have hroot := at_root t
  exact ⟨m, below_start_of_passes ht (hroot.within ht ha) (hroot.within ht hm) hel hway hab,
    below_of_passes hway, hdiv⟩

theorem exists_divides_in_guardedComponent :
    let c := (locateTopmost (.root guardedComponent) ⟨"src/App.tsx", []⟩).2
    ∃ a b, Within (.root guardedComponent) a ∧ a.tree.isElement = true ∧ Below a b ∧
      c.isMarked (a.get "openingElement").identity = true ∧
      c.isMarked (b.get "openingElement").identity = true ∧
      ∃ m, Below a m ∧ Below m b ∧ (m.tree.isA "ReturnStatement" = true ∨
        m.tree.isA "ArrowFunctionExpression" = true ∨ m.tree.isA "JSXAttribute" = true) := by
  intro c
  obtain ⟨record, h⟩ := eq_of_isOk (r := locateTopmost (.root guardedComponent) ⟨"src/App.tsx", []⟩)
    (by decide +kernel)
  -- the two elements, reached step by step from the component
  let block := (Spot.root guardedComponent).get "body"
  let ret : Spot := ⟨block.place ++ [.field "body", .item 0], guardedReturn⟩
  let a := ((ret.get "argument").get "right").get "expression"
  let attr : Spot :=
    ⟨(a.get "openingElement").place ++ [.field "attributes", .item 0], elementAttribute⟩
  let b := (attr.get "value").get "expression"
  have ha : Within (.root guardedComponent) a := by
    refine .head (child_get (by decide) rfl : Child _ block) ?_
    refine .head (child_entry (by decide) ⟨_, 0, rfl, rfl, rfl⟩ rfl : Child _ ret) ?_
    refine .head (child_get (by decide) rfl : Child ret (ret.get "argument")) ?_
    exact .head (child_get (by decide) rfl) (.single (child_get (by decide) rfl))
  have hab : Below a b := by
    refine .head (child_get (by decide) rfl : Child a (a.get "openingElement")) ?_
    refine .head (child_entry (by decide) ⟨_, 0, rfl, rfl, rfl⟩ rfl : Child _ attr) ?_
    exact .head (child_get (by decide) rfl) (.single (child_get (by decide) rfl))
  have hmark : c.isMarked (b.get "openingElement").identity = true := by decide +kernel
  exact ⟨a, b, ha, rfl, hab, by decide +kernel, hmark,
    exists_divides_between _ (by decide +kernel) _ h ha rfl hab rfl hmark⟩

end TopTag
