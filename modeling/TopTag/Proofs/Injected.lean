import TopTag.Proofs.AdditionLaws
import TopTag.Proofs.Order
import TopTag.Proofs.Unseen

/-!
# What injection does

A pass goes through the nodes of the tree in the order of a walk, although it walks on in tags that
it has changed. It succeeds when every marked opening tag can take an attribute, and then leaves the
tree with the attribute added at each of its targets.
-/

namespace TopTag

namespace Tree

/-- The items of a tag's list of attributes. -/
def attributeItems (t : Tree) : List Tree :=
  match t.field? "attributes" with
  | some (.list items) => items
  | _ => []

/-- One of the attributes of a tag has the given plain name. -/
def carries (t : Tree) (name : String) : Bool :=
  t.attributeItems.any fun a => a.attributeName.isName (some name)

/-- A tag's attributes are a list or missing. -/
def isAppendable (t : Tree) : Bool :=
  match t.field? "attributes" with
  | none | some (.list _) => true
  | some _ => false

theorem isAppendable_iff {t : Tree} :
    t.isAppendable = true ↔
      t.field? "attributes" = none ∨ ∃ items, t.field? "attributes" = some (.list items) := by
  rw [isAppendable]
  split <;> simp_all

theorem entries_of_isAppendable {t : Tree} (h : t.isAppendable = true) :
    (t.get "attributes").entries = .ok t.attributeItems := by
  rw [get, attributeItems]
  rcases isAppendable_iff.mp h with hattr | ⟨items, hattr⟩
  · rw [hattr]
    rfl
  · rw [hattr, Option.getD_some, entries_list]

end Tree

theorem hasAttribute_eq {t : Tree} (ht : t.isObject = true) (name : Option String) :
    hasAttribute t name = (t.get "attributes").entries.map fun es =>
      es.any fun a => a.attributeName.isName name := by
  rw [hasAttribute, Tree.consult, if_pos ht]
  rfl

theorem hasAttribute_of_isAppendable {t : Tree} (ht : t.isObject = true)
    (h : t.isAppendable = true) (name : String) :
    hasAttribute t (some name) = .ok (t.carries name) := by
  rw [hasAttribute_eq ht, Tree.entries_of_isAppendable h]
  rfl

/-- What is found in attributes that are no list are texts, and a text is no attribute. -/
theorem hasAttribute_ne_true {t : Tree} (ht : t.isObject = true) (h : t.isAppendable = false)
    (name : String) : hasAttribute t (some name) ≠ .ok true := by
  rw [hasAttribute_eq ht]
  intro hany
  cases hes : (t.get "attributes").entries with
  | error fault =>
    rw [hes] at hany
    cases hany
  | ok es =>
    rw [hes] at hany
    obtain ⟨e, he, hname⟩ := List.any_eq_true.mp (Except.ok.inj hany)
    rcases Tree.entries_ok hes with hlist | ⟨-, htexts⟩
    · cases hf : t.field? "attributes" with
      | none => simp [Tree.isAppendable, hf] at h
      | some u =>
        rw [Tree.get, hf, Option.getD_some] at hlist
        simp [Tree.isAppendable, hf, hlist] at h
    · obtain ⟨s, rfl⟩ := htexts e he
      cases hname

theorem appendAttribute_of_isAppendable {fields : List (String × Tree)}
    (h : (Tree.object fields).isAppendable = true) (added : Tree) :
    appendAttribute (.object fields) added =
      .ok (.object (Tree.appendAttributes [added] fields)) := by
  rcases Tree.isAppendable_iff.mp h with hattr | ⟨items, hattr⟩
  · rw [appendAttribute, show fields.lookup "attributes" = none from hattr,
      Tree.appendAttributes_of_missing (by simp) hattr]
  · rw [appendAttribute, show fields.lookup "attributes" = some (.list items) from hattr,
      Tree.appendAttributes_of_list hattr]

theorem appendAttribute_of_not_isAppendable {fields : List (String × Tree)}
    (h : (Tree.object fields).isAppendable = false) (added : Tree) :
    appendAttribute (.object fields) added = .error .notAppendable := by
  simp only [Tree.isAppendable, Tree.field?] at h
  rw [appendAttribute]
  split <;> simp_all

/-! ## One visit -/

namespace Spot

/-- The spot is a marked opening tag. -/
def isMarkedTag (c : FileContext) (s : Spot) : Bool :=
  s.tree.isA "JSXOpeningElement" && c.isMarked s.identity

/-- The spot is a marked opening tag without an attribute of the given name. -/
def isTarget (c : FileContext) (name : String) (s : Spot) : Bool :=
  s.isMarkedTag c && !s.tree.carries name

end Spot

variable {c : FileContext} {name : String}

theorem tagged?_eq {s : Spot} (hn : s.tree.isNode = true) :
    tagged? c name s =
      if s.isMarkedTag c then
        (hasAttribute s.tree (some name)).bind fun found =>
          if found then .ok none
          else (appendAttribute s.tree (.stringAttribute name c.filePath)).map some
      else .ok none := by
  obtain ⟨kind, hkind⟩ := Option.isSome_iff_exists.mp hn
  have hrequire : s.tree.require "type" = .ok kind := by
    rw [Tree.require_eq_ok]
    exact hkind
  have htag : s.isMarkedTag c = (kind.isText "JSXOpeningElement" && c.isMarked s.identity) := by
    rw [Spot.isMarkedTag, Tree.isA, hkind, Option.any_some]
  rw [tagged?, hrequire, htag]
  change (if _ then _ else _) = _
  split
  · cases hasAttribute s.tree (some name) with
    | error fault => rfl
    | ok found =>
      cases found with
      | true => rfl
      | false =>
        change (appendAttribute _ _ >>= fun tag => pure (some tag)) = _
        cases appendAttribute s.tree (.stringAttribute name c.filePath) <;> rfl
  · rfl

/-- A visit of a node that is no marked tag leaves it alone. -/
theorem tagged?_of_not_isMarkedTag {s : Spot} (hn : s.tree.isNode = true)
    (h : s.isMarkedTag c = false) : tagged? c name s = .ok none := by
  rw [tagged?_eq hn, h]
  rfl

/-- A node gets the new attribute when it is a target. -/
theorem tagged?_of_isAppendable {s : Spot} {fields : List (String × Tree)}
    (hs : s.tree = .object fields) (hn : s.tree.isNode = true)
    (h : s.isMarkedTag c = true → s.tree.isAppendable = true) :
    tagged? c name s = .ok (if s.isTarget c name then
      some (.object (Tree.appendAttributes [.stringAttribute name c.filePath] fields))
      else none) := by
  cases hm : s.isMarkedTag c with
  | false =>
    rw [tagged?_of_not_isMarkedTag hn hm, Spot.isTarget, hm]
    rfl
  | true =>
    have happ := h hm
    have happend := appendAttribute_of_isAppendable (hs ▸ happ) (.stringAttribute name c.filePath)
    rw [tagged?_eq hn, hasAttribute_of_isAppendable (by rw [hs]; rfl) happ, hs, happend, ← hs,
      Spot.isTarget, hm]
    cases s.tree.carries name <;> rfl

theorem tagged?_of_not_isAppendable (name : String) {s : Spot} (hn : s.tree.isNode = true)
    (hm : s.isMarkedTag c = true) (h : s.tree.isAppendable = false) :
    ∃ fault, tagged? c name s = .error fault := by
  obtain ⟨fields, hs⟩ := Tree.isObject_of_isA (Bool.and_eq_true_iff.mp hm).1
  have hobject : s.tree.isObject = true := by
    rw [hs]
    rfl
  have happend := appendAttribute_of_not_isAppendable (hs ▸ h) (.stringAttribute name c.filePath)
  have hne := hasAttribute_ne_true hobject h name
  rw [tagged?_eq hn, hm, if_pos rfl]
  cases hhas : hasAttribute s.tree (some name) with
  | error fault => exact ⟨fault, rfl⟩
  | ok found =>
    cases found with
    | true => exact absurd hhas hne
    | false =>
      rw [hs, happend]
      exact ⟨_, rfl⟩

theorem isNode_of_tagged? {s : Spot} {r : Option Tree} (h : tagged? c name s = .ok r) :
    s.tree.isNode = true := by
  rw [tagged?] at h
  cases hkind : s.tree.require "type" with
  | error fault =>
    rw [hkind] at h
    cases h
  | ok kind => rw [Tree.isNode, Tree.require_eq_ok.mp hkind, Option.isSome_some]

/-- A changed tag is the tag with one more attribute. -/
theorem eq_of_tagged?_some {s : Spot} {tag : Tree} (h : tagged? c name s = .ok (some tag)) :
    ∃ fields, s.tree = .object fields ∧
      tag = .object (Tree.appendAttributes [.stringAttribute name c.filePath] fields) := by
  obtain ⟨fields, hs⟩ := isObject_of_tagged? h
  have hn := isNode_of_tagged? h
  refine ⟨fields, hs, ?_⟩
  cases hm : s.isMarkedTag c with
  | false =>
    rw [tagged?_of_not_isMarkedTag hn hm] at h
    cases h
  | true =>
    cases happ : s.tree.isAppendable with
    | false =>
      obtain ⟨fault, hfault⟩ := tagged?_of_not_isAppendable name hn hm happ
      rw [hfault] at h
      cases h
    | true =>
      rw [tagged?_of_isAppendable hs hn fun _ => happ] at h
      split at h <;> cases h
      rfl

/-! ## A pass as a loop over the walk -/

/-- Makes the given visits, each spot as it was before the pass. -/
def injectEach (c : FileContext) (name : String) : List Spot → Pass → Pass × Option Fault
  | [], pass => (pass, none)
  | s :: rest, pass =>
    match tagged? c name s with
    | .error fault => (pass, some fault)
    | .ok none => injectEach c name rest pass
    | .ok (some tag) =>
      injectEach c name rest ⟨pass.tree.update (fun _ => tag) s.place, pass.added + 1⟩

theorem tagged?_of_isAttributePart {s : Spot} (h : s.tree.IsAttributePart) :
    tagged? c name s = .ok none := by
  refine tagged?_of_not_isMarkedTag h.isNode ?_
  cases hm : s.isMarkedTag c with
  | false => rfl
  | true => exact absurd (h.isA (Bool.and_eq_true_iff.mp hm).1) (by simp)

/-- The spots to be visited: those of the visits, and parts of new attributes among them. -/
abbrev PaddedSpots : List Visit → List Spot → Prop :=
  Padded (fun s => s.tree.IsAttributePart) (fun v s => v.spot = s)

theorem PaddedSpots.childSpots (s : Spot) : PaddedSpots s.visits s.childSpots :=
  (PaddedChildren.refl s.children).map (fun _ h => h) fun _ _ h => congrArg Prod.fst h

/-- The children of a changed tag are its children before and the new attribute. -/
theorem PaddedSpots.appendAttributes {place : Place} {as : List Tree}
    (has : ∀ a ∈ as, a.IsAttributePart) (fields : List (String × Tree)) :
    PaddedSpots (Spot.mk place (.object fields)).visits
      (Spot.mk place (.object (Tree.appendAttributes as fields))).childSpots :=
  (fieldsNodes_appendAttributes place has fields).map (fun _ h => h)
    fun _ _ h => congrArg Prod.fst h

/-- The parts of new attributes that a pass comes across are left alone, so it makes the visits of
the walk and no others. -/
theorem injectFrom_eq {pending : List Spot} {visits : List Visit} (pass : Pass)
    (h : PaddedSpots visits pending) :
    injectFrom c name pending pass =
      injectEach c name ((walkFrom visits).map Visit.spot) pass := by
  fun_induction injectFrom c name pending pass generalizing visits with
  | case1 pass =>
    cases h
    rw [walkFrom]
    rfl
  | case2 pass s rest fault hs =>
    cases h with
    | pad hpart _ =>
      rw [tagged?_of_isAttributePart hpart] at hs
      cases hs
    | keep hv _ =>
      rw [walkFrom, List.map_cons, hv, injectEach, hs]
  | case3 pass s rest hs ih =>
    cases h with
    | pad hpart h =>
      have hchildren : ∀ d ∈ s.childSpots, d.tree.IsAttributePart := by
        intro d hd
        obtain ⟨⟨_, key⟩, hc, rfl⟩ := List.mem_map.mp hd
        exact hpart.children hc
      exact ih ((Padded.of_forall hchildren).append h)
    | keep hv h =>
      rw [walkFrom, List.map_cons, hv, injectEach, hs]
      exact ih ((PaddedSpots.childSpots s).append h)
  | case4 pass s rest tag hs ih =>
    cases h with
    | pad hpart _ =>
      rw [tagged?_of_isAttributePart hpart] at hs
      cases hs
    | keep hv h =>
      rw [walkFrom, List.map_cons, hv, injectEach, hs]
      obtain ⟨place, tree⟩ := s
      obtain ⟨fields, rfl, rfl⟩ := eq_of_tagged?_some hs
      refine ih ((PaddedSpots.appendAttributes ?_ fields).append h)
      intro a ha
      rw [List.mem_singleton.mp ha]
      exact .whole name c.filePath

/-- A pass from a place makes the visits of the walk from there. -/
theorem inject_at_eq_injectEach {t u : Tree} {place : Place} (hu : t.at? place = some u) :
    inject c name t place =
      injectEach c name ((walk ⟨place, u⟩).map Visit.spot) ⟨t, 0⟩ := by
  have hpending : PaddedSpots [⟨⟨place, u⟩, none, none⟩] [⟨place, u⟩] := .keep rfl .nil
  rw [inject, hu, Option.getD_some, injectFrom_eq _ hpending, walk]

theorem inject_eq_injectEach (t : Tree) :
    inject c name t [] =
      injectEach c name ((walk (Spot.root t)).map Visit.spot) ⟨t, 0⟩ :=
  inject_at_eq_injectEach (Tree.at?_nil t)

/-! ## The tree after a pass -/

instance : LawfulBEq Place := inferInstanceAs (LawfulBEq (List Step))

/-- The same attribute at each of some places. -/
def Additions.across (places : List Place) (a : String × String) : Additions :=
  fun p => if p ∈ places then [a] else []

/-- A changed tag is the tag with the attribute added at its place. -/
theorem appendAttributes_eq_withAttributes {fields : List (String × Tree)}
    (h : (Tree.object fields).isA "JSXOpeningElement" = true) (place : Place)
    (a : String × String) :
    .object (Tree.appendAttributes [.stringAttribute a.1 a.2] fields) =
      (Tree.object fields).withAttributes (.across [place] a) place := by
  have hfields : Tree.withAttributesFields (.across [place] a) place fields = fields := by
    refine Tree.withAttributesFields_self fun f _ => Tree.withAttributes_of_nil fun q hq => ?_
    refine if_neg fun hmem => ?_
    rw [List.mem_singleton.mp hmem] at hq
    have hlen := hq.length_le
    rw [List.length_append, List.length_singleton] at hlen
    omega
  have hnodes : (Additions.across [place] a).nodes place = [.stringAttribute a.1 a.2] := by
    simp [Additions.nodes, Additions.across]
  rw [Tree.withAttributes, if_pos h, hfields, hnodes]

/-- One change, made while nothing is added at or below the place, is one more addition. -/
theorem update_withAttributes_across {t : Tree} (ht : t.hasDistinctKeys = true) {s : Spot}
    (hs : Spot.At t s) {fields : List (String × Tree)} (htree : s.tree = .object fields)
    (htag : s.tree.isA "JSXOpeningElement" = true) {places : List Place} (a : String × String)
    (hfresh : ∀ p ∈ places, ¬ s.place <+: p) :
    (t.withAttributes (.across places a) []).update
        (fun _ => .object (Tree.appendAttributes [.stringAttribute a.1 a.2] fields)) s.place =
      t.withAttributes (.across (places ++ [s.place]) a) [] := by
  have hbelow : ∀ q, s.place <+: q → Additions.across places a q = [] :=
    fun q hq => if_neg fun hmem => hfresh q hmem hq
  have hat : (t.withAttributes (.across places a) []).at? s.place = some s.tree := by
    rw [Tree.at?_withAttributes _ _ hs (by rw [htree]; rfl), List.nil_append,
      Tree.withAttributes_of_nil hbelow]
  have helse : ∀ p, ¬ [] ++ s.place <+: p → Additions.across [s.place] a p = [] := by
    intro p hp
    refine if_neg fun hmem => hp ?_
    obtain rfl := List.mem_singleton.mp hmem
    exact List.prefix_refl _
  have hupdate :=
    Tree.update_eq_withAttributes (Tree.hasDistinctKeys_withAttributes _ _ ht) hat helse
  rw [List.nil_append] at hupdate
  rw [appendAttributes_eq_withAttributes (htree ▸ htag) s.place, ← htree, hupdate,
    Tree.withAttributes_withAttributes]
  refine Tree.withAttributes_congr fun p _ => ?_
  by_cases hp : p = s.place
  · subst hp
    rw [hbelow _ (List.prefix_refl _)]
    simp [Additions.across]
  · simp [Additions.across, hp]

/-- The visits of a pass that meets no fault, in any order that meets no spot after what it
encloses. -/
theorem injectEach_eq (name : String) {t : Tree} (ht : t.hasDistinctKeys = true) {spots : List Spot}
    (hat : ∀ s ∈ spots, Spot.At t s) (hnode : ∀ s ∈ spots, s.tree.isNode = true)
    (happ : ∀ s ∈ spots, s.isMarkedTag c = true → s.tree.isAppendable = true)
    (horder : spots.Pairwise fun s s' => ¬ s'.place <+: s.place) (places : List Place)
    (hfresh : ∀ s ∈ spots, ∀ p ∈ places, ¬ s.place <+: p) (n : Nat) :
    injectEach c name spots ⟨t.withAttributes (.across places (name, c.filePath)) [], n⟩ =
      (⟨t.withAttributes (.across (places ++ (spots.filter (·.isTarget c name)).map Spot.place)
          (name, c.filePath)) [], n + (spots.filter (·.isTarget c name)).length⟩, none) := by
  induction spots generalizing places n with
  | nil => simp [injectEach]
  | cons s rest ih =>
    have hn := hnode s List.mem_cons_self
    obtain ⟨fields, htree⟩ := Tree.object_of_isNode hn
    obtain ⟨hs, horder⟩ := List.pairwise_cons.mp horder
    have hat' : ∀ s' ∈ rest, Spot.At t s' := fun s' h => hat s' (List.mem_cons_of_mem _ h)
    have hnode' : ∀ s' ∈ rest, s'.tree.isNode = true :=
      fun s' h => hnode s' (List.mem_cons_of_mem _ h)
    have happ' : ∀ s' ∈ rest, s'.isMarkedTag c = true → s'.tree.isAppendable = true :=
      fun s' h => happ s' (List.mem_cons_of_mem _ h)
    rw [injectEach, tagged?_of_isAppendable htree hn (happ s List.mem_cons_self)]
    cases htarget : s.isTarget c name with
    | false =>
      rw [List.filter_cons_of_neg (by simp [htarget])]
      exact ih hat' hnode' happ' horder _ (fun s' h => hfresh s' (List.mem_cons_of_mem _ h)) n
    | true =>
      have htag : s.tree.isA "JSXOpeningElement" = true := by
        simp only [Spot.isTarget, Spot.isMarkedTag, Bool.and_eq_true] at htarget
        exact htarget.1.1
      have hfresh' : ∀ s' ∈ rest, ∀ p ∈ places ++ [s.place], ¬ s'.place <+: p := by
        intro s' h p hp
        rcases List.mem_append.mp hp with hp | hp
        · exact hfresh s' (List.mem_cons_of_mem _ h) p hp
        · rw [List.mem_singleton.mp hp]
          exact hs s' h
      have hupdate := update_withAttributes_across ht (hat s List.mem_cons_self) htree htag
        (name, c.filePath) (hfresh s List.mem_cons_self)
      have hnew := ih hat' hnode' happ' horder _ hfresh' (n + 1)
      rw [List.filter_cons_of_pos htarget]
      simp only [if_true, hupdate, hnew]
      simp [Nat.add_assoc, Nat.add_comm 1]

/-- A pass that meets no fault comes across no marked tag that cannot take an attribute. -/
theorem isAppendable_of_injectEach {spots : List Spot} {pass : Pass}
    (h : (injectEach c name spots pass).2 = none) :
    ∀ s ∈ spots, s.tree.isNode = true ∧ (s.isMarkedTag c = true → s.tree.isAppendable = true) := by
  induction spots generalizing pass with
  | nil => simp
  | cons s rest ih =>
    rw [injectEach] at h
    have hs : (∃ r, tagged? c name s = .ok r) ∧
        ∃ pass', (injectEach c name rest pass').2 = none := by
      split at h
      · cases h
      · exact ⟨⟨_, ‹_›⟩, _, h⟩
      · exact ⟨⟨_, ‹_›⟩, _, h⟩
    obtain ⟨⟨r, hr⟩, pass', hrest⟩ := hs
    intro s' hs'
    rcases List.mem_cons.mp hs' with rfl | hs'
    · refine ⟨isNode_of_tagged? hr, fun hm => ?_⟩
      cases happ : s'.tree.isAppendable with
      | true => rfl
      | false =>
        obtain ⟨fault, hfault⟩ :=
          tagged?_of_not_isAppendable name (isNode_of_tagged? hr) hm happ
        rw [hfault] at hr
        cases hr
    · exact ih hrest s' hs'

/-- The places where a pass over a tree adds its attribute. -/
def targetPlaces (c : FileContext) (name : String) (t : Tree) : List Place :=
  (((walk (Spot.root t)).map Visit.spot).filter (·.isTarget c name)).map Spot.place

theorem mem_targetPlaces {t : Tree} {p : Place} :
    p ∈ targetPlaces c name t ↔
      ∃ s, Spot.Within (.root t) s ∧ s.isTarget c name = true ∧ s.place = p := by
  simp only [targetPlaces, List.mem_map, List.mem_filter, exists_mem_walk, and_assoc]

theorem nodup_targetPlaces {t : Tree} (ht : t.hasDistinctKeys = true) :
    (targetPlaces c name t).Nodup := by
  have hwalk : ((walk (Spot.root t)).map Visit.spot).Pairwise fun s s' => ¬ s'.place <+: s.place :=
    List.pairwise_map.mpr (walk_pairwise ht)
  refine List.pairwise_map.mpr ((hwalk.sublist List.filter_sublist).imp fun hab heq => hab ?_)
  exact ⟨[], by rw [List.append_nil, heq]⟩

theorem isNode_of_within {s x : Spot} (hs : s.tree.isNode = true) (h : s.Within x) :
    x.tree.isNode = true := by
  rcases h.cases_tail with rfl | ⟨p, -, key, hc⟩
  · exact hs
  · exact Spot.isNode_of_mem_children hc

/-- A pass over a node whose marked tags can all take an attribute adds it at the targets and meets
no fault. -/
theorem inject_eq (name : String) {t : Tree} (ht : t.hasDistinctKeys = true)
    (hnode : t.isNode = true)
    (happ : ∀ s, Spot.Within (.root t) s → s.isMarkedTag c = true → s.tree.isAppendable = true) :
    inject c name t [] =
      (⟨t.withAttributes (.across (targetPlaces c name t) (name, c.filePath)) [],
        (targetPlaces c name t).length⟩, none) := by
  have hwithin : ∀ s ∈ (walk (Spot.root t)).map Visit.spot, Spot.Within (.root t) s :=
    fun s hs => exists_mem_walk.mp (List.mem_map.mp hs)
  have hloop := injectEach_eq name ht
    (fun s hs => (Spot.at_root t).within ht (hwithin s hs))
    (fun s hs => isNode_of_within hnode (hwithin s hs)) (fun s hs => happ s (hwithin s hs))
    (List.pairwise_map.mpr (walk_pairwise ht)) [] (by simp) 0
  have hstart : t.withAttributes (.across [] (name, c.filePath)) [] = t :=
    Tree.withAttributes_of_nil fun _ _ => rfl
  rw [hstart, Nat.zero_add, List.nil_append] at hloop
  rw [inject_eq_injectEach, hloop, targetPlaces, List.length_map]

theorem isAppendable_of_inject {t : Tree} (h : (inject c name t []).2 = none) :
    ∀ s, Spot.Within (.root t) s →
      s.tree.isNode = true ∧ (s.isMarkedTag c = true → s.tree.isAppendable = true) := by
  rw [inject_eq_injectEach] at h
  exact fun s hs => isAppendable_of_injectEach h s (List.mem_map.mpr (exists_mem_walk.mpr hs))

/-- A pass that meets no fault adds its attribute at the targets. -/
theorem inject_eq_of_success {t : Tree} (ht : t.hasDistinctKeys = true)
    (h : (inject c name t []).2 = none) :
    inject c name t [] =
      (⟨t.withAttributes (.across (targetPlaces c name t) (name, c.filePath)) [],
        (targetPlaces c name t).length⟩, none) :=
  inject_eq name ht (isAppendable_of_inject h _ .refl).1 fun s hs =>
    (isAppendable_of_inject h s hs).2

end TopTag
