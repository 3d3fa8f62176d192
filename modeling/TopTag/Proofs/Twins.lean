import TopTag.Proofs.Counterparts
import TopTag.Proofs.Nesting

/-!
# Twins

Trees grown from concrete trees that correspond. A node of the second tree is the twin of a node of
the first when the two are grown from counterparts. Every node of the second tree has its twin, or
belongs to an attribute that the first one lacks, and a topmost element has a topmost twin
(`Twin.topmost`): which elements are topmost is a matter of shape alone.
-/

namespace TopTag

/-- The two spots have trees grown from counterparts. They stand at one place if no tag has
attributes more. -/
structure Twin (R : Concrete.Use → Concrete → Concrete → Prop) (extra : Concrete → Prop)
    (s s' : SourceText) (x x' : Spot) : Prop where
  grown : ∃ role n n', Counterpart R role n n' ∧ Grown s role n x.tree ∧ Grown s' role n' x'.tree
  place : (∀ c, ¬extra c) → x.place = x'.place

/-- Two values of a field are grown from corresponding parts. -/
structure ValueRel (R : Concrete.Use → Concrete → Concrete → Prop) (extra : Concrete → Prop)
    (s s' : SourceText) (key : String) (v v' : Tree) : Prop where
  parts : ∃ part part', PartRelAt R extra key part part' ∧ GrownPart s part v ∧
    GrownPart s' part' v' ∧ (key = "operator" → part = part')

/-- The tree is grown from an attribute that only the second concrete tree has: it is the attribute,
or the name that this was taken for. -/
def Added (extra : Concrete → Prop) (s' : SourceText) (t' : Tree) : Prop :=
  ∃ e, extra e ∧ (Grown s' .namedAttribute e t' ∨ Grown s' .name e t')

theorem Padded.getElem? {α β : Type} {extra : β → Prop} {R : α → β → Prop} {as : List α}
    {bs : List β} (h : Padded extra R as bs) {j : Nat} {b : β} (hj : bs[j]? = some b) :
    extra b ∨ ∃ i a, as[i]? = some a ∧ R a b ∧ ((∀ c, ¬extra c) → i = j) := by
  induction h generalizing j with
  | nil => simp at hj
  | @pad c as bs hc _ ih =>
    cases j with
    | zero =>
      cases hj
      exact .inl hc
    | succ j =>
      rcases ih hj with hb | ⟨i, a, ha, hab, -⟩
      · exact .inl hb
      · exact .inr ⟨i, a, ha, hab, fun hnone => absurd hc (hnone c)⟩
  | @keep a c as bs hac _ ih =>
    cases j with
    | zero =>
      cases hj
      exact .inr ⟨0, a, rfl, hac, fun _ => rfl⟩
    | succ j =>
      rcases ih hj with hb | ⟨i, a, ha, hab, hij⟩
      · exact .inl hb
      · exact .inr ⟨i + 1, a, ha, hab, fun hnone => by rw [hij hnone]⟩

section Grown

variable {s : SourceText} {role : Role} {n : Concrete} {t : Tree}

theorem Grown.exists_recipe (h : Grown s role n t) :
    ∃ r start stop fields, recipe s role n = some r ∧ role.Extends s n start stop ∧
      GrownFields s r.fields fields ∧ t = .object
        (("type", .text r.kind) :: ("start", .int start) :: ("end", .int stop) :: fields) := by
  cases h with
  | node hrecipe hextends hfields => exact ⟨_, _, _, _, hrecipe, hextends, hfields, rfl⟩

theorem Grown.isNode (h : Grown s role n t) : t.isNode = true := by
  cases h
  rfl

theorem GrownItems.exists_node {nodes : List (Role × Concrete)} {items : List Tree}
    (h : GrownItems s nodes items) {i : Nat} {t : Tree} (hi : items[i]? = some t) :
    ∃ p, nodes[i]? = some p ∧ Grown s p.1 p.2 t := by
  induction nodes generalizing items i with
  | nil =>
    cases h
    cases hi
  | cons p rest ih =>
    cases h with
    | cons ht hrest =>
      cases i with
      | zero =>
        cases hi
        exact ⟨_, rfl, ht⟩
      | succ i => exact ih hrest hi

theorem GrownItems.exists_item {nodes : List (Role × Concrete)} {items : List Tree}
    (h : GrownItems s nodes items) {i : Nat} {p : Role × Concrete} (hi : nodes[i]? = some p) :
    ∃ t, items[i]? = some t ∧ Grown s p.1 p.2 t := by
  induction nodes generalizing items i with
  | nil => cases hi
  | cons q rest ih =>
    cases h with
    | cons ht hrest =>
      cases i with
      | zero =>
        cases hi
        exact ⟨_, rfl, ht⟩
      | succ i => exact ih hrest hi

end Grown

section Twins

variable {R : Concrete.Use → Concrete → Concrete → Prop} {extra : Concrete → Prop}
  {s s' : SourceText} {x x' : Spot} {key : String}

theorem GrownFields.rel {parts parts' : List (String × Part)}
    {fields fields' : List (String × Tree)} (h : GrownFields s parts fields)
    (h' : GrownFields s' parts' fields')
    (hparts : List.Forall₂ (FieldRel R extra) parts parts') :
    List.Forall₂ (fun f f' => f.1 = f'.1 ∧ ValueRel R extra s s' f.1 f.2 f'.2) fields fields' := by
  induction hparts generalizing fields fields' with
  | nil =>
    cases h
    cases h'
    exact .nil
  | cons hf _ ih =>
    cases h with
    | cons hv hrest =>
      cases h' with
      | cons hv' hrest' =>
        exact .cons ⟨hf.key, ⟨_, _, hf.part, hv, hv', hf.operator⟩⟩ (ih hrest hrest')

/-- The fields that every node has. -/
def baseKeys : List String := ["type", "start", "end"]

theorem field?_of_not_mem_baseKeys {a b c : Tree} {fields : List (String × Tree)}
    (hkey : key ∉ baseKeys) :
    (Tree.object (("type", a) :: ("start", b) :: ("end", c) :: fields)).field? key =
      fields.lookup key := by
  simp only [baseKeys, List.mem_cons, List.not_mem_nil, or_false, not_or, ← beq_eq_false_iff_ne]
    at hkey
  simp only [Tree.field?, List.lookup_cons, hkey]

/-- Twins have the same kind and corresponding fields. -/
theorem Twin.fields (hb : Bridge R extra) (h : Twin R extra s s' x x') :
    ∃ kind start stop start' stop' fields fields',
      x.tree = .object
        (("type", .text kind) :: ("start", .int start) :: ("end", .int stop) :: fields) ∧
      x'.tree = .object
        (("type", .text kind) :: ("start", .int start') :: ("end", .int stop') :: fields') ∧
      List.Forall₂ (fun f f' => f.1 = f'.1 ∧ ValueRel R extra s s' f.1 f.2 f'.2)
        fields fields' := by
  obtain ⟨role, n, n', hn, ht, ht'⟩ := h.grown
  obtain ⟨r, start, stop, fields, hr, -, hfields, htree⟩ := ht.exists_recipe
  obtain ⟨r', start', stop', fields', hr', -, hfields', htree'⟩ := ht'.exists_recipe
  have hrecipe : Option.Rel (RecipeRel R extra) (recipe s role n) (recipe s' role n') :=
    hb.recipe hn
  rw [hr, hr'] at hrecipe
  cases hrecipe with
  | some hrel =>
    rw [hrel.kind] at htree'
    exact ⟨_, _, _, _, _, _, _, htree, htree', hfields.rel hfields' hrel.fields⟩

theorem Twin.isA (hb : Bridge R extra) (h : Twin R extra s s' x x') (kind : String) :
    x'.tree.isA kind = x.tree.isA kind := by
  obtain ⟨_, _, _, _, _, _, _, htree, htree', -⟩ := h.fields hb
  rw [htree, htree']
  rfl

theorem rel_lookup {P : String → Tree → Tree → Prop} {fields fields' : List (String × Tree)}
    (h : List.Forall₂ (fun f f' => f.1 = f'.1 ∧ P f.1 f.2 f'.2) fields fields') (key : String) :
    Option.Rel (P key) (fields.lookup key) (fields'.lookup key) := by
  induction h with
  | nil => exact .none
  | @cons f f' fields fields' hf _ ih =>
    obtain ⟨k, v⟩ := f
    obtain ⟨k', v'⟩ := f'
    obtain ⟨rfl, hv⟩ := hf
    simp only [List.lookup_cons]
    cases heq : key == k with
    | true =>
      rw [eq_of_beq heq]
      exact .some hv
    | false => exact ih

theorem Twin.field? (hb : Bridge R extra) (h : Twin R extra s s' x x') (hkey : key ∉ baseKeys) :
    Option.Rel (ValueRel R extra s s' key) (x.tree.field? key) (x'.tree.field? key) := by
  obtain ⟨_, _, _, _, _, _, _, htree, htree', hfields⟩ := h.fields hb
  rw [htree, htree', field?_of_not_mem_baseKeys hkey, field?_of_not_mem_baseKeys hkey]
  exact rel_lookup hfields key

/-- A value that is a node has a twin, or it is a name that was an attribute. -/
theorem ValueRel.node {v v' : Tree} (h : ValueRel R extra s s' key v v')
    (hnode : v'.isNode = true) : key = "name" ∧ Added extra s' v' ∨
      ∃ role n n', Counterpart R role n n' ∧ Grown s role n v ∧ Grown s' role n' v' := by
  obtain ⟨part, part', hpart | ⟨hkey, e, he, rfl⟩, hv, hv', -⟩ := h.parts
  · refine .inr ?_
    cases hpart with
    | one hn =>
      cases hv with
      | one ht =>
        cases hv' with
        | one ht' => exact ⟨_, _, _, hn, ht, ht'⟩
    | null | text | bool | many =>
      cases hv'
      cases hnode
  · exact .inl ⟨hkey, e, he, .inr (grownPart_one_iff.mp hv')⟩

/-- An item of a list is grown from an attribute more, or it has a twin in the other list. -/
theorem ValueRel.item {v : Tree} {items' : List Tree} {j : Nat} {t' : Tree}
    (h : ValueRel R extra s s' key v (.list items')) (hj : items'[j]? = some t') :
    Added extra s' t' ∨ ∃ items i t, v = .list items ∧
      items[i]? = some t ∧ ((∀ c, ¬extra c) → i = j) ∧
      ∃ role n n', Counterpart R role n n' ∧ Grown s role n t ∧ Grown s' role n' t' := by
  obtain ⟨part, part', hpart | ⟨-, e, -, rfl⟩, hv, hv', -⟩ := h.parts
  · cases hpart with
    | one hn =>
      cases hv' with
      | one ht' => exact nomatch ht'.isNode
    | null | text | bool => cases hv'
    | many hnodes =>
      cases hv with
      | many hitems =>
        cases hv' with
        | many hitems' =>
          obtain ⟨p', hp', ht'⟩ := hitems'.exists_node hj
          rcases hnodes.getElem? hp' with ⟨hrole, hextra⟩ | ⟨i, p, hp, ⟨hrole, hn⟩, hij⟩
          · rw [hrole] at ht'
            exact .inl ⟨_, hextra, .inl ht'⟩
          · obtain ⟨t, hi, ht⟩ := hitems.exists_item hp
            rw [← hrole] at ht'
            exact .inr ⟨_, i, t, rfl, hi, fun hnone => hij fun c hc => hnone _ hc.2,
              _, _, _, hn, ht, ht'⟩
  · exact nomatch (grownPart_one_iff.mp hv').isNode

/-- The fields that have no twin as such: those that every node has, and names. -/
def ownKeys : List String := "name" :: baseKeys

theorem Twin.get (hb : Bridge R extra) (h : Twin R extra s s' x x') (hkey : key ∉ ownKeys)
    (hnode : (x'.get key).tree.isNode = true) : Twin R extra s s' (x.get key) (x'.get key) := by
  obtain ⟨hname, hbase⟩ := not_or.mp (mt List.mem_cons.mpr hkey)
  have hrel := h.field? hb hbase
  refine ⟨?_, fun hnone => by rw [Spot.get, Spot.get, h.place hnone]⟩
  simp only [Spot.get, Tree.get] at hnode ⊢
  generalize x.tree.field? key = o at hrel
  generalize x'.tree.field? key = o' at hrel hnode
  cases hrel with
  | none => cases hnode
  | some hv => exact (hv.node hnode).resolve_left fun hadded => hname hadded.1

theorem Twin.entry (hb : Bridge R extra) (h : Twin R extra s s' x x') (hkey : key ∉ baseKeys)
    {c' : Spot} (hc : x'.Entry key c') :
    Added extra s' c'.tree ∨ ∃ c, x.Entry key c ∧ Twin R extra s s' c c' := by
  obtain ⟨items', j, hfield, hj, hplace⟩ := hc
  have hrel := h.field? hb hkey
  rw [hfield] at hrel
  generalize ho : x.tree.field? key = o at hrel
  cases hrel with
  | some hv =>
    rcases hv.item hj with hextra | ⟨items, i, t, rfl, hi, hij, hgrown⟩
    · exact .inl hextra
    · refine .inr ⟨⟨x.place ++ [.field key, .item i], t⟩, ⟨items, i, ho, hi, rfl⟩, hgrown, ?_⟩
      intro hnone
      rw [hplace, h.place hnone, hij hnone]

theorem exists_of_mem_right {α β : Type} {R : α → β → Prop} {as : List α} {bs : List β}
    (h : List.Forall₂ R as bs) {b : β} (hb : b ∈ bs) : ∃ a ∈ as, R a b := by
  induction h with
  | nil => cases hb
  | @cons a c as bs hac _ ih =>
    rcases List.mem_cons.mp hb with rfl | hb
    · exact ⟨a, List.mem_cons_self, hac⟩
    · obtain ⟨a', ha', hab⟩ := ih hb
      exact ⟨a', List.mem_cons_of_mem _ ha', hab⟩

/-- The kind and the offsets are no nodes, so a child stands in one of the other fields. -/
theorem exists_field_of_mem_children {kind : String} {start stop : Int}
    {fields : List (String × Tree)} {c : Spot} (htree : x.tree = .object
      (("type", .text kind) :: ("start", .int start) :: ("end", .int stop) :: fields))
    (hc : (c, key) ∈ x.children) :
    ∃ value, (key, value) ∈ fields ∧ key ∉ metadataKeys ∧ c ∈ fieldNodes x.place key value := by
  obtain ⟨all, value, hall, hmem, hmeta, hnode⟩ := Spot.mem_children.mp hc
  obtain ⟨hisNode, hvalue⟩ := mem_fieldNodes.mp hnode
  rw [htree, Tree.object.injEq] at hall
  subst hall
  have hother : value.isNode = true ∨ ∃ items, value = .list items := by
    rcases hvalue with rfl | ⟨items, _, hlist, -⟩
    · exact .inl hisNode
    · exact .inr ⟨items, hlist⟩
  refine ⟨value, ?_, hmeta, hnode⟩
  simp only [List.mem_cons, Prod.mk.injEq] at hmem
  rcases hmem with ⟨-, rfl⟩ | ⟨-, rfl⟩ | ⟨-, rfl⟩ | hmem
  · simp [Tree.isNode, Tree.field?] at hother
  · simp [Tree.isNode, Tree.field?] at hother
  · simp [Tree.isNode, Tree.field?] at hother
  · exact hmem

/-- A child of the second spot belongs to an attribute more, or it has a twin. -/
theorem Twin.child (hb : Bridge R extra) (h : Twin R extra s s' x x') {c' : Spot}
    (hc : (c', key) ∈ x'.children) :
    Added extra s' c'.tree ∨ ∃ c, (c, key) ∈ x.children ∧ Twin R extra s s' c c' := by
  obtain ⟨kind, start, stop, start', stop', fields, fields', htree, htree', hfields⟩ := h.fields hb
  obtain ⟨value', hfield, hmeta, hnode⟩ := exists_field_of_mem_children htree' hc
  obtain ⟨hisNode, hvalue⟩ := mem_fieldNodes.mp hnode
  obtain ⟨⟨k, value⟩, hmem', rfl, hrel⟩ := exists_of_mem_right hfields hfield
  have hchild {c : Spot} (hcnode : c.tree.isNode = true)
      (hc : c = ⟨x.place ++ [.field k], value⟩ ∨ ∃ items i, value = .list items ∧
        items[i]? = some c.tree ∧ c.place = x.place ++ [.field k, .item i]) :
      (c, k) ∈ x.children :=
    Spot.mem_children.mpr ⟨_, value, htree, by simp [hmem'], hmeta,
      mem_fieldNodes.mpr ⟨hcnode, hc⟩⟩
  rcases hvalue with rfl | ⟨items', j, rfl, hj, hplace⟩
  · rcases hrel.node hisNode with ⟨-, hadded⟩ | ⟨role, n, n', hn, ht, ht'⟩
    · exact .inl hadded
    · refine .inr ⟨_, hchild ht.isNode (.inl rfl), ⟨role, n, n', hn, ht, ht'⟩, fun hnone => ?_⟩
      rw [h.place hnone]
  · rcases hrel.item hj with hextra | ⟨items, i, t, rfl, hi, hij, hgrown⟩
    · exact .inl hextra
    · obtain ⟨role, n, n', hn, ht, ht'⟩ := hgrown
      refine .inr ⟨⟨x.place ++ [.field k, .item i], t⟩,
        hchild ht.isNode (.inr ⟨items, i, rfl, hi, rfl⟩), ⟨role, n, n', hn, ht, ht'⟩, ?_⟩
      intro hnone
      rw [hplace, h.place hnone, hij hnone]

end Twins

/-! ## Growing the other tree -/

/-- The second text has room for its nodes: their offsets lie in it, and trees are grown from the
attributes more, also where these are taken for names. -/
structure Fertile (R : Concrete.Use → Concrete → Concrete → Prop) (extra : Concrete → Prop)
    (s' : SourceText) : Prop where
  offsets : ∀ u n n', R u n n' → ∃ start stop,
    s'.charOffset n'.head.start = .ok start ∧ s'.charOffset n'.head.stop = .ok stop
  attributes : ∀ c, extra c → ∃ t, Grown s' .namedAttribute c t
  names : ∀ c, extra c → ∃ t, Grown s' .name c t

section Existence

variable {R : Concrete.Use → Concrete → Concrete → Prop} {extra : Concrete → Prop}
  {s s' : SourceText}

theorem Fertile.exists_grownItems (hf : Fertile R extra s')
    {nodes nodes' : List (Role × Concrete)}
    (h : Padded (fun p => p.1 = .namedAttribute ∧ extra p.2)
      (fun p p' => p.1 = p'.1 ∧ Counterpart R p.1 p.2 p'.2) nodes nodes')
    (hnodes : ∀ p ∈ nodes, ∀ n', Counterpart R p.1 p.2 n' → ∃ t', Grown s' p.1 n' t') :
    ∃ items', GrownItems s' nodes' items' := by
  induction h with
  | nil => exact ⟨[], .nil⟩
  | @pad p' nodes nodes' hp' _ ih =>
    obtain ⟨role', c⟩ := p'
    obtain ⟨rfl, hc⟩ := hp'
    obtain ⟨t', ht'⟩ := hf.attributes c hc
    obtain ⟨items', hitems'⟩ := ih hnodes
    exact ⟨t' :: items', .cons ht' hitems'⟩
  | @keep p p' nodes nodes' hpp _ ih =>
    obtain ⟨hp, hrest⟩ := List.forall_mem_cons.mp hnodes
    obtain ⟨role', n'⟩ := p'
    obtain ⟨rfl, hn⟩ := hpp
    obtain ⟨t', ht'⟩ := hp n' hn
    obtain ⟨items', hitems'⟩ := ih hrest
    exact ⟨t' :: items', .cons ht' hitems'⟩

mutual

/-- Where a tree is grown from one of two counterparts, one is grown from the other. -/
theorem Grown.exists_counterpart (hb : Bridge R extra) (hf : Fertile R extra s') {role : Role}
    {n n' : Concrete} {t : Tree} :
    Grown s role n t → Counterpart R role n n' → ∃ t', Grown s' role n' t'
  | .node hrecipe _ hfields, hn => by
    have hrel : Option.Rel (RecipeRel R extra) (recipe s role n) (recipe s' role n') := hb.recipe hn
    rw [hrecipe] at hrel
    generalize hrecipe' : recipe s' role n' = o at hrel
    cases hrel with
    | some hr =>
      obtain ⟨fields', hfields'⟩ := hfields.exists_counterpart hb hf hr.fields
      obtain ⟨u, hR, -⟩ := hn
      obtain ⟨start, stop, hstart, hstop⟩ := hf.offsets u n n' hR
      cases role with
      | file => exact ⟨_, .node hrecipe' ⟨rfl, rfl⟩ hfields'⟩
      | _ => exact ⟨_, .node hrecipe' ⟨hstart, hstop⟩ hfields'⟩

theorem GrownFields.exists_counterpart (hb : Bridge R extra) (hf : Fertile R extra s')
    {parts parts' : List (String × Part)} {fields : List (String × Tree)} :
    GrownFields s parts fields → List.Forall₂ (FieldRel R extra) parts parts' →
      ∃ fields', GrownFields s' parts' fields'
  | .nil, hparts => by
    cases hparts
    exact ⟨[], .nil⟩
  | .cons hvalue hfields, hparts => by
    cases hparts with
    | @cons _ f' _ _ hpart hrest =>
      have hv' : ∃ v', GrownPart s' f'.2 v' := by
        rcases hpart.part with hpart | ⟨-, c, hc, hname⟩
        · exact hvalue.exists_counterpart hb hf hpart
        · rw [hname]
          obtain ⟨t', ht'⟩ := hf.names c hc
          exact ⟨t', .one ht'⟩
      obtain ⟨v', hv'⟩ := hv'
      obtain ⟨fields', hfields'⟩ := hfields.exists_counterpart hb hf hrest
      exact ⟨_, .cons hv' hfields'⟩

theorem GrownPart.exists_counterpart (hb : Bridge R extra) (hf : Fertile R extra s')
    {part part' : Part} {v : Tree} :
    GrownPart s part v → PartRel R extra part part' → ∃ v', GrownPart s' part' v'
  | .null, hpart => by
    cases hpart
    exact ⟨_, .null⟩
  | .text _, hpart => by
    cases hpart
    exact ⟨_, .text _⟩
  | .bool _, hpart => by
    cases hpart
    exact ⟨_, .bool _⟩
  | .one h, hpart => by
    cases hpart with
    | one hn =>
      obtain ⟨t', ht'⟩ := h.exists_counterpart hb hf hn
      exact ⟨t', .one ht'⟩
  | .many h, hpart => by
    cases hpart with
    | many hnodes =>
      obtain ⟨items', hitems'⟩ :=
        hf.exists_grownItems hnodes fun p hp n' => h.exists_counterpart hb hf p hp n'
      exact ⟨_, .many hitems'⟩

theorem GrownItems.exists_counterpart (hb : Bridge R extra) (hf : Fertile R extra s')
    {nodes : List (Role × Concrete)} {items : List Tree} : GrownItems s nodes items →
      ∀ p ∈ nodes, ∀ n', Counterpart R p.1 p.2 n' → ∃ t', Grown s' p.1 n' t'
  | .nil, _, hp, _ => nomatch hp
  | .cons h hitems, p, hp, n' => by
    rcases List.mem_cons.mp hp with rfl | hp
    · exact h.exists_counterpart hb hf
    · exact hitems.exists_counterpart hb hf p hp n'

end

end Existence

/-! ## What is topmost -/

/-- The spot belongs to an attribute that only the second tree has. -/
def Fresh (extra : Concrete → Prop) (s' : SourceText) (x' : Spot) : Prop :=
  ∃ a' : Spot, Added extra s' a'.tree ∧ a'.Within x'

/-- The kinds of node that a plain attribute with a string is made of. -/
def attributeKinds : List String := ["JSXAttribute", "JSXIdentifier", "StringLiteral"]

namespace Twin

open Spot Relation

variable {R : Concrete.Use → Concrete → Concrete → Prop} {extra : Concrete → Prop}
  {s s' : SourceText} {x x' y' : Spot}

/-- If the second spot is a node, the two are twins. -/
def Like (R : Concrete.Use → Concrete → Concrete → Prop) (extra : Concrete → Prop)
    (s s' : SourceText) (x x' : Spot) : Prop :=
  x'.tree.isNode = true → Twin R extra s s' x x'

section Shape

variable (hb : Bridge R extra)
include hb

theorem within (h : Twin R extra s s' x x') (hy : Within x' y') :
    Fresh extra s' y' ∨ ∃ y, Within x y ∧ Twin R extra s s' y y' := by
  induction hy with
  | refl => exact .inr ⟨x, .refl, h⟩
  | tail _ hchild ih =>
    obtain ⟨key, hc⟩ := hchild
    rcases ih with ⟨a', hfresh, ha⟩ | ⟨y, hy, hyy⟩
    · exact .inl ⟨a', hfresh, ha.tail ⟨key, hc⟩⟩
    · rcases hyy.child hb hc with hfresh | ⟨c, hc, hcc⟩
      · exact .inl ⟨_, hfresh, .refl⟩
      · exact .inr ⟨c, hy.tail ⟨key, hc⟩, hcc⟩

theorem below (h : Twin R extra s s' x x') (hy : Below x' y') :
    Fresh extra s' y' ∨ ∃ y, Below x y ∧ Twin R extra s s' y y' := by
  obtain ⟨z', hz, key, hc⟩ := TransGen.tail'_iff.mp hy
  rcases h.within hb hz with ⟨a', hfresh, ha⟩ | ⟨z, hz, hzz⟩
  · exact .inl ⟨a', hfresh, ha.tail ⟨key, hc⟩⟩
  · rcases hzz.child hb hc with hfresh | ⟨c, hc, hcc⟩
    · exact .inl ⟨_, hfresh, .refl⟩
    · exact .inr ⟨c, TransGen.tail' hz ⟨key, hc⟩, hcc⟩

theorem like_get (h : Twin R extra s s' x x') {key : String} (hkey : key ∉ ownKeys) :
    Like R extra s s' (x.get key) (x'.get key) := h.get hb hkey

theorem isA_of_like (h : Like R extra s s' x x') {kind : String} (hkind : x'.tree.isA kind = true) :
    Twin R extra s s' x x' ∧ x.tree.isA kind = true := by
  have htwin := h (Tree.isNode_of_isA hkind)
  exact ⟨htwin, htwin.isA hb kind ▸ hkind⟩

theorem isConjunction (h : Twin R extra s s' x x') :
    x'.tree.isConjunction = x.tree.isConjunction := by
  have hoperator : (x'.tree.get "operator").isText "&&" = (x.tree.get "operator").isText "&&" := by
    have hrel := h.field? hb (show "operator" ∉ baseKeys by decide)
    rw [Tree.get, Tree.get]
    generalize x.tree.field? "operator" = o at hrel
    generalize x'.tree.field? "operator" = o' at hrel
    cases hrel with
    | none => rfl
    | some hv =>
      obtain ⟨part, part', -, hv, hv', hsame⟩ := hv.parts
      obtain rfl := hsame rfl
      cases hv with
      | one ht =>
        cases hv' with
        | one ht' => cases ht; cases ht'; rfl
      | null | text | bool | many => cases hv'; rfl
  rw [Tree.isConjunction, Tree.isConjunction, h.isA hb, hoperator]

theorem encloses (h : Like R extra s s' x x') (he : Encloses x' y') :
    ∃ y, Encloses x y ∧ Like R extra s s' y y' := by
  obtain ⟨hp, rfl⟩ := he
  obtain ⟨htwin, hkind⟩ := isA_of_like hb h hp
  exact ⟨_, ⟨hkind, rfl⟩, htwin.like_get hb (by decide)⟩

theorem layer (h : Like R extra s s' x x') (he : Layer x' y') :
    ∃ y, Layer x y ∧ Like R extra s s' y y' := by
  rcases he with he | ⟨hc, rfl⟩
  · obtain ⟨y, hy, hyy⟩ := encloses hb h he
    exact ⟨y, .inl hy, hyy⟩
  · obtain ⟨htwin, -⟩ := isA_of_like hb h (Tree.isA_of_isConjunction hc)
    exact ⟨_, .inr ⟨htwin.isConjunction hb ▸ hc, rfl⟩, htwin.like_get hb (by decide)⟩

theorem branch (h : Like R extra s s' x x') (he : Branch x' y') :
    ∃ y, Branch x y ∧ Like R extra s s' y y' := by
  obtain ⟨hc, hy⟩ := he
  obtain ⟨htwin, hkind⟩ := isA_of_like hb h hc
  rcases hy with rfl | rfl
  · exact ⟨_, ⟨hkind, .inl rfl⟩, htwin.like_get hb (by decide)⟩
  · exact ⟨_, ⟨hkind, .inr rfl⟩, htwin.like_get hb (by decide)⟩

omit hb in
/-- What each step keeps, any number of steps keeps. -/
theorem steps {P : Spot → Spot → Prop}
    (hstep : ∀ {a a' b'}, Like R extra s s' a a' → P a' b' →
      ∃ b, P a b ∧ Like R extra s s' b b')
    (h : Like R extra s s' x x') (hy : ReflTransGen P x' y') :
    ∃ y, ReflTransGen P x y ∧ Like R extra s s' y y' := by
  induction hy with
  | refl => exact ⟨x, .refl, h⟩
  | tail _ hlast ih =>
    obtain ⟨z, hz, hzz⟩ := ih
    obtain ⟨y, hy, hyy⟩ := hstep hzz hlast
    exact ⟨y, hz.tail hy, hyy⟩

theorem reveals (h : Like R extra s s' x x') (hy : Reveals x' y') :
    ∃ y, Reveals x y ∧ Like R extra s s' y y' := by
  refine steps (fun {a a' b'} ha hstep => ?_) h hy
  rcases hstep with hl | hbranch
  · obtain ⟨b, hb', hbb⟩ := layer hb ha hl
    exact ⟨b, .inl hb', hbb⟩
  · obtain ⟨b, hb', hbb⟩ := branch hb ha hbranch
    exact ⟨b, .inr hb', hbb⟩

theorem embeds (h : Like R extra s s' x x') (hy : Embeds x' y') :
    ∃ y, Embeds x y ∧ Twin R extra s s' y y' := by
  rcases hy with ⟨hchain, hel⟩ | ⟨hfirst, hbranch, hlast, hel⟩
  · obtain ⟨y, hy, hyy⟩ := steps (layer hb) h hchain
    obtain ⟨htwin, hkind⟩ := isA_of_like hb hyy hel
    exact ⟨y, .chain hy hkind, htwin⟩
  · obtain ⟨e, he, hee⟩ := steps (encloses hb) h hfirst
    obtain ⟨b, hb', hbb⟩ := branch hb hee hbranch
    obtain ⟨y, hy, hyy⟩ := steps (encloses hb) hbb hlast
    obtain ⟨htwin, hkind⟩ := isA_of_like hb hyy hel
    exact ⟨y, .branch he hb' hy hkind, htwin⟩

theorem yields (h : Like R extra s s' x x') (hy : Yields x' y') :
    ∃ y, Yields x y ∧ Twin R extra s s' y y' := by
  rcases hy with hel | ⟨hc, hemb⟩
  · obtain ⟨htwin, hkind⟩ := isA_of_like hb h hel
    exact ⟨x, .element hkind, htwin⟩
  · obtain ⟨htwin, hkind⟩ := isA_of_like hb h hc
    obtain ⟨y, hy, hyy⟩ := embeds hb (htwin.like_get hb (by decide)) hemb
    exact ⟨y, .embedded hkind hy, hyy⟩

theorem isComponent (h : Twin R extra s s' x x') (hc : x'.tree.IsComponent) :
    x.tree.IsComponent := by
  rcases hc with hfun | ⟨hvar, hinit⟩
  · exact .inl (h.isA hb _ ▸ hfun)
  · have hlike := h.like_get hb (show "init" ∉ ownKeys by decide)
    exact .inr ⟨h.isA hb _ ▸ hvar,
      hinit.imp (fun hk => (isA_of_like hb hlike hk).2) fun hk => (isA_of_like hb hlike hk).2⟩

theorem returns (h : Twin R extra s s' x x') (hr : Returns x' y') :
    ∃ y, Returns x y ∧ Like R extra s s' y y' := by
  cases hr with
  | statement hk => exact ⟨_, .statement (h.isA hb _ ▸ hk), h.like_get hb (by decide)⟩
  | arrow hk hnode hblock =>
    have hbody := h.get hb (by decide) hnode
    refine ⟨_, .arrow (h.isA hb _ ▸ hk) ?_ (hbody.isA hb _ ▸ hblock), fun _ => hbody⟩
    obtain ⟨_, _, _, -, hgrown, -⟩ := hbody.grown
    exact hgrown.isNode

theorem hasTag (h : Twin R extra s s' x x') (hx : x.HasTag) : x'.HasTag := by
  have hrel := h.field? hb (show "openingElement" ∉ baseKeys by decide)
  rw [HasTag] at hx ⊢
  generalize x.tree.field? "openingElement" = o at hrel hx
  generalize x'.tree.field? "openingElement" = o' at hrel
  cases hrel with
  | none => cases hx
  | some _ => rfl

end Shape

variable (hb : Bridge R extra)
  (hquiet : ∀ z, Fresh extra s' z → ∀ kind, z.tree.isA kind = true → kind ∈ attributeKinds)
include hb hquiet

theorem offers (h : Twin R extra s s' x x') (hy : Offers x' y') :
    ∃ y, Offers x y ∧ Twin R extra s s' y y' := by
  obtain ⟨c', hc', hyields⟩ := hy
  rcases h.entry hb (by decide) hc' with hextra | ⟨c, hc, hcc⟩
  · have hfresh : Fresh extra s' c' := ⟨c', hextra, .refl⟩
    rcases hyields with hel | ⟨hcont, -⟩
    · exact absurd (hquiet _ hfresh _ hel) (by decide)
    · exact absurd (hquiet _ hfresh _ hcont) (by decide)
  · obtain ⟨y, hy, hyy⟩ := yields hb (fun _ => hcc) hyields
    exact ⟨y, ⟨c, hc, hy⟩, hyy⟩

theorem renders (h : Like R extra s s' x x') (hy : Renders x' y') :
    ∃ y, Renders x y ∧ Twin R extra s s' y y' := by
  rcases hy with ⟨hr, hel⟩ | ⟨hr, hfrag, hoffers⟩
  · obtain ⟨y, hy, hyy⟩ := reveals hb h hr
    obtain ⟨htwin, hkind⟩ := isA_of_like hb hyy hel
    exact ⟨y, .element hy hkind, htwin⟩
  · obtain ⟨f, hf, hff⟩ := reveals hb h hr
    obtain ⟨htwin, hkind⟩ := isA_of_like hb hff hfrag
    obtain ⟨y, hy, hyy⟩ := htwin.offers hb hquiet hoffers
    exact ⟨y, .fragment hf hkind hy, hyy⟩

/-- A node within the second spot has a twin, unless its kind is one of an attribute's. -/
theorem within_of_isA (h : Twin R extra s s' x x') (hy : Within x' y') {kind : String}
    (hkind : y'.tree.isA kind = true) (hother : kind ∉ attributeKinds) :
    ∃ y, Within x y ∧ Twin R extra s s' y y' := by
  rcases h.within hb hy with hfresh | htwin
  · exact absurd (hquiet _ hfresh _ hkind) hother
  · exact htwin

theorem returnSite (h : Twin R extra s s' x x') (hy : ReturnSite x' y') :
    ∃ y, ReturnSite x y ∧ Like R extra s s' y y' := by
  obtain ⟨hcomp, site', hsite, hreturns⟩ := hy
  have hkind : ∃ kind, site'.tree.isA kind = true ∧ kind ∉ attributeKinds := by
    cases hreturns with
    | statement hk => exact ⟨_, hk, by decide⟩
    | arrow hk => exact ⟨_, hk, by decide⟩
  obtain ⟨kind, hkind, hother⟩ := hkind
  rcases h.below hb hsite with hfresh | ⟨site, hsite, hss⟩
  · exact absurd (hquiet _ hfresh _ hkind) hother
  · obtain ⟨y, hy, hyy⟩ := hss.returns hb hreturns
    exact ⟨y, ⟨h.isComponent hb hcomp, site, hsite, hy⟩, hyy⟩

theorem attributeSite (h : Twin R extra s s' x x') (hy : AttributeSite x' y') :
    ∃ y, AttributeSite x y ∧ Like R extra s s' y y' := by
  obtain ⟨hattr, c', hc', hcont, rfl⟩ := hy
  rcases h.child hb hc' with hextra | ⟨c, hc, hcc⟩
  · exact absurd (hquiet c' ⟨c', hextra, .refl⟩ _ hcont) (by decide)
  · have hcont := (isA_of_like hb (fun _ => hcc) hcont).2
    exact ⟨_, ⟨h.isA hb _ ▸ hattr, c, hc, hcont, rfl⟩, hcc.like_get hb (by decide)⟩

/-- A topmost element of the second tree is the twin of a topmost element of the first. -/
theorem topmost (h : Twin R extra s s' x x') (hy : Topmost x' y') :
    ∃ y, Topmost x y ∧ Twin R extra s s' y y' := by
  cases hy with
  | @returned d' e' _ hd' hsite hrenders =>
    have hkind : ∃ kind, d'.tree.isA kind = true ∧ kind ∉ attributeKinds := by
      rcases hsite.1 with hfun | ⟨hvar, -⟩
      · exact ⟨_, hfun, by decide⟩
      · exact ⟨_, hvar, by decide⟩
    obtain ⟨kind, hkind, hother⟩ := hkind
    obtain ⟨d, hd, hdd⟩ := h.within_of_isA hb hquiet hd' hkind hother
    obtain ⟨e, he, hee⟩ := hdd.returnSite hb hquiet hsite
    obtain ⟨y, hy, hyy⟩ := renders hb hquiet hee hrenders
    exact ⟨y, .returned hd he hy, hyy⟩
  | @given a' e' _ ha' hsite hembeds =>
    rcases h.within hb ha' with ⟨b', hextra, hwithin⟩ | ⟨a, ha, haa⟩
    · -- the value of a new attribute stands in no braces
      obtain ⟨-, c', hc', hcont, -⟩ := hsite
      have hfresh : Fresh extra s' c' := ⟨b', hextra, hwithin.tail ⟨_, hc'⟩⟩
      exact absurd (hquiet c' hfresh _ hcont) (by decide)
    · obtain ⟨e, he, hee⟩ := haa.attributeSite hb hquiet hsite
      obtain ⟨y, hy, hyy⟩ := embeds hb hee hembeds
      exact ⟨y, .given ha he hy, hyy⟩

end Twin

end TopTag
