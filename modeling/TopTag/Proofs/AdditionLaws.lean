import TopTag.Proofs.Additions

/-!
# Laws of adding attributes

What is added depends only on the additions at and below a place; adding twice is adding once; and
to put a tag with an attribute more in the place of the tag is to add that attribute there.
-/

namespace TopTag

namespace Tree

/-! ## Where additions matter -/

theorem withAttributesItems_congr {added more : Additions} {place : Place} {items : List Tree}
    (h : ∀ k, ∀ t ∈ items, t.withAttributes added (place ++ [.item k])
      = t.withAttributes more (place ++ [.item k])) (i : Nat) :
    withAttributesItems added place i items = withAttributesItems more place i items := by
  refine List.ext_getElem? fun k => ?_
  rw [getElem?_withAttributesItems, getElem?_withAttributesItems]
  cases hk : items[k]? with
  | none => rfl
  | some t => rw [Option.map_some, Option.map_some, h _ t (List.mem_of_getElem? hk)]

theorem withAttributesFields_congr {added more : Additions} {place : Place}
    {fields : List (String × Tree)} (h : ∀ f ∈ fields,
      f.2.withAttributes added (place ++ [.field f.1])
        = f.2.withAttributes more (place ++ [.field f.1])) :
    withAttributesFields added place fields = withAttributesFields more place fields := by
  rw [withAttributesFields_eq_map, withAttributesFields_eq_map]
  exact List.map_congr_left fun f hf => by rw [h f hf]

/-- Only the additions at and below a place change what stands there. -/
theorem withAttributes_congr {added more : Additions} {place : Place} {t : Tree}
    (h : ∀ q, place <+: q → added q = more q) :
    t.withAttributes added place = t.withAttributes more place := by
  induction t using Tree.induction generalizing place with
  | list items ih =>
    have hitems :
        withAttributesItems added place 0 items = withAttributesItems more place 0 items :=
      withAttributesItems_congr
        (fun k t ht => ih t ht fun q hq => h q ((List.prefix_append _ _).trans hq)) 0
    rw [withAttributes, withAttributes, hitems]
  | object fields ih =>
    have hnodes : added.nodes place = more.nodes place := by
      rw [Additions.nodes, h place (List.prefix_refl _), Additions.nodes]
    have hfields :
        withAttributesFields added place fields = withAttributesFields more place fields :=
      withAttributesFields_congr fun f hf =>
        ih f hf fun q hq => h q ((List.prefix_append _ _).trans hq)
    rw [withAttributes, withAttributes, hnodes, hfields]
  | _ => rfl

theorem withAttributesItems_self {added : Additions} {place : Place} {items : List Tree}
    (h : ∀ k, ∀ t ∈ items, t.withAttributes added (place ++ [.item k]) = t) (i : Nat) :
    withAttributesItems added place i items = items := by
  refine List.ext_getElem? fun k => ?_
  rw [getElem?_withAttributesItems]
  cases hk : items[k]? with
  | none => rfl
  | some t => rw [Option.map_some, h _ t (List.mem_of_getElem? hk)]

theorem withAttributesFields_self {added : Additions} {place : Place}
    {fields : List (String × Tree)}
    (h : ∀ f ∈ fields, f.2.withAttributes added (place ++ [.field f.1]) = f.2) :
    withAttributesFields added place fields = fields := by
  rw [withAttributesFields_eq_map]
  refine (List.map_congr_left fun f hf => ?_).trans (List.map_id fields)
  rw [h f hf, id_eq]

theorem withAttributes_nil (place : Place) (t : Tree) :
    t.withAttributes (fun _ => []) place = t := by
  induction t using Tree.induction generalizing place with
  | list items ih =>
    rw [withAttributes, withAttributesItems_self fun k t ht => ih t ht _]
  | object fields ih =>
    rw [withAttributes, withAttributesFields_self fun f hf => ih f hf _]
    exact congrArg Tree.object (ite_self fields)
  | _ => rfl

/-- Nothing changes where nothing is added. -/
theorem withAttributes_of_nil {added : Additions} {place : Place} {t : Tree}
    (h : ∀ q, place <+: q → added q = []) : t.withAttributes added place = t := by
  rw [withAttributes_congr h, withAttributes_nil]

theorem IsAttributePart.withAttributes {t : Tree} (h : t.IsAttributePart) (added : Additions)
    (place : Place) : t.withAttributes added place = t := by
  cases h <;> rfl

/-! ## Adding twice -/

theorem withAttributesItems_append (added : Additions) (place : Place) (i : Nat)
    (as bs : List Tree) :
    withAttributesItems added place i (as ++ bs) =
      withAttributesItems added place i as
        ++ withAttributesItems added place (i + as.length) bs := by
  induction as generalizing i with
  | nil => rfl
  | cons a as ih =>
    have hlen : i + (a :: as).length = i + 1 + as.length := by
      rw [List.length_cons]
      omega
    rw [List.cons_append, withAttributesItems, withAttributesItems, ih, hlen, List.cons_append]

theorem withAttributesItems_parts (added : Additions) (place : Place) {as : List Tree}
    (has : ∀ a ∈ as, a.IsAttributePart) (i : Nat) : withAttributesItems added place i as = as :=
  withAttributesItems_self (fun _ a ha => (has a ha).withAttributes _ _) i

theorem withAttributesFields_updateField (added : Additions) (place : Place) (t : Tree)
    (key : String) (fields : List (String × Tree)) :
    withAttributesFields added place (updateField (fun _ => t) key fields) =
      updateField (fun _ => t.withAttributes added (place ++ [.field key])) key
        (withAttributesFields added place fields) := by
  induction fields with
  | nil => rfl
  | cons f rest ih =>
    obtain ⟨k, u⟩ := f
    by_cases hk : k = key
    · subst hk
      simp [updateField, withAttributesFields]
    · simp [updateField, withAttributesFields, hk, ih]

/-- Attributes that were added have nothing added to them. -/
theorem withAttributesFields_appendAttributes (added : Additions) (place : Place) {as : List Tree}
    (has : ∀ a ∈ as, a.IsAttributePart) (fields : List (String × Tree)) :
    withAttributesFields added place (appendAttributes as fields) =
      appendAttributes as (withAttributesFields added place fields) := by
  by_cases hnil : as = []
  · subst hnil
    rfl
  have hlookup := lookup_withAttributesFields added place "attributes" fields
  cases h : fields.lookup "attributes" with
  | none =>
    rw [h] at hlookup
    rw [appendAttributes_of_missing hnil h, appendAttributes_of_missing hnil hlookup]
    simp [withAttributesFields_eq_map, withAttributes, withAttributesItems_parts added _ has]
  | some t =>
    rw [h] at hlookup
    cases t with
    | list items =>
      rw [appendAttributes_of_list h, appendAttributes_of_list hlookup,
        withAttributesFields_updateField, withAttributes, withAttributesItems_append,
        withAttributesItems_parts added _ has]
    | _ =>
      rw [appendAttributes_of_other h (by simp),
        appendAttributes_of_other hlookup (by simp [withAttributes])]

theorem updateField_append_of_missing (f : Tree → Tree) {key : String} (t : Tree)
    {fields : List (String × Tree)} (h : fields.lookup key = none) :
    updateField f key (fields ++ [(key, t)]) = fields ++ [(key, f t)] := by
  induction fields with
  | nil => simp [updateField]
  | cons e rest ih =>
    obtain ⟨k, u⟩ := e
    rw [List.lookup_cons] at h
    split at h
    · cases h
    · rename_i hne
      have hk : k ≠ key := Ne.symm (by simpa using hne)
      simp [updateField, hk, ih h]

theorem appendAttributes_append (as bs : List Tree) (fields : List (String × Tree)) :
    appendAttributes bs (appendAttributes as fields) = appendAttributes (as ++ bs) fields := by
  by_cases hnil : as = []
  · subst hnil
    rfl
  cases h : fields.lookup "attributes" with
  | none =>
    have hnew : (fields ++ [("attributes", list as)]).lookup "attributes" = some (.list as) := by
      rw [List.lookup_append, h]
      rfl
    have hnil' : as ++ bs ≠ [] := by simp [hnil]
    rw [appendAttributes_of_missing hnil h, appendAttributes_of_list hnew,
      appendAttributes_of_missing hnil' h, updateField_append_of_missing _ _ h]
  | some t =>
    cases t with
    | list items =>
      have hnew : (updateField (fun _ => .list (items ++ as)) "attributes" fields).lookup
          "attributes" = some (.list (items ++ as)) := by
        rw [lookup_updateField_self, h]
        rfl
      rw [appendAttributes_of_list h, appendAttributes_of_list hnew, updateField_updateField,
        appendAttributes_of_list h, List.append_assoc]
    | _ => simp only [appendAttributes_of_other h (by simp)]

/-- To add in two rounds is to add once. -/
theorem withAttributes_withAttributes (added more : Additions) (place : Place) (t : Tree) :
    (t.withAttributes added place).withAttributes more place =
      t.withAttributes (fun q => added q ++ more q) place := by
  induction t using Tree.induction generalizing place with
  | list items ih =>
    rw [withAttributes, withAttributes, withAttributes]
    congr 1
    refine List.ext_getElem? fun k => ?_
    rw [getElem?_withAttributesItems, getElem?_withAttributesItems, getElem?_withAttributesItems]
    cases hk : items[k]? with
    | none => rfl
    | some t => simp [ih t (List.mem_of_getElem? hk)]
  | object fields ih =>
    have hfields : withAttributesFields more place (withAttributesFields added place fields) =
        withAttributesFields (fun q => added q ++ more q) place fields := by
      simp only [withAttributesFields_eq_map, List.map_map]
      exact List.map_congr_left fun f hf => by simp [ih f hf]
    have hnodes : Additions.nodes (fun q => added q ++ more q) place =
        added.nodes place ++ more.nodes place := List.map_append
    have hkind := isA_withAttributes added place (.object fields) "JSXOpeningElement"
    rw [withAttributes] at hkind ⊢
    rw [withAttributes, withAttributes, hkind, hnodes]
    congr 1
    split
    · rw [withAttributesFields_appendAttributes _ _ (added.isAttributePart_nodes place), hfields,
        appendAttributes_append]
    · exact hfields
  | _ => rfl

/-! ## Places -/

/-- A field's value has attributes added to it, and a list of attributes has some put behind it. -/
theorem field?_withAttributes_of_some {t v : Tree} {key : String} (added : Additions)
    (place : Place) (h : t.field? key = some v) :
    (t.withAttributes added place).field? key
        = some (v.withAttributes added (place ++ [.field key])) ∨
      key = "attributes" ∧ ∃ items, v = .list items ∧ (t.withAttributes added place).field? key
        = some (.list (withAttributesItems added (place ++ [.field key]) 0 items
          ++ added.nodes place)) := by
  by_cases hkey : key = "attributes"
  · subst hkey
    obtain ⟨fields, rfl, -⟩ := mem_of_at?_field h
    have hlookup := lookup_withAttributesFields added place "attributes" fields
    rw [show fields.lookup "attributes" = some v from h, Option.map_some] at hlookup
    simp only [withAttributes, field?]
    split
    · cases v with
      | list items =>
        refine .inr ⟨trivial, items, rfl, ?_⟩
        rw [appendAttributes_of_list hlookup, lookup_updateField_self, hlookup]
        rfl
      | _ =>
        exact .inl (by rw [appendAttributes_of_other hlookup (by simp [withAttributes]), hlookup])
    · exact .inl hlookup
  · exact .inl (by rw [field?_withAttributes added place t hkey, h, Option.map_some])

/-- What stands at a place still does, with attributes added; a list of attributes has those meant
for its tag behind its items. -/
theorem at?_withAttributes_or {t u : Tree} {q : Place} (added : Additions) (place : Place)
    (h : t.at? q = some u) :
    (t.withAttributes added place).at? q = some (u.withAttributes added (place ++ q)) ∨
      ∃ p items, place ++ q = p ++ [.field "attributes"] ∧ u = .list items ∧
        (t.withAttributes added place).at? q =
          some (.list (withAttributesItems added (place ++ q) 0 items ++ added.nodes p)) := by
  fun_induction at? t q generalizing place with
  | case1 t =>
    cases h
    rw [at?_nil, List.append_nil]
    exact .inl rfl
  | case2 t key rest ih =>
    obtain ⟨v, hv, hrest⟩ := Option.bind_eq_some_iff.mp h
    have hold := ih v (place ++ [.field key]) hrest
    rw [List.append_assoc, List.singleton_append] at hold
    rw [at?_field]
    rcases field?_withAttributes_of_some added place hv with hfield | ⟨rfl, items, rfl, hfield⟩
    · rw [hfield, Option.bind_some]
      exact hold
    · rw [hfield, Option.bind_some]
      cases rest with
      | nil =>
        cases hrest
        exact .inr ⟨place, items, rfl, rfl, at?_nil _⟩
      | cons step rest =>
        -- the value is an item of the list or below one, and the items come first
        cases step with
        | field key => cases hrest
        | item i =>
          obtain ⟨w, hw, -⟩ := Option.bind_eq_some_iff.mp hrest
          have hlt : i < (withAttributesItems added (place ++ [.field "attributes"]) 0
              items).length := by
            rw [length_withAttributesItems]
            exact (List.getElem?_eq_some_iff.mp hw).1
          rw [at?_item, List.getElem?_append_left hlt, ← at?_item, ← withAttributes]
          exact hold
  | case3 items i rest ih =>
    obtain ⟨v, hv, hrest⟩ := Option.bind_eq_some_iff.mp h
    have hold := ih v (place ++ [.item i]) hrest
    rw [List.append_assoc, List.singleton_append] at hold
    rw [withAttributes, at?_item, getElem?_withAttributesItems, hv, Option.map_some,
      Option.bind_some, Nat.zero_add]
    exact hold
  | case4 => cases h

/-- What stands at a place still does, with attributes added; only of a list no more is known than
that it is one. -/
theorem at?_withAttributes_cases {t u : Tree} {q : Place} (added : Additions) (place : Place)
    (h : t.at? q = some u) :
    (t.withAttributes added place).at? q = some (u.withAttributes added (place ++ q)) ∨
      ∃ items items', u = .list items ∧ (t.withAttributes added place).at? q
        = some (.list items') := by
  rcases at?_withAttributes_or added place h with hat | ⟨p, items, -, hu, hat⟩
  · exact .inl hat
  · exact .inr ⟨items, _, hu, hat⟩

/-- An object is still at its place, with attributes added. -/
theorem at?_withAttributes {t u : Tree} {q : Place} (added : Additions) (place : Place)
    (h : t.at? q = some u) (hu : u.isObject = true) :
    (t.withAttributes added place).at? q = some (u.withAttributes added (place ++ q)) := by
  rcases at?_withAttributes_cases added place h with hat | ⟨items, -, rfl, -⟩
  · exact hat
  · cases hu

/-! ## Distinct keys -/

theorem keys_appendAttributes {as : List Tree} {fields : List (String × Tree)}
    (h : (fields.map Prod.fst).Nodup) : ((appendAttributes as fields).map Prod.fst).Nodup := by
  unfold appendAttributes
  split
  · exact h
  · split
    · rename_i hmissing
      have hnot : "attributes" ∉ fields.map Prod.fst := by
        intro hmem
        obtain ⟨⟨key, value⟩, hf, rfl⟩ := List.mem_map.mp hmem
        rw [lookup_of_mem h hf] at hmissing
        cases hmissing
      rw [List.map_append]
      exact List.nodup_append.mpr ⟨h, by simp, by
        rintro key hkey _ hattr rfl
        rw [List.mem_singleton.mp hattr] at hkey
        exact hnot hkey⟩
    · rwa [keys_updateField]
    · exact h

theorem mem_updateField {t : Tree} {key : String} {fields : List (String × Tree)}
    {f : String × Tree} (h : f ∈ updateField (fun _ => t) key fields) : f ∈ fields ∨ f.2 = t := by
  induction fields with
  | nil => cases h
  | cons e rest ih =>
    obtain ⟨k, u⟩ := e
    rw [updateField] at h
    split at h
    · rcases List.mem_cons.mp h with rfl | h
      · exact .inr rfl
      · exact .inl (List.mem_cons_of_mem _ h)
    · rcases List.mem_cons.mp h with rfl | h
      · exact .inl List.mem_cons_self
      · exact (ih h).imp_left (List.mem_cons_of_mem _)

theorem mem_appendAttributes {as : List Tree} {fields : List (String × Tree)}
    {f : String × Tree} (h : f ∈ appendAttributes as fields) :
    f ∈ fields ∨ ∃ items, f.2 = .list (items ++ as) ∧
      (items = [] ∨ ("attributes", .list items) ∈ fields) := by
  unfold appendAttributes at h
  split at h
  · exact .inl h
  · split at h
    · rcases List.mem_append.mp h with h | h
      · exact .inl h
      · exact .inr ⟨[], by rw [List.mem_singleton.mp h]; rfl, .inl rfl⟩
    · rename_i items hlist
      exact (mem_updateField h).imp_right fun hf => ⟨items, hf, .inr (mem_of_lookup hlist)⟩
    · exact .inl h

theorem IsAttributePart.hasDistinctKeys {t : Tree} (h : t.IsAttributePart) :
    t.hasDistinctKeys = true := by
  cases h <;> rfl

theorem hasDistinctKeys_appendAttributes {as : List Tree} (has : ∀ a ∈ as, a.IsAttributePart)
    {fields : List (String × Tree)} (h : (Tree.object fields).hasDistinctKeys = true) :
    (Tree.object (appendAttributes as fields)).hasDistinctKeys = true := by
  rw [hasDistinctKeys_object] at h ⊢
  refine ⟨keys_appendAttributes h.1, fun f hf => ?_⟩
  rcases mem_appendAttributes hf with hf | ⟨items, hf, hitems⟩
  · exact h.2 f hf
  · rw [hf, hasDistinctKeys_list]
    intro t ht
    rcases List.mem_append.mp ht with ht | ht
    · rcases hitems with rfl | hold
      · cases ht
      · exact hasDistinctKeys_list.mp (h.2 _ hold) t ht
    · exact (has t ht).hasDistinctKeys

theorem hasDistinctKeys_withAttributes {t : Tree} (added : Additions) (place : Place)
    (h : t.hasDistinctKeys = true) : (t.withAttributes added place).hasDistinctKeys = true := by
  induction t using Tree.induction generalizing place with
  | list items ih =>
    rw [withAttributes, hasDistinctKeys_list]
    intro t ht
    obtain ⟨k, hk⟩ := List.mem_iff_getElem?.mp ht
    rw [getElem?_withAttributesItems] at hk
    obtain ⟨u, hu, rfl⟩ := Option.map_eq_some_iff.mp hk
    have hmem := List.mem_of_getElem? hu
    exact ih u hmem _ (hasDistinctKeys_list.mp h u hmem)
  | object fields ih =>
    have hfields :
        (Tree.object (withAttributesFields added place fields)).hasDistinctKeys = true := by
      rw [hasDistinctKeys_object] at h ⊢
      rw [withAttributesFields_eq_map]
      refine ⟨by simpa [Function.comp_def] using h.1, fun f hf => ?_⟩
      obtain ⟨g, hg, rfl⟩ := List.mem_map.mp hf
      exact ih g hg _ (h.2 g hg)
    rw [withAttributes]
    split
    · exact hasDistinctKeys_appendAttributes (added.isAttributePart_nodes place) hfields
    · exact hfields
  | _ => exact h

/-! ## Replacing one tag -/

theorem step_eq_of_prefixes {place rest p : Place} {a b : Step} (ha : place ++ [a] <+: p)
    (hb : place ++ b :: rest <+: p) : a = b := by
  obtain ⟨x, rfl⟩ := ha
  obtain ⟨y, hy⟩ := hb
  rw [List.append_assoc, List.append_assoc, List.append_cancel_left_eq] at hy
  exact (List.cons.inj hy).1.symm

/-- A change of one field is an addition when nothing is added in the others. -/
theorem updateField_eq_withAttributesFields {added : Additions} {place : Place}
    {fields : List (String × Tree)} (hkeys : (fields.map Prod.fst).Nodup) {f : Tree → Tree}
    {key : String} {v : Tree} (hv : fields.lookup key = some v)
    (hself : f v = v.withAttributes added (place ++ [.field key]))
    (hothers : ∀ e ∈ fields, e.1 ≠ key →
      e.2.withAttributes added (place ++ [.field e.1]) = e.2) :
    updateField f key fields = withAttributesFields added place fields := by
  induction fields with
  | nil => rfl
  | cons e rest ih =>
    obtain ⟨k, t⟩ := e
    rw [List.map_cons, List.nodup_cons] at hkeys
    rw [updateField, withAttributesFields]
    by_cases hk : k = key
    · subst hk
      rw [List.lookup_cons_self] at hv
      cases hv
      have hrest : withAttributesFields added place rest = rest :=
        withAttributesFields_self fun e he => hothers e (List.mem_cons_of_mem _ he)
          fun hek => hkeys.1 (List.mem_map.mpr ⟨e, he, hek⟩)
      rw [beq_self_eq_true, if_pos rfl, hself, hrest]
    · have hne : (key == k) = false := by simpa using Ne.symm hk
      rw [List.lookup_cons, hne] at hv
      rw [if_neg (by simpa using hk), hothers _ List.mem_cons_self hk,
        ih hkeys.2 hv fun e he => hothers e (List.mem_cons_of_mem _ he)]

/-- To replace the value at a place by the value with attributes added is to add them to the whole
tree, when none are added elsewhere. -/
theorem update_eq_withAttributes {t u : Tree} {added : Additions} {place q : Place}
    (ht : t.hasDistinctKeys = true) (hat : t.at? q = some u)
    (helse : ∀ p, ¬ place ++ q <+: p → added p = []) :
    t.update (fun _ => u.withAttributes added (place ++ q)) q = t.withAttributes added place := by
  fun_induction at? t q generalizing place with
  | case1 t =>
    cases hat
    rw [update, List.append_nil]
  | case2 t key rest ih =>
    obtain ⟨v, hv, hrest⟩ := Option.bind_eq_some_iff.mp hat
    obtain ⟨fields, rfl, hmem⟩ := mem_of_at?_field hv
    have hkeys := hasDistinctKeys_object.mp ht
    have hnodes : added.nodes place = [] := by
      rw [Additions.nodes, helse place fun hp => ?_, List.map_nil]
      have hlen := hp.length_le
      rw [List.length_append, List.length_cons] at hlen
      omega
    have hself := @ih v (place ++ [.field key]) (hkeys.2 _ hmem) hrest (by simpa using helse)
    have hothers : ∀ f ∈ fields, f.1 ≠ key →
        f.2.withAttributes added (place ++ [.field f.1]) = f.2 := by
      intro f _ hf
      refine withAttributes_of_nil fun p hp => helse p fun hp' => hf ?_
      exact Step.field.inj (step_eq_of_prefixes hp hp')
    rw [update, withAttributes, hnodes, appendAttributes_nil, ite_self,
      updateField_eq_withAttributesFields hkeys.1 hv (by simpa using hself) hothers]
  | case3 items i rest ih =>
    obtain ⟨v, hv, hrest⟩ := Option.bind_eq_some_iff.mp hat
    have hself := @ih v (place ++ [.item i])
      (hasDistinctKeys_list.mp ht v (List.mem_of_getElem? hv)) hrest (by simpa using helse)
    rw [update, withAttributes]
    congr 1
    refine List.ext_getElem? fun k => ?_
    rw [List.getElem?_modify, getElem?_withAttributesItems, Nat.zero_add]
    by_cases hk : i = k
    · subst hk
      simpa [hv] using hself
    · have hother : withAttributes added (place ++ [.item k]) = id := by
        funext t
        refine withAttributes_of_nil fun p hp => helse p fun hp' => hk ?_
        exact (Step.item.inj (step_eq_of_prefixes hp hp')).symm
      simp [hk, hother]
  | case4 => cases hat

end Tree

end TopTag
