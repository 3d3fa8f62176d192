import TopTag.Proofs.Anatomy

/-!
# Anchors

A new attribute goes behind the *anchor* of its tag: the last attribute from the source, or the name
when there is none. In a grown tree the insertions for an attribute that was added at the targets of
a pass are one for each target, in the order of the walk, at the end of its anchor
(`insertions_withAttributes`). Nothing is asked of the offsets here.
-/

namespace TopTag

namespace Tree

/-- The node behind which the new attributes of a tag go. -/
def anchor (u : Tree) : Tree := u.attributeItems.getLast?.getD (u.get "name")

/-- The whole number at which a node ends. -/
def stop? (t : Tree) : Option Int :=
  match t.field? "end" with
  | some (.int n) => some n
  | _ => none

theorem field?_of_stop? {t : Tree} {n : Int} (h : t.stop? = some n) :
    t.field? "end" = some (.int n) := by
  rw [stop?] at h
  split at h <;> cases h
  assumption

theorem getLast?_withAttributesItems (added : Additions) (place : Place) (i : Nat)
    (items : List Tree) : ∃ p, (withAttributesItems added place i items).getLast? =
      items.getLast?.map (withAttributes added p) := by
  induction items generalizing i with
  | nil => exact ⟨[], rfl⟩
  | cons t rest ih =>
    obtain ⟨p, hp⟩ := ih (i + 1)
    rw [withAttributesItems, List.getLast?_cons, List.getLast?_cons, hp]
    cases rest.getLast? with
    | none => exact ⟨_, rfl⟩
    | some last => exact ⟨p, rfl⟩

theorem mem_withAttributesItems {added : Additions} {place : Place} {i : Nat} {items : List Tree}
    {a : Tree} (h : a ∈ withAttributesItems added place i items) :
    ∃ t ∈ items, ∃ p, a = t.withAttributes added p := by
  induction items generalizing i with
  | nil => cases h
  | cons t rest ih =>
    rw [withAttributesItems] at h
    rcases List.mem_cons.mp h with rfl | h
    · exact ⟨t, List.mem_cons_self, _, rfl⟩
    · obtain ⟨t', ht', hp⟩ := ih h
      exact ⟨t', List.mem_cons_of_mem _ ht', hp⟩

/-- A node that mentions a word goes on to do so when attributes are added. -/
theorem mentions_withAttributes {t : Tree} {word : String} (added : Additions) (place : Place)
    (hnode : t.isNode = true) (hword : word ≠ "attributes") :
    (t.withAttributes added place).mentions word = t.mentions word := by
  have hnode' : (t.withAttributes added place).isNode = true := by rwa [isNode_withAttributes]
  obtain ⟨fields, rfl⟩ := object_of_isNode hnode
  obtain ⟨fields', htree⟩ := object_of_isNode hnode'
  have hfield := field?_withAttributes added place (.object fields) hword
  rw [htree] at hfield ⊢
  simp only [field?] at hfield
  simp only [mentions, hfield, Option.isSome_map]

end Tree

/-! ## One tag -/

/-- What an opening tag asks for that has attributes from the source and added ones. -/
theorem insertion?_eq {t : Tree} (hkind : t.isA "JSXOpeningElement" = true) {old new : List Tree}
    (hattr : (t.get "attributes").entries = .ok (old ++ new))
    (hold : ∀ a ∈ old, a.mentions "start" = .ok true ∧ a.mentions "end" = .ok true)
    (hnew : ∀ a ∈ new, a.mentions "start" = .ok false ∧ a.mentions "end" = .ok false) :
    Splice.insertion? t = if new.isEmpty then .ok none else
      match (old.getLast?.getD (t.get "name")).field? "end" with
      | some offset => (Splice.spaced new).map fun text => some ⟨offset, text⟩
      | none => .error .noAnchor := by
  have hlacking : Splice.lacking "start" (old ++ new) = .ok new :=
    Splice.lacking_append (fun a ha => (hold a ha).1) fun a ha => (hnew a ha).1
  have hlast : Splice.lastMentioning? "end" (old ++ new) = .ok old.getLast? :=
    Splice.lastMentioning?_append (fun a ha => (hold a ha).2) fun a ha => (hnew a ha).2
  have hanchor : Splice.anchor t (old ++ new) =
      match (old.getLast?.getD (t.get "name")).field? "end" with
      | some offset => .ok offset
      | none => .error .noAnchor := by
    rw [Splice.anchor, hlast]
    rfl
  rw [Splice.insertion?, Tree.require_eq_ok.mpr (Tree.isA_iff.mp hkind)]
  change (t.get "attributes").entries.bind _ = _
  rw [hattr]
  change (Splice.lacking "start" (old ++ new)).bind _ = _
  rw [hlacking]
  change (if new.isEmpty = true then _ else _) = _
  split
  · rfl
  · rw [hanchor]
    cases (old.getLast?.getD (t.get "name")).field? "end" with
    | none => rfl
    | some offset =>
      change (Splice.spaced new).bind _ = (Splice.spaced new).map _
      cases Splice.spaced new <;> rfl

section

variable {u : Tree} {added : Additions} {place : Place}

/-- The attributes of a tag from the source, after some were added. -/
theorem Tree.IsRead.entries (h : u.IsRead) (hkind : u.isA "JSXOpeningElement" = true) :
    ∃ old p, ((u.withAttributes added place).get "attributes").entries =
        .ok (old ++ added.nodes place) ∧
      (∀ a ∈ old, a.mentions "start" = .ok true ∧ a.mentions "end" = .ok true) ∧
      old.getLast?.getD ((u.withAttributes added place).get "name") =
        u.anchor.withAttributes added p := by
  obtain ⟨happ, hitems⟩ : (u.withAttributes added place).isAppendable = true ∧ _ :=
    Tree.attributeItems_withAttributes hkind h.1
  have hname : (u.withAttributes added place).get "name" =
      (u.get "name").withAttributes added (place ++ [.field "name"]) :=
    Tree.get_withAttributes _ _ _ (by decide)
  obtain ⟨p, hlast⟩ := Tree.getLast?_withAttributesItems added (place ++ [.field "attributes"]) 0
    u.attributeItems
  have hmentions : ∀ a ∈ Tree.withAttributesItems added (place ++ [.field "attributes"]) 0
      u.attributeItems, a.mentions "start" = .ok true ∧ a.mentions "end" = .ok true := by
    intro a ha
    obtain ⟨b, hb, p, rfl⟩ := Tree.mem_withAttributesItems ha
    obtain ⟨hnode, hstart, hend⟩ := h.2 b hb
    rw [Tree.mentions_withAttributes added p hnode (by decide),
      Tree.mentions_withAttributes added p hnode (by decide)]
    exact ⟨hstart, hend⟩
  have hentries := Tree.entries_of_isAppendable happ
  rw [hitems] at hentries
  rw [hname, Tree.anchor]
  cases hgetLast : u.attributeItems.getLast? with
  | none => exact ⟨_, _, hentries, hmentions, by rw [hlast, hgetLast]; rfl⟩
  | some last => exact ⟨_, p, hentries, hmentions, by rw [hlast, hgetLast]; rfl⟩

/-- A tag without new attributes asks for nothing. -/
theorem Tree.IsRead.insertion?_of_nil (h : u.IsRead) (hkind : u.isA "JSXOpeningElement" = true)
    (hnil : added place = []) : Splice.insertion? (u.withAttributes added place) = .ok none := by
  obtain ⟨old, p, hentries, hold, -⟩ := h.entries hkind
  rw [insertion?_eq (by rwa [Tree.isA_withAttributes]) hentries hold (added.mentions_nodes place),
    Additions.nodes, hnil]
  rfl

/-- A tag with new attributes asks for their text behind its anchor. -/
theorem Tree.IsRead.insertion?_of_stop (h : u.IsRead) (hkind : u.isA "JSXOpeningElement" = true)
    (hne : added place ≠ []) {n : Int} (hstop : u.anchor.stop? = some n) :
    Splice.insertion? (u.withAttributes added place) =
      .ok (some ⟨.int n, String.join ((added place).map writtenAttribute)⟩) := by
  obtain ⟨old, p, hentries, hold, hanchor⟩ := h.entries hkind
  have hnodes : (added.nodes place).isEmpty = false := by
    rw [Additions.nodes, List.isEmpty_map, Bool.eq_false_iff, ne_eq, List.isEmpty_iff]
    exact hne
  have hend : (u.anchor.withAttributes added p).field? "end" = some (.int n) := by
    rw [Tree.field?_withAttributes _ _ _ (by decide), Tree.field?_of_stop? hstop]
    rfl
  rw [insertion?_eq (by rwa [Tree.isA_withAttributes]) hentries hold (added.mentions_nodes place),
    hnodes, hanchor, hend, Splice.spaced_nodes]
  rfl

/-- Without an end of the anchor there is no place for new attributes. -/
theorem Tree.IsRead.isSome_end (h : u.IsRead) (hkind : u.isA "JSXOpeningElement" = true)
    (hne : added place ≠ []) {o : Option Insertion}
    (ho : Splice.insertion? (u.withAttributes added place) = .ok o) :
    (u.anchor.field? "end").isSome = true := by
  obtain ⟨old, p, hentries, hold, hanchor⟩ := h.entries hkind
  rcases of_insertion?_ok (by rwa [Tree.isA_withAttributes]) hentries hold
    (added.mentions_nodes place) ho with ⟨hnil, -⟩ | ⟨-, offset, -, hoffset, -⟩
  · exact absurd (List.map_eq_nil_iff.mp hnil) hne
  · rw [hanchor, Tree.field?_withAttributes _ _ _ (by decide)] at hoffset
    have hsome := congrArg Option.isSome hoffset
    rwa [Option.isSome_map] at hsome

end

/-! ## The anchor of a grown tag -/

section

variable {s : SourceText} {n : Concrete} {u : Tree} {selfClosing : Bool}

theorem GrownItems.forall₂ {nodes : List (Role × Concrete)} {items : List Tree}
    (h : GrownItems s nodes items) :
    List.Forall₂ (fun p t => Grown s p.1 p.2 t) nodes items := by
  induction nodes generalizing items with
  | nil =>
    cases h
    exact .nil
  | cons p rest ih =>
    cases h with
    | cons ht hrest => exact .cons ht (ih hrest)

/-- The anchor is grown from the last part of the concrete tag. -/
theorem Grown.anchor (h : Grown s (.openingTag selfClosing) n u) :
    (∃ last role, n.lastPart? = some last ∧ role ≠ .file ∧ Grown s role last u.anchor) ∨
      n.lastPart? = none ∧ u.anchor = .null := by
  have hlast : Option.Rel (fun p t => Grown s p.1 p.2 t)
      (n.attributeParts.map Recipe.attributeRole).getLast? u.attributeItems.getLast? := by
    rw [← List.head?_reverse, ← List.head?_reverse]
    exact rel_head? (List.forall₂_reverse_iff.mpr h.attributes.2.forall₂)
  rw [List.getLast?_map] at hlast
  rw [Tree.anchor, Concrete.lastPart?]
  cases hparts : n.attributeParts.getLast? with
  | some a =>
    rw [hparts] at hlast
    generalize u.attributeItems.getLast? = o at hlast
    cases hlast with
    | some ha =>
      refine .inl ⟨a, _, rfl, ?_, ha⟩
      rw [Recipe.attributeRole]
      split <;> simp
  | none =>
    rw [hparts] at hlast
    generalize u.attributeItems.getLast? = o at hlast
    cases hlast
    obtain ⟨v, hv, hgrown⟩ := h.exists_field rfl (show "name" ∉ baseKeys by decide) rfl
    rw [Option.none_or, Option.getD_none, Tree.get, hv, Option.getD_some]
    cases hname : n.child? "name" with
    | none =>
      rw [hname] at hgrown
      exact .inr ⟨rfl, grownPart_null_iff.mp hgrown⟩
    | some c =>
      rw [hname] at hgrown
      exact .inl ⟨c, .name, rfl, by simp, grownPart_one_iff.mp hgrown⟩

theorem Grown.stop?_anchor (h : Grown s (.openingTag selfClosing) n u) {last : Concrete}
    (hlast : n.lastPart? = some last) : ∃ stop : Nat,
      s.charOffset last.head.stop = .ok stop ∧ u.anchor.stop? = some (stop : Int) := by
  rcases h.anchor with ⟨last', role, hlast', hrole, hgrown⟩ | ⟨hnone, -⟩
  · cases hlast.symm.trans hlast'
    obtain ⟨-, stop, -, hstop, -, hend⟩ := hgrown.offsets hrole
    exact ⟨stop, hstop, by rw [Tree.stop?, hend]⟩
  · cases hlast.symm.trans hnone

theorem Grown.exists_lastPart (h : Grown s (.openingTag selfClosing) n u)
    (hend : (u.anchor.field? "end").isSome = true) : ∃ last, n.lastPart? = some last := by
  rcases h.anchor with ⟨last, -, hlast, -, -⟩ | ⟨-, hnull⟩
  · exact ⟨last, hlast⟩
  · rw [hnull] at hend
    cases hend

end

/-! ## All tags -/

/-- A walk asks for what its visits ask for; the parts of new attributes ask for nothing. -/
theorem insertionsOf_eq {added : Additions} {visits visits' : List Visit}
    (h : PaddedVisits added visits visits') {f : Visit → Option Insertion}
    (hf : ∀ v ∈ visits,
      Splice.insertion? (v.spot.tree.withAttributes added v.spot.place) = .ok (f v)) :
    Splice.insertionsOf visits' = .ok (visits.filterMap f) := by
  induction h with
  | nil => rfl
  | pad hpart _ ih =>
    have hnone := insertion?_of_other hpart.isNode <| Bool.eq_false_iff.mpr fun hkind =>
      absurd (hpart.isA hkind) (by simp)
    rw [Splice.insertionsOf, hnone, ih hf]
    rfl
  | @keep v v' visits visits' hv _ ih =>
    obtain ⟨hfirst, hrest⟩ := List.forall_mem_cons.mp hf
    rw [Splice.insertionsOf, hv.1, Spot.withAttributes, hfirst, ih hrest, List.filterMap_cons]
    cases f v <;> rfl

/-- Where the whole walk has an answer every visit has one. -/
theorem exists_insertion?_of_insertionsOf {added : Additions} {visits visits' : List Visit}
    (h : PaddedVisits added visits visits') {is : List Insertion}
    (his : Splice.insertionsOf visits' = .ok is) :
    ∀ v ∈ visits, ∃ o,
      Splice.insertion? (v.spot.tree.withAttributes added v.spot.place) = .ok o := by
  induction h generalizing is with
  | nil => simp
  | pad hpart _ ih =>
    obtain ⟨_, -, his⟩ := exists_of_bind_ok his
    obtain ⟨others, hothers, -⟩ := exists_of_bind_ok his
    exact ih hothers
  | @keep v v' visits visits' hv _ ih =>
    obtain ⟨first, hfirst, his⟩ := exists_of_bind_ok his
    obtain ⟨others, hothers, -⟩ := exists_of_bind_ok his
    rw [hv.1, Spot.withAttributes] at hfirst
    exact List.forall_mem_cons.mpr ⟨⟨first, hfirst⟩, ih hothers⟩

/-- The spots where a pass over a tree adds its attribute, in the order of the walk. -/
def targets (c : FileContext) (name : String) (t : Tree) : List Spot :=
  ((walk (Spot.root t)).map Visit.spot).filter (·.isTarget c name)

theorem map_place_targets (c : FileContext) (name : String) (t : Tree) :
    (targets c name t).map Spot.place = targetPlaces c name t := rfl

section

variable {c : FileContext} {name : String} {t : Tree}

theorem mem_targets {x : Spot} :
    x ∈ targets c name t ↔ Spot.Within (.root t) x ∧ x.isTarget c name = true := by
  rw [targets, List.mem_filter, List.mem_map, exists_mem_walk]

theorem isA_of_isTarget {x : Spot} (h : x.isTarget c name = true) :
    x.tree.isA "JSXOpeningElement" = true :=
  (Bool.and_eq_true_iff.mp (Bool.and_eq_true_iff.mp h).1).1

/-- The insertions for an attribute that was added at the targets. -/
theorem insertions_withAttributes (hkeys : t.hasDistinctKeys = true) (hnode : t.isNode = true)
    (hread : ∀ x, Spot.Within (.root t) x → x.tree.isA "JSXOpeningElement" = true → x.tree.IsRead)
    (hstop : ∀ x ∈ targets c name t, (x.tree.anchor.stop?).isSome = true) (a : String × String) :
    Splice.insertions (t.withAttributes (.across (targetPlaces c name t) a) []) =
      .ok ((targets c name t).filterMap fun x =>
        x.tree.anchor.stop?.map fun n => ⟨.int n, writtenAttribute a⟩) := by
  have hvisits : ∀ v ∈ walk (Spot.root t), Splice.insertion? (v.spot.tree.withAttributes
      (.across (targetPlaces c name t) a) v.spot.place) = .ok (if v.spot.isTarget c name then
        v.spot.tree.anchor.stop?.map fun n => ⟨.int n, writtenAttribute a⟩ else none) := by
    intro v hv
    have hwithin : Spot.Within (.root t) v.spot := exists_mem_walk.mp ⟨v, hv, rfl⟩
    have hadded : Additions.across (targetPlaces c name t) a v.spot.place = _ :=
      across_targetPlaces hkeys a hv
    cases htarget : v.spot.isTarget c name with
    | true =>
      have hkind := isA_of_isTarget htarget
      obtain ⟨n, hn⟩ := Option.isSome_iff_exists.mp (hstop _ (mem_targets.mpr ⟨hwithin, htarget⟩))
      rw [htarget, if_pos rfl] at hadded
      rw [(hread _ hwithin hkind).insertion?_of_stop hkind (by simp [hadded]) hn, hadded, hn]
      simp [String.join_cons]
    | false =>
      rw [htarget, if_neg (by decide)] at hadded
      rw [if_neg Bool.false_ne_true]
      cases hkind : v.spot.tree.isA "JSXOpeningElement" with
      | true => exact (hread _ hwithin hkind).insertion?_of_nil hkind hadded
      | false =>
        refine insertion?_of_other ?_ (by rwa [Tree.isA_withAttributes])
        rw [Tree.isNode_withAttributes]
        exact isNode_of_within hnode hwithin
  rw [Splice.insertions, targets, List.filterMap_filter, List.filterMap_map]
  exact insertionsOf_eq (walk_withAttributes _ (Spot.root t)) hvisits

/-- Where the insertions are found every target has an anchor that ends somewhere. -/
theorem isSome_end_of_insertions (hkeys : t.hasDistinctKeys = true)
    (hread : ∀ x, Spot.Within (.root t) x → x.tree.isA "JSXOpeningElement" = true → x.tree.IsRead)
    {a : String × String} {is : List Insertion}
    (his : Splice.insertions (t.withAttributes (.across (targetPlaces c name t) a) []) = .ok is) :
    ∀ x ∈ targets c name t, (x.tree.anchor.field? "end").isSome = true := by
  intro x hx
  obtain ⟨hwithin, htarget⟩ := mem_targets.mp hx
  obtain ⟨v, hv, rfl⟩ := exists_mem_walk.mpr hwithin
  obtain ⟨o, ho⟩ := exists_insertion?_of_insertionsOf (walk_withAttributes _ (Spot.root t)) his v hv
  have hadded : Additions.across (targetPlaces c name t) a v.spot.place = _ :=
    across_targetPlaces hkeys a hv
  rw [htarget, if_pos rfl] at hadded
  have hkind := isA_of_isTarget htarget
  exact (hread _ hwithin hkind).isSome_end hkind (by simp [hadded]) ho

end

end TopTag
