import Mathlib.Algebra.BigOperators.Group.List.Basic
import Mathlib.Algebra.Order.Group.Multiset
import TopTag.Proofs.GrammarShape

/-!
# A census of markup

Where the markup of a concrete tree begins, and where the markup of the tree grown from it begins,
each place as often as it occurs. One recipe neither loses nor repeats any of it: what is in a node
is in the node itself and in the nodes that its recipe has (`Recipe.Balanced`). So the two counts
agree for all of a tree (`Grown.census`).
-/

namespace TopTag

namespace Concrete

/-- Where the markup in a node begins, the node included. -/
def starts (n : Concrete) : Multiset Nat := ((n.nodes.filter isMarkup).map fun m => m.head.start)

/-- Where the node itself begins, if it is markup. -/
def own (n : Concrete) : Multiset Nat := if n.isMarkup then {n.head.start} else 0

/-- Where the markup in a node that may be absent begins. -/
def startsOf (o : Option Concrete) : Multiset Nat := o.elim 0 starts

@[simp] theorem startsOf_none : startsOf none = 0 := rfl

@[simp] theorem startsOf_some (n : Concrete) : startsOf (some n) = n.starts := rfl

theorem starts_nodesAll (cs : List Concrete) :
    (((nodesAll cs).filter isMarkup).map (fun m => m.head.start) : Multiset Nat) =
      (cs.map starts).sum := by
  induction cs with
  | nil => rfl
  | cons c rest ih =>
    rw [nodesAll, List.filter_append, List.map_append, ← Multiset.coe_add, ih, List.map_cons,
      List.sum_cons, starts]

theorem starts_eq (n : Concrete) : n.starts = n.own + (n.children.map starts).sum := by
  cases n with
  | node h cs =>
    rw [children, ← starts_nodesAll, starts, own, nodes, List.filter_cons]
    split
    · rw [List.map_cons, ← Multiset.cons_coe, ← Multiset.singleton_add]
    · rw [zero_add]

theorem starts_of_isPlain {n : Concrete} (h : n.isPlain = true) : n.starts = 0 := by
  have hnone : n.nodes.filter isMarkup = [] := by
    refine List.filter_eq_nil_iff.mpr fun m hm hmarkup => ?_
    have hplain := List.all_eq_true.mp h m hm
    simp [hmarkup] at hplain
  rw [starts, hnone]
  rfl

theorem starts_of_isPlain_ne_false {n : Concrete} (h : n.isPlain ≠ false) : n.starts = 0 :=
  starts_of_isPlain (Bool.eq_true_of_not_eq_false h)

theorem own_of_kind {n : Concrete} {kinds : List String} (h : n.kind ∈ kinds)
    (hkinds : ∀ kind ∈ kinds, kind ≠ "jsx_element" ∧ kind ≠ "jsx_self_closing_element") :
    n.own = 0 := by
  obtain ⟨helement, hself⟩ := hkinds _ h
  have hmarkup : n.isMarkup = false := by
    rw [isMarkup, beq_eq_false_iff_ne.mpr helement, beq_eq_false_iff_ne.mpr hself]
    rfl
  rw [own, hmarkup]
  rfl

/-- All nodes of the tree are of the shape that a grammar gives them, and regular. -/
def Sound (n : Concrete) : Prop := ∀ m ∈ n.nodes, m.GrammarShaped ∧ m.Regular

section

variable {n c : Concrete}

theorem Sound.shaped (h : n.Sound) : n.GrammarShaped := (h n n.mem_nodes_self).1

theorem Sound.regular (h : n.Sound) : n.Regular := (h n n.mem_nodes_self).2

theorem Sound.child (h : n.Sound) (hc : c ∈ n.children) : c.Sound :=
  fun m hm => h m (nodes_subset_of_mem_children hc hm)

theorem Sound.part (h : n.Sound) (hc : c ∈ n.parts) : c.Sound := h.child (mem_of_mem_parts hc)

theorem Sound.child? (h : n.Sound) {field : String} (hc : c ∈ n.child? field) : c.Sound :=
  h.child (child?_eq_some hc).1

theorem Sound.head? (h : n.Sound) (hc : c ∈ n.parts.head?) : c.Sound :=
  h.part (List.mem_of_head? hc)

/-! ## Sums over children -/

/-- Children in which there is no markup may be left out. -/
theorem sum_filter {cs : List Concrete} {p : Concrete → Bool}
    (h : ∀ c ∈ cs, p c = false → c.starts = 0) :
    ((cs.filter p).map starts).sum = (cs.map starts).sum := by
  induction cs with
  | nil => rfl
  | cons c rest ih =>
    obtain ⟨hc, hrest⟩ := List.forall_mem_cons.mp h
    rw [List.map_cons, List.sum_cons, ← ih hrest, List.filter_cons]
    split
    · rw [List.map_cons, List.sum_cons]
    · rename_i hp
      rw [hc (Bool.eq_false_iff.mpr hp), zero_add]

/-- There is no markup in a child that is no part. -/
theorem Sound.starts_of_no_part (h : n.Sound) (hc : c ∈ n.children)
    (hpart : (c.head.named && c.kind != "comment") = false) : c.starts = 0 := by
  rcases Bool.and_eq_false_iff.mp hpart with hnamed | hcomment
  · refine starts_of_isPlain_ne_false fun hplain => ?_
    exact absurd (h.regular.named c hc hplain) (by simp [hnamed])
  · have hkind : c.kind = "comment" := by simpa using hcomment
    exact starts_of_isPlain ((h.child hc).shaped.leaves (by rw [hkind]; decide))

/-- Among the children, the parts have all the markup. -/
theorem Sound.sum_parts (h : n.Sound) : (n.parts.map starts).sum = (n.children.map starts).sum :=
  sum_filter fun _ hc hpart => h.starts_of_no_part hc hpart

theorem sum_of_isPlain (h : n.isPlain = true) : (n.children.map starts).sum = 0 := by
  have hsum := n.starts_eq
  rw [starts_of_isPlain h] at hsum
  exact Multiset.le_zero.mp ((Multiset.le_add_left _ _).trans_eq hsum.symm)

theorem sum_of_length_le_one {cs : List Concrete} (h : cs.length ≤ 1) :
    (cs.map starts).sum = startsOf cs.head? := by
  match cs, h with
  | [], _ => rfl
  | [c], _ => simp

/-- A node around at most one part has the markup of that part. -/
theorem Sound.starts_of_single (h : n.Sound) (hkind : n.kind ∈ singleKinds) :
    n.starts = startsOf n.parts.head? := by
  rw [starts_eq, own_of_kind hkind (by decide), zero_add, ← h.sum_parts,
    sum_of_length_le_one (h.shaped.single hkind)]

/-- Where fields stand once each, the markup of the children is that of the fields that hold it. -/
theorem sum_fields {cs : List Concrete} {keys : List String}
    (hdistinct : (cs.filterMap fun c => c.head.field).Nodup) (hkeys : keys.Nodup)
    (hread : ∀ c ∈ cs, c.isPlain = false → ∃ key ∈ keys, c.head.field = some key) :
    (cs.map starts).sum =
      (keys.map fun key => startsOf (cs.find? fun c => c.head.field == some key)).sum := by
  induction cs with
  | nil => simp
  | cons c rest ih =>
    obtain ⟨hc, hrest⟩ := List.forall_mem_cons.mp hread
    have hdistinct' : (rest.filterMap fun c => c.head.field).Nodup :=
      hdistinct.sublist ((List.sublist_cons_self c rest).filterMap _)
    -- a field of the first child does not occur among the others
    have hstep (key : String) : startsOf ((c :: rest).find? fun c => c.head.field == some key) =
        (if c.head.field = some key then c.starts else 0) +
          startsOf (rest.find? fun c => c.head.field == some key) := by
      by_cases hfield : c.head.field = some key
      · have hnone : rest.find? (fun c => c.head.field == some key) = none := by
          refine List.find?_eq_none.mpr fun d hd hfound => ?_
          rw [List.filterMap_cons, hfield] at hdistinct
          exact (List.nodup_cons.mp hdistinct).1
            (List.mem_filterMap.mpr ⟨d, hd, by simpa using hfound⟩)
        rw [List.find?_cons_of_pos (by simpa using hfield), hnone, if_pos hfield, startsOf_some,
          startsOf_none, add_zero]
      · rw [List.find?_cons_of_neg (by simpa using hfield), if_neg hfield, zero_add]
    have hfirst : (keys.map fun key => if c.head.field = some key then c.starts else 0).sum =
        c.starts := by
      cases hplain : c.isPlain with
      | true =>
        rw [starts_of_isPlain hplain]
        simp
      | false =>
        obtain ⟨key, hkey, hfield⟩ := hc hplain
        have hothers : ∀ other, other ≠ key → other ∈ keys →
            (if c.head.field = some other then c.starts else 0) = 0 := by
          intro other hne _
          rw [hfield, if_neg (by simpa using hne.symm)]
        rw [List.sum_map_eq_nsmul_single key _ hothers, List.count_eq_one_of_mem hkeys hkey,
          one_nsmul, if_pos hfield]
    simp only [hstep, List.sum_map_add, hfirst, ← ih hdistinct' hrest, List.map_cons, List.sum_cons]

/-- In a node whose fields are read one by one, these have all the markup. -/
theorem Sound.sum_read (h : n.Sound) {keys : List String} (hkeys : n.readFields = keys)
    (hne : keys ≠ []) (hnodup : keys.Nodup) :
    (n.children.map starts).sum = (keys.map fun key => startsOf (n.child? key)).sum := by
  have hfields := h.shaped.fields (by rwa [hkeys])
  refine sum_fields hfields.distinct hnodup fun c hc hplain => ?_
  rw [← hkeys]
  exact (hfields.read c hc hplain).2

/-- The first child in a field and the others have all the markup. -/
theorem sum_withoutField (field : String) (cs : List Concrete) : (cs.map starts).sum =
    startsOf (cs.find? fun c => c.head.field == some field) +
      ((Convert.withoutField field cs).map starts).sum := by
  induction cs with
  | nil => rfl
  | cons c rest ih =>
    rw [Convert.withoutField, List.find?_cons]
    cases c.head.field == some field with
    | true => simp
    | false =>
      simp only [Bool.false_eq_true, ↓reduceIte, List.map_cons, List.sum_cons, ih]
      exact add_left_comm _ _ _

/-- The opening tag of an element and what stands between its tags have all the markup. -/
theorem Sound.sum_element (h : n.Sound) (hkind : n.kind = "jsx_element") {o : Concrete}
    (ho : n.child? "open_tag" = some o) : o.kind = "jsx_opening_element" ∧
      (n.children.map starts).sum = o.starts + ((Recipe.content n).map starts).sum := by
  obtain ⟨hcount, hopen⟩ := h.shaped.tags.opening hkind
  have hokind : o.kind = "jsx_opening_element" := by
    rw [ho] at hopen
    simp only [Option.any_some, Bool.and_eq_true, beq_iff_eq] at hopen
    exact hopen.1
  have honly : n.children.filter (fun c => c.kind == "jsx_opening_element") = [o] := by
    obtain ⟨o', ho'⟩ := List.length_eq_one_iff.mp
      (hcount ▸ List.countP_eq_length_filter.symm :
        (n.children.filter fun c => c.kind == "jsx_opening_element").length = 1)
    have hmem : o ∈ n.children.filter fun c => c.kind == "jsx_opening_element" :=
      List.mem_filter.mpr ⟨(child?_eq_some ho).1, by simp [hokind]⟩
    rw [ho', List.mem_singleton] at hmem
    rw [ho', hmem]
  have hcontent : ((n.children.filter fun c => !(c.kind == "jsx_opening_element")).map starts).sum =
      ((Recipe.content n).map starts).sum := by
    have hfilter : Recipe.content n = (n.children.filter fun c =>
        !(c.kind == "jsx_opening_element")).filter fun c =>
          !(Convert.tagKinds.contains c.kind) && (c.head.named && c.kind != "comment") := by
      rw [Recipe.content, parts, List.filter_filter, List.filter_filter]
      refine List.filter_congr fun c _ => ?_
      by_cases hkind : c.kind = "jsx_opening_element"
      · simp [hkind, Convert.tagKinds]
      · simp [hkind]
    rw [hfilter]
    refine (sum_filter fun c hc hp => ?_).symm
    obtain ⟨hmem, hother⟩ := List.mem_filter.mp hc
    rcases Bool.and_eq_false_iff.mp hp with htag | hpart
    · -- a tag that is no opening tag is a closing one
      have hclosing : c.kind = "jsx_closing_element" := by
        have hne : c.kind ≠ "jsx_opening_element" := by simpa using hother
        simpa [Convert.tagKinds, hne] using htag
      exact starts_of_isPlain (h.regular.closing hkind c hmem hclosing)
    · exact h.starts_of_no_part hmem hpart
  refine ⟨hokind, ?_⟩
  rw [← ((List.filter_append_perm (fun c : Concrete => c.kind == "jsx_opening_element")
    n.children).map starts).sum_eq, List.map_append, List.sum_append, honly, hcontent]
  simp

/-- Parentheses lose nothing: their core is sound and has their markup. -/
theorem Sound.core (h : n.Sound) :
    (∀ m ∈ n.core, m.Sound) ∧ startsOf n.core = n.starts := by
  induction hheight : n.height using Nat.strongRecOn generalizing n with
  | ind height ih =>
    by_cases hkind : n.kind = "parenthesized_expression"
    · rw [core_of_parenthesized hkind, h.starts_of_single (by rw [hkind]; decide)]
      cases hhead : n.parts.head? with
      | none => simp
      | some c =>
        have hlt := height_lt_of_mem_children (mem_of_mem_parts (List.mem_of_head? hhead))
        exact ih c.height (hheight ▸ hlt) (h.head? hhead) rfl
    · rw [core_of_other hkind]
      refine ⟨fun m hm => ?_, rfl⟩
      cases hm
      exact h

end

end Concrete

open Concrete (starts startsOf)

/-! ## Parts of recipes -/

/-- The markup that a node in a role accounts for. -/
def Role.share (n : Concrete) : Role → Multiset Nat
  | .file | .expression | .namedAttribute | .spreadAttribute => n.starts
  | .openingTag _ => (n.children.map starts).sum
  | _ => 0

/-- The markup that a node in a role is itself. -/
def Role.own (n : Concrete) : Role → Multiset Nat
  | .expression => n.own
  | _ => 0

/-- The node is of a kind that takes the role. -/
def Role.Takes (n : Concrete) : Role → Prop
  | .openingTag _ => n.kind ∈ Concrete.allTagKinds
  | .namedAttribute => n.kind = "jsx_attribute"
  | .spreadAttribute => n.kind = "jsx_expression"
  | _ => True

namespace Part

/-- The markup that the nodes of a field account for. -/
def share : Part → Multiset Nat
  | .one role n => role.share n
  | .many nodes => (nodes.map fun p => p.1.share p.2).sum
  | _ => 0

@[simp] theorem share_null : share .null = 0 := rfl

@[simp] theorem share_text (value : String) : share (.text value) = 0 := rfl

@[simp] theorem share_bool (value : Bool) : share (.bool value) = 0 := rfl

/-- The nodes of a field are sound and take their roles. -/
def Sound : Part → Prop
  | .one role n => n.Sound ∧ role.Takes n
  | .many nodes => ∀ p ∈ nodes, p.2.Sound ∧ p.1.Takes p.2
  | _ => True

theorem sound_expression {o : Option Concrete} (h : ∀ c ∈ o, c.Sound) : (expression o).Sound := by
  cases o with
  | none => trivial
  | some c =>
    rw [expression, Option.bind_some]
    cases hcore : c.core with
    | none => trivial
    | some m => exact ⟨(h c rfl).core.1 m hcore, trivial⟩

theorem share_expression {o : Option Concrete} (h : ∀ c ∈ o, c.Sound) :
    (expression o).share = startsOf o := by
  cases o with
  | none => rfl
  | some c =>
    rw [Concrete.startsOf_some, ← (h c rfl).core.2, expression, Option.bind_some]
    cases c.core <;> rfl

theorem sound_expressions {cs : List Concrete} (h : ∀ c ∈ cs, c.Sound) :
    (expressions cs).Sound := by
  intro p hp
  obtain ⟨m, hm, rfl⟩ := List.mem_map.mp hp
  obtain ⟨c, hc, hcore⟩ := List.mem_filterMap.mp hm
  exact ⟨(h c hc).core.1 m hcore, trivial⟩

theorem share_expressions {cs : List Concrete} (h : ∀ c ∈ cs, c.Sound) :
    (expressions cs).share = (cs.map starts).sum := by
  rw [expressions, share, List.map_map]
  change ((cs.filterMap Concrete.core).map starts).sum = _
  induction cs with
  | nil => rfl
  | cons c rest ih =>
    obtain ⟨hc, hrest⟩ := List.forall_mem_cons.mp h
    rw [List.map_cons, List.sum_cons, ← hc.core.2, ← ih hrest]
    cases hcore : c.core with
    | none => rw [List.filterMap_cons_none hcore, Concrete.startsOf_none, zero_add]
    | some m =>
      rw [List.filterMap_cons_some hcore, List.map_cons, List.sum_cons, Concrete.startsOf_some]

theorem sound_ofOption {role : Role} {o : Option Concrete}
    (h : ∀ c ∈ o, c.Sound ∧ role.Takes c) : (ofOption role o).Sound := by
  cases o with
  | none => trivial
  | some c => exact h c rfl

theorem share_ofOption (role : Role) (h : ∀ c, role.share c = 0) (o : Option Concrete) :
    (ofOption role o).share = 0 := by
  cases o with
  | none => rfl
  | some c => exact h c

end Part

namespace Recipe

/-- The recipe of a node in a role neither loses nor repeats markup. -/
structure Balanced (role : Role) (n : Concrete) (r : Recipe) : Prop where
  sound : ∀ f ∈ r.fields, f.2.Sound
  share : role.share n = role.own n + (r.fields.map fun f => f.2.share).sum

variable {s : SourceText} {n : Concrete} {r : Recipe}

/-- An expression is balanced when its fields have the markup of its children. -/
theorem Balanced.of_sum (hsound : ∀ f ∈ r.fields, f.2.Sound)
    (hsum : (n.children.map starts).sum = (r.fields.map fun f => f.2.share).sum) :
    Balanced .expression n r := by
  refine ⟨hsound, ?_⟩
  rw [← hsum]
  exact n.starts_eq

theorem balanced_sequence (h : n.Sound) {kind field : String} :
    Balanced .expression n (.sequence n kind field) := by
  refine .of_sum (List.forall_mem_singleton.mpr (Part.sound_expressions fun c => h.part)) ?_
  simp only [sequence, List.map_singleton, List.sum_singleton]
  rw [Part.share_expressions fun c => h.part, h.sum_parts]

theorem balanced_single (h : n.Sound) (hkind : n.kind ∈ Concrete.singleKinds) {kind field : String}
    {part : Part} (hsound : part.Sound) (hshare : part.share = startsOf n.parts.head?) :
    Balanced .expression n ⟨kind, [(field, part)]⟩ := by
  refine .of_sum (List.forall_mem_singleton.mpr hsound) ?_
  rw [List.map_singleton, List.sum_singleton, hshare, ← h.sum_parts,
    Concrete.sum_of_length_le_one (h.shaped.single hkind)]

theorem balanced_wrapper (h : n.Sound) (hkind : n.kind ∈ Concrete.singleKinds)
    {kind field : String} : Balanced .expression n (.wrapper n kind field) :=
  balanced_single h hkind (Part.sound_expression fun _ => h.head?)
    (Part.share_expression fun _ => h.head?)

theorem balanced_container (h : n.Sound) (hkind : n.kind = "jsx_expression") :
    Balanced .expression n (.container n) := by
  have hsingle : n.kind ∈ Concrete.singleKinds := by
    rw [hkind]
    decide
  rw [container]
  cases hhead : n.parts.head? with
  | none =>
    refine balanced_single h hsingle ⟨h, trivial⟩ ?_
    rw [hhead]
    rfl
  | some c =>
    have hc : ∀ d ∈ some c, d.Sound := hhead ▸ fun d => h.head?
    refine balanced_single h hsingle (Part.sound_expression hc) ?_
    rw [hhead]
    exact Part.share_expression hc

/-- A node without markup is balanced if its recipe has no nodes. -/
theorem balanced_of_isPlain (h : n.isPlain = true) (hsound : ∀ f ∈ r.fields, f.2.Sound)
    (hshare : ∀ f ∈ r.fields, f.2.share = 0) : Balanced .expression n r := by
  refine .of_sum hsound ?_
  rw [Concrete.sum_of_isPlain h, List.map_congr_left hshare]
  simp

theorem balanced_declaration (h : n.Sound) (hkind : n.kind ∈ declarationKinds)
    (hr : variableDeclaration s n = some r) : Balanced .expression n r := by
  obtain ⟨keyword, -, rfl⟩ := Option.map_eq_some_iff.mp hr
  have hsound : ∀ c ∈ n.children.filter fun c => c.head.named && c.kind == "variable_declarator",
      c.Sound := fun c hc => h.child (List.mem_filter.mp hc).1
  refine .of_sum ?_ ?_
  · simp only [List.forall_mem_cons]
    exact ⟨trivial, Part.sound_expressions hsound, by simp⟩
  · simp only [List.map_cons, List.map_nil, List.sum_cons, List.sum_nil, add_zero]
    rw [Part.share_expressions hsound, Concrete.sum_filter fun c hc hp => ?_]
    · exact (zero_add _).symm
    · refine Concrete.starts_of_isPlain_ne_false fun hplain => ?_
      rw [h.regular.named c hc hplain, h.shaped.declarators hkind c hc hplain] at hp
      simp at hp

theorem sound_child? (h : n.Sound) (key : String) : (Part.expression (n.child? key)).Sound :=
  Part.sound_expression fun _ => h.child?

theorem share_child? (h : n.Sound) (key : String) :
    (Part.expression (n.child? key)).share = startsOf (n.child? key) :=
  Part.share_expression fun _ => h.child?

theorem balanced_declarator (h : n.Sound) (hkind : n.kind = "variable_declarator") :
    Balanced .expression n (.variableDeclarator n) := by
  have hkeys : n.readFields = ["name", "value"] :=
    Concrete.readFields_of_rule (by rw [hkind]; decide)
  refine .of_sum ?_ ?_
  · simp only [variableDeclarator, List.forall_mem_cons]
    exact ⟨sound_child? h _, sound_child? h _, by simp⟩
  · rw [h.sum_read hkeys (by decide) (by decide)]
    simp only [variableDeclarator, List.map_cons, List.map_nil, share_child? h]

theorem balanced_conditional (h : n.Sound) (hkind : n.kind = "ternary_expression") :
    Balanced .expression n (.conditional n) := by
  have hkeys : n.readFields = ["condition", "consequence", "alternative"] :=
    Concrete.readFields_of_rule (by rw [hkind]; decide)
  refine .of_sum ?_ ?_
  · simp only [conditional, List.forall_mem_cons]
    exact ⟨sound_child? h _, sound_child? h _, sound_child? h _, by simp⟩
  · rw [h.sum_read hkeys (by decide) (by decide)]
    simp only [conditional, List.map_cons, List.map_nil, share_child? h]

theorem balanced_binary (h : n.Sound) (hkind : n.kind = "binary_expression")
    (hr : binaryExpression n = some r) : Balanced .expression n r := by
  obtain ⟨o, ho, rfl⟩ := Option.map_eq_some_iff.mp hr
  have hkeys : n.readFields = ["operator", "left", "right"] :=
    Concrete.readFields_of_rule (by rw [hkind]; decide)
  have hplain : o.isPlain = true := by
    have hoperator := h.regular.operator hkind
    rwa [ho] at hoperator
  refine .of_sum ?_ ?_
  · simp only [List.forall_mem_cons]
    exact ⟨trivial, sound_child? h _, sound_child? h _, by simp⟩
  · rw [h.sum_read hkeys (by decide) (by decide)]
    simp only [List.map_cons, List.map_nil, share_child? h, ho, Concrete.startsOf_some,
      Concrete.starts_of_isPlain hplain, Part.share_text]

/-- The parameters of a function have the markup of the field that they are read from. -/
theorem sound_parameters (h : n.Sound) : ∀ c ∈ parameters n, c.Sound := by
  intro c hc
  rw [parameters] at hc
  split at hc
  · rename_i single hsingle
    rw [List.mem_singleton.mp hc]
    exact h.child? hsingle
  · split at hc
    · rename_i list hlist
      exact (h.child? hlist).part hc
    · cases hc

theorem share_parameters (h : n.Sound) (hkind : n.kind ∈ Concrete.parametricKinds)
    (hfields : n.FieldShaped) : (Part.expressions (parameters n)).share =
      startsOf (n.child? "parameter") + startsOf (n.child? "parameters") := by
  have hexclusive := hfields.exclusive ("parameter", "parameters") (by decide)
  rw [Part.share_expressions (sound_parameters h), parameters]
  cases hsingle : n.child? "parameter" with
  | some single =>
    rw [hsingle] at hexclusive
    have hnone : n.child? "parameters" = none := by simpa using hexclusive
    simp [hnone]
  | none =>
    cases hlist : n.child? "parameters" with
    | none => simp
    | some list =>
      have hmarkup := h.regular.parameters hkind
      rw [hlist] at hmarkup
      have hown : list.own = 0 := by
        rw [Concrete.own, if_neg (by simpa using hmarkup)]
      simp only [Concrete.startsOf_none, zero_add, Concrete.startsOf_some]
      rw [list.starts_eq, hown, zero_add, (h.child? hlist).sum_parts]

theorem fieldShaped (h : n.Sound) {keys : List String} (hkeys : n.readFields = keys)
    (hne : keys ≠ []) : n.FieldShaped := h.shaped.fields (by rwa [hkeys])

theorem balanced_function (h : n.Sound) {kind : String} (hkind : (n.kind, kind) ∈ functionRules) :
    Balanced .expression n (.function n kind) := by
  have hrule : (n.kind, ["name", "parameter", "parameters", "body"]) ∈ Concrete.fieldRules :=
    List.mem_append_right _ (List.mem_map.mpr ⟨_, hkind, rfl⟩)
  have hparametric : n.kind ∈ Concrete.parametricKinds :=
    (show ∀ f ∈ functionRules, f.1 ∈ Concrete.parametricKinds by decide) _ hkind
  have hkeys := Concrete.readFields_of_rule hrule
  refine .of_sum ?_ ?_
  · simp only [function, List.forall_mem_cons]
    exact ⟨sound_child? h _, Part.sound_expressions (sound_parameters h), sound_child? h _, by simp⟩
  · rw [h.sum_read hkeys (by decide) (by decide)]
    simp only [function, List.map_cons, List.map_nil, List.sum_cons, List.sum_nil, share_child? h,
      share_parameters h hparametric (fieldShaped h hkeys (by decide)), add_assoc]

theorem balanced_arrow (h : n.Sound) (hkind : n.kind = "arrow_function") :
    Balanced .expression n (.arrowFunction n) := by
  have hkeys : n.readFields = ["parameter", "parameters", "body"] :=
    Concrete.readFields_of_rule (by rw [hkind]; decide)
  refine .of_sum ?_ ?_
  · simp only [arrowFunction, List.forall_mem_cons]
    exact ⟨Part.sound_expressions (sound_parameters h), sound_child? h _, trivial, by simp⟩
  · rw [h.sum_read hkeys (by decide) (by decide)]
    simp only [arrowFunction, List.map_cons, List.map_nil, List.sum_cons, List.sum_nil,
      share_child? h, share_parameters h (by rw [hkind]; decide) (fieldShaped h hkeys (by decide)),
      Part.share_bool, zero_add, add_assoc]

/-- What an export exports directly and its other children have all the markup. -/
theorem sum_exported (n : Concrete) : (n.children.map starts).sum =
    startsOf (Convert.exported n).1 + ((Convert.exported n).2.map starts).sum := by
  rw [Convert.exported]
  cases hdeclaration : n.child? "declaration" with
  | some d =>
    rw [Concrete.sum_withoutField "declaration", ← Concrete.child?, hdeclaration]
  | none => rw [Concrete.sum_withoutField "value", ← Concrete.child?]

theorem balanced_exported (h : n.Sound) (hkind : n.kind = "export_statement") :
    Balanced .expression n (.exportStatement n) := by
  obtain ⟨hchild, hothers⟩ := Convert.exported_sublist n
  have hdirect : ∀ c ∈ (Convert.exported n).1, c.Sound := fun c hc => h.child (hchild c hc)
  rw [exportStatement]
  split
  · rename_i hdefault
    have hkeys := Concrete.readFields_of_default hkind hdefault
    have hexclusive := (fieldShaped h hkeys (by decide)).exclusive ("declaration", "value")
      (by decide)
    refine .of_sum (List.forall_mem_singleton.mpr (Part.sound_expression hdirect)) ?_
    rw [h.sum_read hkeys (by decide) (by decide)]
    simp only [List.map_cons, List.map_nil, List.sum_cons, List.sum_nil, add_zero,
      Part.share_expression hdirect]
    rw [Convert.exported]
    cases hdeclaration : n.child? "declaration" with
    | some d =>
      rw [hdeclaration] at hexclusive
      have hnone : n.child? "value" = none := by simpa using hexclusive
      rw [hnone, Concrete.startsOf_none, add_zero]
    | none => rw [Concrete.startsOf_none, zero_add]
  · have hsound : ∀ c ∈ (Convert.exported n).2.filter fun c =>
        c.head.named && c.kind != "comment", c.Sound :=
      fun c hc => h.child (hothers.subset (List.mem_filter.mp hc).1)
    refine .of_sum ?_ ?_
    · simp only [List.forall_mem_cons]
      exact ⟨Part.sound_expression hdirect, Part.sound_expressions hsound, by simp⟩
    · simp only [List.map_cons, List.map_nil, List.sum_cons, List.sum_nil, add_zero,
        Part.share_expression hdirect, Part.share_expressions hsound]
      rw [Concrete.sum_filter fun c hc hp => h.starts_of_no_part (hothers.subset hc) hp]
      exact sum_exported n

theorem balanced_element (h : n.Sound) (hkind : n.kind = "jsx_element")
    (hr : element n = some r) : Balanced .expression n r := by
  obtain ⟨o, ho, hcases⟩ := element_cases hr
  obtain ⟨hokind, hsum⟩ := h.sum_element hkind ho
  have hown : o.own = 0 := Concrete.own_of_kind (List.mem_singleton.mpr hokind) (by decide)
  have hcontent : ∀ c ∈ content n, c.Sound := fun c hc => h.part (List.mem_filter.mp hc).1
  rcases hcases with ⟨-, rfl⟩ | ⟨hname, rfl⟩
  · refine .of_sum ?_ ?_
    · simp only [List.forall_mem_cons]
      refine ⟨⟨h.child? ho, ?_⟩, Part.sound_ofOption fun c hc => ⟨h.child? hc, trivial⟩,
        Part.sound_expressions hcontent, by simp⟩
      rw [Role.Takes, hokind]
      decide
    · have hclosing := Part.share_ofOption .closingTag (fun _ => rfl) (n.child? "close_tag")
      simp only [List.map_cons, List.map_nil, List.sum_cons, List.sum_nil, add_zero, hclosing,
        zero_add, Part.share_expressions hcontent, hsum, o.starts_eq, hown]
      rfl
  · have hplain : o.isPlain = true := by
      have hfragment := h.regular.fragment hkind
      rw [ho, Option.all_some, hname] at hfragment
      simpa using hfragment
    refine .of_sum ?_ ?_
    · simp only [List.forall_mem_cons]
      exact ⟨⟨h.child? ho, trivial⟩, Part.sound_ofOption fun c hc => ⟨h.child? hc, trivial⟩,
        Part.sound_expressions hcontent, by simp⟩
    · have hclosing := Part.share_ofOption .closingFragment (fun _ => rfl) (n.child? "close_tag")
      simp only [List.map_cons, List.map_nil, List.sum_cons, List.sum_nil, add_zero, hclosing,
        zero_add, Part.share_expressions hcontent, hsum, Concrete.starts_of_isPlain hplain]
      exact (zero_add _).symm

theorem balanced_selfClosing (h : n.Sound) (hkind : n.kind = "jsx_self_closing_element") :
    Balanced .expression n (.selfClosingElement n) := by
  refine .of_sum ?_ ?_
  · simp only [selfClosingElement, List.forall_mem_cons]
    refine ⟨⟨h, ?_⟩, trivial, ?_, by simp⟩
    · rw [Role.Takes, hkind]
      decide
    · exact List.forall_mem_nil _
  · simp only [selfClosingElement, List.map_cons, List.map_nil, List.sum_cons, List.sum_nil,
      add_zero, Part.share_null, zero_add]
    exact (add_zero _).symm

/-- What a rule makes of a sound node is balanced. -/
theorem Rule.balanced (hrule : Rule s n r) (h : n.Sound) : Balanced .expression n r := by
  have hplain (hkind : n.kind ∈ Concrete.plainKinds) : n.isPlain = true := h.shaped.leaves hkind
  cases hrule with
  | sequence => exact balanced_sequence h
  | wrapper hn =>
    refine balanced_wrapper h ?_
    exact (show ∀ f ∈ wrapperRules, f.1 ∈ Concrete.singleKinds by decide) _ hn
  | leaf hn =>
    have hkind := hplain (List.mem_append_left _
      (List.mem_append_left _ (List.mem_map_of_mem (f := Prod.fst) hn)))
    exact balanced_of_isPlain hkind (List.forall_mem_singleton.mpr trivial)
      (List.forall_mem_singleton.mpr rfl)
  | function hn => exact balanced_function h hn
  | constant hn =>
    have hkind := hplain (List.mem_append_left _
      (List.mem_append_right _ (List.mem_map_of_mem (f := Prod.fst) hn)))
    have hvalue : ∀ f ∈ constantRules, ∀ g ∈ f.2.fields, g.2.Sound ∧ g.2.share = 0 := by
      simp [constantRules, Part.Sound]
    exact balanced_of_isPlain hkind (fun g hg => (hvalue _ hn g hg).1)
      fun g hg => (hvalue _ hn g hg).2
  | declaration hn hr => exact balanced_declaration h hn hr
  | declarator hn => exact balanced_declarator h hn
  | arrow hn => exact balanced_arrow h hn
  | exported hn => exact balanced_exported h hn
  | binary hn hr => exact balanced_binary h hn hr
  | conditional hn => exact balanced_conditional h hn
  | element hn hr => exact balanced_element h hn hr
  | selfClosing hn => exact balanced_selfClosing h hn
  | container hn => exact balanced_container h hn
  | string hn =>
    refine balanced_of_isPlain (hplain (by rw [hn]; decide)) (List.forall_mem_singleton.mpr trivial)
      (List.forall_mem_singleton.mpr rfl)
  | other => exact balanced_sequence h

/-! ## Other roles -/

theorem balanced_openingTag (h : n.Sound) {selfClosing : Bool}
    (hkind : n.kind ∈ Concrete.allTagKinds) :
    Balanced (.openingTag selfClosing) n (.openingTag n selfClosing) := by
  have hattribute : (fun p : Role × Concrete => p.1.share p.2) ∘ attributeRole = starts := by
    funext c
    rw [Function.comp_apply, attributeRole]
    split <;> rfl
  have hshare : (Part.many (n.attributeParts.map attributeRole)).share =
      (n.children.map starts).sum := by
    rw [Part.share, List.map_map, hattribute, ← h.sum_parts]
    refine Concrete.sum_filter fun c hc hother => ?_
    refine Concrete.starts_of_isPlain_ne_false fun hplain => ?_
    have hattr := h.shaped.tags.attributes hkind c (Concrete.mem_of_mem_parts hc) hplain
    exact absurd hattr (by simp [hother])
  refine ⟨?_, ?_⟩
  · simp only [openingTag, List.forall_mem_cons]
    refine ⟨Part.sound_ofOption fun c hc => ⟨h.child? hc, trivial⟩, ?_, trivial, by simp⟩
    intro p hp
    obtain ⟨c, hc, rfl⟩ := List.mem_map.mp hp
    obtain ⟨hpart, hattr⟩ := List.mem_filter.mp hc
    refine ⟨h.part hpart, ?_⟩
    rw [attributeRole]
    split
    · rename_i hc
      exact hc
    · rename_i hc
      simpa [Role.Takes, Concrete.isAttribute, hc] using hattr
  · have hname := Part.share_ofOption .name (fun _ => rfl) (n.child? "name")
    simp only [openingTag, List.map_cons, List.map_nil, List.sum_cons, List.sum_nil, hname, hshare,
      Part.share_bool, add_zero, zero_add, Role.own]
    rfl

theorem balanced_namedAttribute (h : n.Sound) (hkind : n.kind = "jsx_attribute")
    (hr : namedAttribute n = some r) : Balanced .namedAttribute n r := by
  obtain ⟨c, hc, rfl⟩ := Option.map_eq_some_iff.mp hr
  obtain ⟨rest, hparts⟩ := List.head?_eq_some_iff.mp hc
  obtain ⟨-, hlength, hplain⟩ := h.shaped.tags.assigned hkind
  rw [hparts, List.length_cons] at hlength
  rw [hc, Option.all_some] at hplain
  have hrest : ∀ d ∈ rest.head?, d.Sound := fun d hd =>
    h.part (hparts ▸ List.mem_cons_of_mem _ (List.mem_of_head? hd))
  rw [hparts, List.drop_succ_cons, List.drop_zero]
  refine ⟨?_, ?_⟩
  · simp only [List.forall_mem_cons]
    exact ⟨⟨h.head? hc, trivial⟩, Part.sound_expression hrest, by simp⟩
  · have hown : n.own = 0 := Concrete.own_of_kind (List.mem_singleton.mpr hkind) (by decide)
    simp only [List.map_cons, List.map_nil, List.sum_cons, List.sum_nil,
      Part.share_expression hrest, add_zero]
    rw [Role.share, n.starts_eq, hown, ← h.sum_parts, hparts, List.map_cons, List.sum_cons,
      Concrete.starts_of_isPlain hplain, Concrete.sum_of_length_le_one (by omega)]
    rfl

theorem spreadTarget_sound {c : Concrete} (h : c.Sound) :
    (Convert.spreadTarget c).Sound ∧ (Convert.spreadTarget c).starts = c.starts := by
  rw [Convert.spreadTarget]
  split
  · rename_i hkind
    have hsingle := h.starts_of_single (by rw [eq_of_beq hkind]; decide)
    cases hhead : c.parts.head? with
    | none => exact ⟨h, rfl⟩
    | some d =>
      rw [hsingle, hhead]
      exact ⟨h.head? hhead, rfl⟩
  · exact ⟨h, rfl⟩

theorem balanced_spreadAttribute (h : n.Sound) (hkind : n.kind = "jsx_expression") :
    Balanced .spreadAttribute n (.spreadAttribute n) := by
  have hsound : ∀ c ∈ n.parts.head?.map Convert.spreadTarget, c.Sound := by
    intro c hc
    obtain ⟨d, hd, rfl⟩ := Option.map_eq_some_iff.mp hc
    exact (spreadTarget_sound (h.head? hd)).1
  refine ⟨List.forall_mem_singleton.mpr (Part.sound_expression hsound), ?_⟩
  simp only [spreadAttribute, List.map_singleton, List.sum_singleton, Part.share_expression hsound]
  change n.starts = 0 + _
  rw [zero_add, h.starts_of_single (by rw [hkind]; decide)]
  cases hhead : n.parts.head? with
  | none => rfl
  | some c => exact (spreadTarget_sound (h.head? hhead)).2.symm

/-- The recipe of a sound node is balanced in every role that it takes. -/
theorem balanced {role : Role} (hr : recipe s role n = some r) (h : n.Sound)
    (htakes : role.Takes n) : Balanced role n r := by
  cases role with
  | file =>
    cases hr
    have hroot : ∀ c ∈ some n, c.Sound := by simpa using h
    refine ⟨List.forall_mem_singleton.mpr (Part.sound_expression hroot), ?_⟩
    simp only [List.map_singleton, List.sum_singleton, Part.share_expression hroot]
    exact (zero_add _).symm
  | expression => exact (rule_of_expression hr).balanced h
  | openingTag selfClosing =>
    cases hr
    exact balanced_openingTag h htakes
  | namedAttribute => exact balanced_namedAttribute h htakes hr
  | spreadAttribute =>
    cases hr
    exact balanced_spreadAttribute h htakes
  | name =>
    cases hr
    rw [Recipe.name]
    split_ifs <;> exact ⟨List.forall_mem_singleton.mpr trivial, rfl⟩
  | closingTag =>
    cases hr
    refine ⟨List.forall_mem_singleton.mpr
      (Part.sound_ofOption fun c hc => ⟨h.child? hc, trivial⟩), ?_⟩
    simp only [closingTag, List.map_singleton, List.sum_singleton,
      Part.share_ofOption .name fun _ => rfl]
    rfl
  | openingFragment | closingFragment | emptyExpression =>
    cases hr
    exact ⟨by simp, rfl⟩

/-- Markup is made of markup, and of nothing else. -/
theorem isMarkup_iff {role : Role} (hr : recipe s role n = some r)
    (hforeign : n.kind ∉ Concrete.madeKinds) : (r.kind = "JSXElement" ∨ r.kind = "JSXFragment") ↔
      role = .expression ∧ n.isMarkup = true := by
  have hother : ∀ a ∈ ordinaryShapes ++ markupShapes,
      ¬(a.1 = "JSXElement" ∨ a.1 = "JSXFragment") := by decide
  by_cases hrole : role = .expression
  · subst hrole
    by_cases helement : n.kind = "jsx_element"
    · simp only [recipe, Recipe.expression, helement] at hr
      obtain ⟨o, -, ⟨-, rfl⟩ | ⟨-, rfl⟩⟩ := element_cases hr
      · simp [Concrete.isMarkup, helement]
      · simp [Concrete.isMarkup, helement]
    by_cases hself : n.kind = "jsx_self_closing_element"
    · simp only [recipe, Recipe.expression, hself] at hr
      cases hr
      simp [Concrete.isMarkup, hself, selfClosingElement]
    have hmarkup : n.isMarkup = false := by simp [Concrete.isMarkup, helement, hself]
    rw [hmarkup]
    refine iff_of_false ?_ (by simp)
    rcases expression_cases hr with hr | ⟨hkind, -⟩ | ⟨hkind, -⟩ | rfl
    · exact hother _ (List.mem_append_left _ hr)
    · exact absurd hkind helement
    · exact absurd hkind hself
    · rintro (hkind | hkind)
      · exact hforeign (show n.kind ∈ _ by rw [show n.kind = _ from hkind]; decide)
      · exact hforeign (show n.kind ∈ _ by rw [show n.kind = _ from hkind]; decide)
  · refine iff_of_false ?_ fun h => hrole h.1
    exact hother _ (List.mem_append_right _ (shape_of_role hr hrole))

theorem not_mem_metadataKeys {role : Role} (hr : recipe s role n = some r) :
    ∀ f ∈ r.fields, f.1 ∉ metadataKeys := by
  have hlists : ∀ keys ∈ fieldLists, ∀ key ∈ keys, key ∉ metadataKeys := by decide
  exact fun f hf => hlists _ (keys_mem_fieldLists hr) _ (List.mem_map_of_mem hf)

end Recipe

/-! ## Grown trees -/

namespace Tree

/-- An element or a fragment. -/
def isMarkup (t : Tree) : Bool := t.isElement || t.isFragment

/-- The offset at which a node starts. -/
def number (t : Tree) : Nat :=
  match t.field? "start" with
  | some (.int k) => k.toNat
  | _ => 0

/-- Where the markup among some nodes begins. -/
def census (ts : List Tree) : Multiset Nat := (ts.filter isMarkup).map number

theorem census_append (ts us : List Tree) : census (ts ++ us) = census ts + census us := by
  rw [census, List.filter_append, List.map_append, ← Multiset.coe_add]
  rfl

theorem census_cons (t : Tree) (ts : List Tree) :
    census (t :: ts) = (if t.isMarkup then {t.number} else 0) + census ts := by
  rw [census, List.filter_cons]
  split
  · rw [List.map_cons, ← Multiset.cons_coe, ← Multiset.singleton_add]
    rfl
  · rw [zero_add]
    rfl

end Tree

open TopTag.Tree (census)

section

variable {s : SourceText} {role : Role} {n : Concrete} {t : Tree}

/-- Markup is grown from markup, and from nothing else. -/
theorem Grown.isMarkup_iff (h : Grown s role n t) (hforeign : n.kind ∉ Concrete.madeKinds) :
    t.isMarkup = true ↔ role = .expression ∧ n.isMarkup = true := by
  obtain ⟨r, _, _, _, hr, -, -, -⟩ := h.exists_recipe
  rw [← Recipe.isMarkup_iff hr hforeign, Tree.isMarkup, Bool.or_eq_true]
  exact or_congr (h.isA_iff hr) (h.isA_iff hr)

mutual

/-- The markup of a tree whose offsets are those of the concrete one begins where the markup of the
concrete one does, as often. -/
theorem Grown.census {role : Role} {n : Concrete} {t : Tree} :
    Grown (.ofString "") role n t → n.Sound → role.Takes n → census t.nodes = role.share n
  | .node hrecipe hextends hfields, h, htakes => by
    have hgrown := Grown.node hrecipe hextends hfields
    have hbalanced := Recipe.balanced hrecipe h htakes
    have hbelow := hfields.census hbalanced.sound (Recipe.not_mem_metadataKeys hrecipe)
    rw [Tree.nodes_of_isNode hgrown.isNode, Tree.census_cons, hbalanced.share, ← hbelow]
    refine congrArg₂ _ ?_ rfl
    by_cases hmarkup : role = .expression ∧ n.isMarkup = true
    · rw [if_pos ((hgrown.isMarkup_iff h.shaped.foreign).mpr hmarkup)]
      obtain ⟨rfl, hmarkup⟩ := hmarkup
      obtain ⟨hstart, -⟩ := hextends
      cases hstart
      rw [Role.own, Concrete.own, if_pos hmarkup]
      rfl
    · rw [if_neg (mt (hgrown.isMarkup_iff h.shaped.foreign).mp hmarkup)]
      cases role with
      | expression => rw [Role.own, Concrete.own, if_neg fun hn => hmarkup ⟨rfl, hn⟩]
      | _ => rfl

theorem GrownFields.census {parts : List (String × Part)} {fields : List (String × Tree)} :
    GrownFields (.ofString "") parts fields → (∀ f ∈ parts, f.2.Sound) →
      (∀ f ∈ parts, f.1 ∉ metadataKeys) →
      census (Tree.nodesOfFields fields) = (parts.map fun f => f.2.share).sum
  | .nil, _, _ => rfl
  | .cons hvalue hfields, hsound, hkeys => by
    obtain ⟨hpart, hsound⟩ := List.forall_mem_cons.mp hsound
    obtain ⟨hkey, hkeys⟩ := List.forall_mem_cons.mp hkeys
    rw [Tree.nodesOfFields, if_neg (by simpa using hkey), Tree.census_append,
      hvalue.census hpart, hfields.census hsound hkeys, List.map_cons, List.sum_cons]

theorem GrownPart.census {part : Part} {v : Tree} :
    GrownPart (.ofString "") part v → part.Sound → census v.nodesOfValue = part.share
  | .null, _ => rfl
  | .text _, _ => rfl
  | .bool _, _ => rfl
  | .one h, hsound => by
    rw [Tree.nodesOfValue_of_isNode h.isNode, h.census hsound.1 hsound.2, Part.share]
  | .many h, hsound => by rw [Tree.nodesOfValue, h.census hsound, Part.share]

theorem GrownItems.census {nodes : List (Role × Concrete)} {items : List Tree} :
    GrownItems (.ofString "") nodes items → (∀ p ∈ nodes, p.2.Sound ∧ p.1.Takes p.2) →
      census (Tree.nodesOfItems items) = (nodes.map fun p => p.1.share p.2).sum
  | .nil, _ => rfl
  | .cons h hitems, hsound => by
    obtain ⟨hn, hrest⟩ := List.forall_mem_cons.mp hsound
    rw [Tree.nodesOfItems, Tree.census_append, h.census hn.1 hn.2, hitems.census hrest,
      List.map_cons, List.sum_cons]

end

end

end TopTag
