import TopTag.Proofs.AddedVisits
import TopTag.Proofs.Growth

/-!
# Concrete trees that correspond

Two concrete trees of one shape grow trees of one shape: kinds, fields and flags decide the recipes,
and offsets and texts do not. The second tree may have attributes more in some of its tags, where
these are used as tags. A `Bridge` says this of the concrete nodes; from it every recipe of the one
tree has its counterpart in the other (`Bridge.recipe`).
-/

namespace TopTag

namespace Concrete

/-- What a node is to the one above it: the list of a function's parameters, something in an
element, or anything else. -/
inductive Use where
  | parameters
  | inElement
  | plain
  deriving DecidableEq

/-- The kinds of node that have parameters. -/
def parametricKinds : List String :=
  ["arrow_function", "function_declaration", "generator_function_declaration",
    "function_expression", "function", "generator_function"]

/-- The use of a child, given the use of the node. What stands in a list of parameters is plain,
whatever kind the list has. -/
def useOf (u : Use) (n c : Concrete) : Use :=
  if u = .parameters then .plain
  else if n.kind ∈ parametricKinds ∧ c.head.field = some "parameters" then .parameters
  else if n.kind = "jsx_element" then .inElement
  else .plain

theorem useOf_parameters (n c : Concrete) : useOf .parameters n c = .plain := rfl

theorem useOf_eq_plain {n c : Concrete} (u : Use) (hkind : n.kind ≠ "jsx_element")
    (hc : n.kind ∉ parametricKinds ∨ c.head.field ≠ some "parameters") : useOf u n c = .plain := by
  unfold useOf
  grind

theorem useOf_eq_parameters {u : Use} {n c : Concrete} (hu : u ≠ .parameters)
    (hkind : n.kind ∈ parametricKinds) (hc : c.head.field = some "parameters") :
    useOf u n c = .parameters := by
  rw [useOf, if_neg hu, if_pos ⟨hkind, hc⟩]

theorem useOf_element {u : Use} {n c : Concrete} (hu : u ≠ .parameters)
    (hkind : n.kind = "jsx_element") : useOf u n c = .inElement := by
  rw [useOf, if_neg hu, if_neg (by simp [hkind, parametricKinds]), if_pos hkind]

/-- The kinds of tag that can have attributes. -/
def openingKinds : List String := ["jsx_self_closing_element", "jsx_opening_element"]

/-- A tag that may have more attributes in another tree: an element of a single tag, or the opening
tag of an element. -/
def MayGrow (u : Use) (n : Concrete) : Prop :=
  n.kind = "jsx_self_closing_element" ∧ u ≠ .parameters ∨
    n.kind = "jsx_opening_element" ∧ u = .inElement

end Concrete

open Concrete (Use useOf parametricKinds useOf_eq_plain)

/-- The relation between the children of a node, which itself is used as `u`. -/
def Under (R : Use → Concrete → Concrete → Prop) (u : Use) (n c c' : Concrete) : Prop :=
  R (useOf u n c) c c'

/-- `R u n n'` pairs a node that is used as `u` with its counterpart. Counterparts have the same
kind, flag and field, and their children are counterparts again, except that tags may have `extra`
attributes. Such an attribute may even stand in the field of the name, but the opening tag of a
fragment gets no name. -/
structure Bridge (R : Use → Concrete → Concrete → Prop) (extra : Concrete → Prop) : Prop where
  alike : ∀ {u n n'}, R u n n' → n'.kind = n.kind ∧ n'.head.named = n.head.named ∧
    n'.head.field = n.head.field
  children : ∀ {u n n'}, R u n n' → ¬n.MayGrow u →
    List.Forall₂ (Under R u n) n.children n'.children
  padded : ∀ {u n n'}, R u n n' → Padded extra (Under R u n) n.children n'.children
  extra : ∀ {c}, extra c → c.head.named = true ∧ c.kind = "jsx_attribute"
  nameless : ∀ {u n n'}, R u n n' → n.head.field = some "open_tag" → n.child? "name" = none →
    n'.child? "name" = none

/-- The node has a kind and a use that the role is taken with: a list of parameters is no
expression, and neither is a tag of an element. -/
def Role.Suits (u : Use) (n : Concrete) : Role → Prop
  | .namedAttribute => n.kind = "jsx_attribute"
  | .spreadAttribute => n.kind = "jsx_expression"
  | .file | .expression => u ≠ .parameters ∧ (n.kind = "jsx_opening_element" → u ≠ .inElement)
  | .openingTag _ => n.kind ∈ Concrete.openingKinds → n.MayGrow u
  | _ => True

/-- Two nodes are counterparts in a role. -/
def Counterpart (R : Use → Concrete → Concrete → Prop) (role : Role) (n n' : Concrete) :
    Prop :=
  ∃ u, R u n n' ∧ role.Suits u n

/-- Two fields come from counterparts, the second one from some extra attributes besides. -/
inductive PartRel (R : Use → Concrete → Concrete → Prop) (extra : Concrete → Prop) :
    Part → Part → Prop
  | null : PartRel R extra .null .null
  | text (a b : String) : PartRel R extra (.text a) (.text b)
  | bool (a b : Bool) : PartRel R extra (.bool a) (.bool b)
  | one {role : Role} {n n' : Concrete} (h : Counterpart R role n n') :
      PartRel R extra (.one role n) (.one role n')
  | many {nodes nodes' : List (Role × Concrete)}
      (h : Padded (fun p => p.1 = .namedAttribute ∧ extra p.2)
        (fun p p' => p.1 = p'.1 ∧ Counterpart R p.1 p.2 p'.2) nodes nodes') :
      PartRel R extra (.many nodes) (.many nodes')

/-- Two values under one key correspond, or the second one is a name that comes from an extra
attribute. -/
def PartRelAt (R : Use → Concrete → Concrete → Prop) (extra : Concrete → Prop) (key : String)
    (part part' : Part) : Prop :=
  PartRel R extra part part' ∨ key = "name" ∧ ∃ c, extra c ∧ part' = .one .name c

/-- Two named fields correspond. Operators are the same. -/
structure FieldRel (R : Use → Concrete → Concrete → Prop) (extra : Concrete → Prop)
    (f f' : String × Part) : Prop where
  key : f.1 = f'.1
  part : PartRelAt R extra f.1 f.2 f'.2
  operator : f.1 = "operator" → f.2 = f'.2

/-- Two recipes correspond. -/
structure RecipeRel (R : Use → Concrete → Concrete → Prop) (extra : Concrete → Prop)
    (r r' : Recipe) : Prop where
  kind : r'.kind = r.kind
  fields : List.Forall₂ (FieldRel R extra) r.fields r'.fields

theorem rel_find? {α β : Type} {R : α → β → Prop} {p : α → Bool} {q : β → Bool} {as : List α}
    {bs : List β} (h : List.Forall₂ R as bs) (hpq : ∀ a b, R a b → q b = p a) :
    Option.Rel (fun a b => R a b ∧ p a = true) (as.find? p) (bs.find? q) := by
  induction h with
  | nil => exact .none
  | @cons a b as bs hab _ ih =>
    rw [List.find?_cons, List.find?_cons, hpq a b hab]
    split
    · rename_i ha
      exact .some ⟨hab, ha⟩
    · exact ih

theorem rel_head? {α β : Type} {R : α → β → Prop} {as : List α} {bs : List β}
    (h : List.Forall₂ R as bs) : Option.Rel R as.head? bs.head? := by
  cases h with
  | nil => exact .none
  | cons hab _ => exact .some hab

theorem rel_bind {α β γ δ : Type} {R : α → β → Prop} {S : γ → δ → Prop} {o : Option α}
    {o' : Option β} {f : α → Option γ} {g : β → Option δ} (h : Option.Rel R o o')
    (hfg : ∀ a b, a ∈ o → R a b → Option.Rel S (f a) (g b)) :
    Option.Rel S (o.bind f) (o'.bind g) := by
  cases h with
  | none => exact .none
  | some hab => exact hfg _ _ rfl hab

theorem rel_map {α β γ δ : Type} {R : α → β → Prop} {S : γ → δ → Prop} {o : Option α}
    {o' : Option β} {f : α → γ} {g : β → δ} (h : Option.Rel R o o')
    (hfg : ∀ a b, R a b → S (f a) (g b)) : Option.Rel S (o.map f) (o'.map g) := by
  cases h with
  | none => exact .none
  | some hab => exact .some (hfg _ _ hab)

theorem rel_imp {α β : Type} {R S : α → β → Prop} {o : Option α} {o' : Option β}
    (h : Option.Rel R o o') (hRS : ∀ a b, R a b → S a b) : Option.Rel S o o' := by
  cases h with
  | none => exact .none
  | some hab => exact .some (hRS _ _ hab)

theorem Padded.of_forall₂ {α β : Type} {extra : β → Prop} {R : α → β → Prop} {as : List α}
    {bs : List β} (h : List.Forall₂ R as bs) : Padded extra R as bs := by
  induction h with
  | nil => exact .nil
  | cons hab _ ih => exact .keep hab ih

theorem Padded.imp {α β : Type} {extra extra' : β → Prop} {R R' : α → β → Prop} {as : List α}
    {bs : List β} (h : Padded extra R as bs) (hextra : ∀ b, extra b → extra' b)
    (hR : ∀ a b, R a b → R' a b) : Padded extra' R' as bs := by
  induction h with
  | nil => exact .nil
  | pad hb _ ih => exact .pad (hextra _ hb) ih
  | keep hab _ ih => exact .keep (hR _ _ hab) ih

theorem Padded.forall₂ {α β : Type} {extra : β → Prop} {R : α → β → Prop} {as : List α}
    {bs : List β} (h : Padded extra R as bs) (hextra : ∀ b, ¬extra b) : List.Forall₂ R as bs := by
  induction h with
  | nil => exact .nil
  | pad hb _ _ => exact absurd hb (hextra _)
  | keep hab _ ih => exact .cons hab ih

/-- A filter that keeps the extra entries, and what it says of the others. -/
theorem Padded.filter {α β : Type} {extra : β → Prop} {R : α → β → Prop} {p : α → Bool}
    {q : β → Bool} {as : List α} {bs : List β} (h : Padded extra R as bs)
    (hextra : ∀ b, extra b → q b = true) (hpq : ∀ a b, R a b → q b = p a) :
    Padded extra (fun a b => R a b ∧ p a = true) (as.filter p) (bs.filter q) := by
  induction h with
  | nil => exact .nil
  | @pad b as bs hb _ ih =>
    rw [List.filter_cons_of_pos (hextra b hb)]
    exact .pad hb ih
  | @keep a b as bs hab _ ih =>
    rw [List.filter_cons, List.filter_cons, hpq a b hab]
    split
    · rename_i ha
      exact .keep ⟨hab, ha⟩ ih
    · exact ih

/-- A search finds what corresponds, or an extra entry. -/
theorem Padded.find? {α β : Type} {extra : β → Prop} {R : α → β → Prop} {p : α → Bool}
    {q : β → Bool} {as : List α} {bs : List β} (h : Padded extra R as bs)
    (hpq : ∀ a b, R a b → q b = p a) :
    Option.Rel R (as.find? p) (bs.find? q) ∨ ∃ b, extra b ∧ bs.find? q = some b := by
  induction h with
  | nil => exact .inl .none
  | @pad b as bs hb _ ih =>
    rw [List.find?_cons]
    split
    · exact .inr ⟨b, hb, rfl⟩
    · exact ih
  | @keep a b as bs hab _ ih =>
    rw [List.find?_cons, List.find?_cons, hpq a b hab]
    split
    · exact .inl (.some hab)
    · exact ih

section

variable {R : Use → Concrete → Concrete → Prop} {extra : Concrete → Prop}

theorem Concrete.not_mayGrow (u : Use) {n : Concrete} {kind : String} (hkind : n.kind = kind)
    (hself : kind ≠ "jsx_self_closing_element") (hopen : kind ≠ "jsx_opening_element") :
    ¬n.MayGrow u := by
  rintro (⟨hgrow, -⟩ | ⟨hgrow, -⟩)
  · exact hself (hkind.symm.trans hgrow)
  · exact hopen (hkind.symm.trans hgrow)

/-- A child that is used plainly may be read as an expression. -/
theorem Counterpart.of_child {u : Use} {n c c' : Concrete} (hc : Under R u n c c')
    (hplain : useOf u n c = .plain) : Counterpart R .expression c c' := by
  refine ⟨useOf u n c, hc, ?_⟩
  rw [hplain]
  exact ⟨by decide, fun _ => by decide⟩

theorem PartRel.ofOption {role : Role} {o o' : Option Concrete}
    (h : Option.Rel (Counterpart R role) o o') :
    PartRel R extra (.ofOption role o) (.ofOption role o') := by
  cases h with
  | none => exact .null
  | some hc => exact .one hc

theorem FieldRel.of_part {key : String} {p p' : Part} (h : PartRel R extra p p')
    (hkey : key ≠ "operator") : FieldRel R extra (key, p) (key, p') :=
  ⟨rfl, .inl h, fun hop => absurd hop hkey⟩

end

namespace Bridge

variable {R : Use → Concrete → Concrete → Prop} {extra : Concrete → Prop}
  {u : Use} {n n' : Concrete}

/-- Trees of one shape correspond without extra attributes. -/
theorem of_children
    (halike : ∀ {u n n'}, R u n n' → n'.kind = n.kind ∧ n'.head.named = n.head.named ∧
      n'.head.field = n.head.field)
    (hchildren : ∀ {u n n'}, R u n n' → List.Forall₂ (Under R u n) n.children n'.children) :
    Bridge R fun _ => False where
  alike := halike
  children h _ := hchildren h
  padded h := .of_forall₂ (hchildren h)
  extra h := h.elim
  nameless {u n n'} h _ hnone := by
    have hname := rel_find? (p := fun c : Concrete => c.head.field == some "name")
      (q := fun c : Concrete => c.head.field == some "name") (hchildren h)
      fun _ _ hc => by rw [(halike hc).2.2]
    rw [Concrete.child?] at hnone ⊢
    generalize n'.children.find? _ = o at hname ⊢
    rw [hnone] at hname
    cases hname
    rfl

section Selection

variable (hb : Bridge R extra) (hn : R u n n')
include hb hn

theorem isPart :
    (n'.head.named && n'.kind != "comment") = (n.head.named && n.kind != "comment") := by
  obtain ⟨hkind, hnamed, -⟩ := hb.alike hn
  rw [hkind, hnamed]

omit hn in
theorem parts (hn : R u n n') (hgrow : ¬n.MayGrow u) :
    List.Forall₂ (Under R u n) n.parts n'.parts :=
  List.rel_filter (fun _ _ hc => by simp only [hb.isPart hc]) (hb.children hn hgrow)

theorem child? (hgrow : ¬n.MayGrow u) (field : String) :
    Option.Rel (fun c c' => Under R u n c c' ∧ c.head.field = some field) (n.child? field)
      (n'.child? field) := by
  have hfound := rel_find? (p := fun c : Concrete => c.head.field == some field)
    (q := fun c : Concrete => c.head.field == some field) (hb.children hn hgrow)
    fun _ _ hc => by rw [(hb.alike hc).2.2]
  exact rel_imp hfound fun _ _ hc => ⟨hc.1, by simpa using hc.2⟩

theorem head? (hgrow : ¬n.MayGrow u) : Option.Rel (Under R u n) n.parts.head? n'.parts.head? :=
  rel_head? (hb.parts hn hgrow)

/-- The name of a tag has its counterpart, unless an extra attribute is taken for it. -/
theorem name : Option.Rel (Under R u n) (n.child? "name") (n'.child? "name") ∨
    ∃ c, extra c ∧ n'.child? "name" = some c :=
  (hb.padded hn).find? fun _ _ hc => by rw [(hb.alike hc).2.2]

theorem nameField : FieldRel R extra ("name", .ofOption .name (n.child? "name"))
    ("name", .ofOption .name (n'.child? "name")) := by
  refine ⟨rfl, ?_, fun hop => absurd hop (show "name" ≠ "operator" by decide)⟩
  rcases hb.name hn with hname | ⟨c, hc, hname⟩
  · exact .inl (.ofOption (rel_imp hname fun _ _ hc => ⟨_, hc, trivial⟩))
  · rw [hname]
    exact .inr ⟨rfl, c, hc, rfl⟩

/-- What opens a fragment has a counterpart that does so too. -/
theorem isSome_name (hfield : n.head.field = some "open_tag") :
    (n'.child? "name").isSome = (n.child? "name").isSome := by
  rcases hb.name hn with hname | ⟨c, -, hname⟩
  · generalize n.child? "name" = o at hname
    generalize n'.child? "name" = o' at hname
    cases hname <;> rfl
  · cases hnone : n.child? "name" with
    | none => rw [hb.nameless hn hfield hnone]
    | some d => rw [hname, Option.isSome_some, Option.isSome_some]

end Selection

section Parts

variable (hb : Bridge R extra)
include hb

/-- The cores of counterparts are counterparts. -/
theorem core (hn : Counterpart R .expression n n') :
    Option.Rel (Counterpart R .expression) n.core n'.core := by
  induction hheight : n.height using Nat.strongRecOn generalizing n n' with
  | ind height ih =>
    obtain ⟨u, hR, hsuits⟩ := hn
    have hkind' := (hb.alike hR).1
    by_cases hkind : n.kind = "parenthesized_expression"
    · rw [Concrete.core_of_parenthesized hkind, Concrete.core_of_parenthesized (hkind'.trans hkind)]
      have hgrow := Concrete.not_mayGrow u hkind (by decide) (by decide)
      refine rel_bind (hb.head? hR hgrow) fun c c' hc hcc => ?_
      have hlt := Concrete.height_lt_of_mem_children
        (Concrete.mem_of_mem_parts (List.mem_of_head? hc))
      refine ih c.height (hheight ▸ hlt) ?_ rfl
      exact .of_child hcc (useOf_eq_plain u (by rw [hkind]; decide) (.inl (by rw [hkind]; decide)))
    · rw [Concrete.core_of_other hkind, Concrete.core_of_other (by rwa [hkind'])]
      exact .some ⟨u, hR, hsuits⟩

theorem expression {o o' : Option Concrete} (ho : Option.Rel (Counterpart R .expression) o o') :
    PartRel R extra (.expression o) (.expression o') :=
  .ofOption (rel_bind ho fun _ _ _ hc => hb.core hc)

theorem expressions {cs cs' : List Concrete}
    (hcs : List.Forall₂ (Counterpart R .expression) cs cs') :
    PartRel R extra (.expressions cs) (.expressions cs') := by
  have hcores := List.rel_filterMap (fun _ _ hc => hb.core hc) hcs
  refine .many (Padded.of_forall₂ ?_)
  rw [List.forall₂_map_left_iff, List.forall₂_map_right_iff]
  exact hcores.imp fun _ _ hc => ⟨rfl, hc⟩

theorem withoutField {cs cs' : List Concrete} (field : String)
    (hcs : List.Forall₂ (Under R u n) cs cs') :
    List.Forall₂ (Under R u n) (Convert.withoutField field cs)
      (Convert.withoutField field cs') := by
  induction hcs with
  | nil => exact .nil
  | cons hc hrest ih =>
    rw [Convert.withoutField, Convert.withoutField, (hb.alike hc).2.2]
    split
    · exact hrest
    · exact .cons hc ih

theorem any_kind {cs cs' : List Concrete} (hcs : List.Forall₂ (Under R u n) cs cs')
    (kind : String) :
    (cs'.any fun c => c.kind == kind) = cs.any fun c => c.kind == kind := by
  induction hcs with
  | nil => rfl
  | cons hc _ ih => rw [List.any_cons, List.any_cons, (hb.alike hc).1, ih]

end Parts

section Recipes

variable (hb : Bridge R extra) (hn : R u n n') (hgrow : ¬n.MayGrow u)
  (hkind : n.kind ≠ "jsx_element") {s s' : SourceText} {kind : String}

include hb hn hgrow hkind

theorem expression_child? (field : String) (hfield : field ≠ "parameters") :
    PartRel R extra (.expression (n.child? field)) (.expression (n'.child? field)) := by
  refine hb.expression (rel_imp (hb.child? hn hgrow field) fun c _ hc => .of_child hc.1 ?_)
  refine useOf_eq_plain u hkind (.inr ?_)
  rw [hc.2]
  simpa using hfield

omit hn hgrow in
theorem expressions_of_children (hfun : n.kind ∉ parametricKinds) {cs cs' : List Concrete}
    (hcs : List.Forall₂ (Under R u n) cs cs') :
    PartRel R extra (.expressions cs) (.expressions cs') :=
  hb.expressions (hcs.imp fun _ _ hc => .of_child hc (useOf_eq_plain u hkind (.inl hfun)))

theorem sequence (hfun : n.kind ∉ parametricKinds) {field : String} (hfield : field ≠ "operator") :
    RecipeRel R extra (.sequence n kind field) (.sequence n' kind field) :=
  ⟨rfl, .cons (.of_part (hb.expressions_of_children hkind hfun (hb.parts hn hgrow)) hfield) .nil⟩

theorem wrapper (hfun : n.kind ∉ parametricKinds) {field : String} (hfield : field ≠ "operator") :
    RecipeRel R extra (.wrapper n kind field) (.wrapper n' kind field) := by
  refine ⟨rfl, .cons (.of_part (hb.expression ?_) hfield) .nil⟩
  exact rel_imp (hb.head? hn hgrow) fun _ _ hc =>
    .of_child hc (useOf_eq_plain u hkind (.inl hfun))

theorem variableDeclaration (hfun : n.kind ∉ parametricKinds) : Option.Rel (RecipeRel R extra)
    (Recipe.variableDeclaration s n) (Recipe.variableDeclaration s' n') := by
  have hchildren := hb.children hn hgrow
  have hdeclarators : List.Forall₂ (Under R u n)
      (n.children.filter fun c => c.head.named && c.kind == "variable_declarator")
      (n'.children.filter fun c => c.head.named && c.kind == "variable_declarator") :=
    List.rel_filter (fun _ _ hc => by simp only [(hb.alike hc).1, (hb.alike hc).2.1]) hchildren
  have hpart := hb.expressions_of_children hkind hfun hdeclarators
  refine rel_map (rel_head? hchildren) fun keyword keyword' _ => ⟨rfl, ?_⟩
  exact .cons (.of_part (.text _ _) (by decide)) (.cons (.of_part hpart (by decide)) .nil)

theorem variableDeclarator :
    RecipeRel R extra (.variableDeclarator n) (.variableDeclarator n') :=
  ⟨rfl, .cons (.of_part (hb.expression_child? hn hgrow hkind _ (by decide)) (by decide))
    (.cons (.of_part (hb.expression_child? hn hgrow hkind _ (by decide)) (by decide)) .nil)⟩

theorem exportStatement (hfun : n.kind ∉ parametricKinds) :
    RecipeRel R extra (.exportStatement n) (.exportStatement n') := by
  have hchildren := hb.children hn hgrow
  have hexported : Option.Rel (Under R u n) (Convert.exported n).1 (Convert.exported n').1 ∧
      List.Forall₂ (Under R u n) (Convert.exported n).2 (Convert.exported n').2 := by
    have hdeclaration := hb.child? hn hgrow "declaration"
    rw [Convert.exported, Convert.exported]
    generalize n.child? "declaration" = o at hdeclaration
    generalize n'.child? "declaration" = o' at hdeclaration
    cases hdeclaration with
    | none =>
      have hvalue := rel_imp (hb.child? hn hgrow "value") fun _ _ hc => hc.1
      exact ⟨hvalue, hb.withoutField _ hchildren⟩
    | some hd => exact ⟨.some hd.1, hb.withoutField _ hchildren⟩
  have hfirst := hb.expression (rel_imp hexported.1 fun _ _ hc =>
    .of_child hc (useOf_eq_plain u hkind (.inl hfun)))
  have hothers : List.Forall₂ (Under R u n)
      ((Convert.exported n).2.filter fun c => c.head.named && c.kind != "comment")
      ((Convert.exported n').2.filter fun c => c.head.named && c.kind != "comment") :=
    List.rel_filter (fun _ _ hc => by simp only [hb.isPart hc]) hexported.2
  rw [Recipe.exportStatement, Recipe.exportStatement, hb.any_kind hchildren]
  split
  · exact ⟨rfl, .cons (.of_part hfirst (by decide)) .nil⟩
  · exact ⟨rfl, .cons (.of_part hfirst (by decide))
      (.cons (.of_part (hb.expressions_of_children hkind hfun hothers) (by decide)) .nil)⟩

theorem conditional : RecipeRel R extra (.conditional n) (.conditional n') :=
  ⟨rfl, .cons (.of_part (hb.expression_child? hn hgrow hkind _ (by decide)) (by decide))
    (.cons (.of_part (hb.expression_child? hn hgrow hkind _ (by decide)) (by decide))
      (.cons (.of_part (hb.expression_child? hn hgrow hkind _ (by decide)) (by decide)) .nil))⟩

theorem binaryExpression : Option.Rel (RecipeRel R extra)
    (Recipe.binaryExpression n) (Recipe.binaryExpression n') := by
  refine rel_map (hb.child? hn hgrow "operator") fun o o' ho => ?_
  rw [(hb.alike ho.1).1]
  exact ⟨rfl, .cons ⟨rfl, .inl (.text _ _), fun _ => rfl⟩
    (.cons (.of_part (hb.expression_child? hn hgrow hkind _ (by decide)) (by decide))
      (.cons (.of_part (hb.expression_child? hn hgrow hkind _ (by decide)) (by decide)) .nil))⟩

/-- A list of parameters does not grow, and what stands in it is plain. -/
theorem parameters (hu : u ≠ .parameters) (hfun : n.kind ∈ parametricKinds) :
    PartRel R extra (.expressions (Recipe.parameters n)) (.expressions (Recipe.parameters n')) := by
  have hsingle := hb.child? hn hgrow "parameter"
  have hlist := hb.child? hn hgrow "parameters"
  rw [Recipe.parameters, Recipe.parameters]
  generalize n.child? "parameter" = o at hsingle
  generalize n'.child? "parameter" = o' at hsingle
  cases hsingle with
  | some hc =>
    have hplain := useOf_eq_plain u hkind (.inr (by rw [hc.2]; decide))
    exact hb.expressions (.cons (.of_child hc.1 hplain) .nil)
  | none =>
    generalize n.child? "parameters" = o at hlist
    generalize n'.child? "parameters" = o' at hlist
    cases hlist with
    | none => exact hb.expressions .nil
    | @some list list' hl =>
      obtain ⟨hl, hfield⟩ := hl
      rw [Under, Concrete.useOf_eq_parameters hu hfun hfield] at hl
      have hparts := hb.parts hl (by simp [Concrete.MayGrow])
      exact hb.expressions (hparts.imp fun c _ hc => .of_child hc (list.useOf_parameters c))

theorem function (hu : u ≠ .parameters) (hfun : n.kind ∈ parametricKinds) :
    RecipeRel R extra (.function n kind) (.function n' kind) :=
  ⟨rfl, .cons (.of_part (hb.expression_child? hn hgrow hkind _ (by decide)) (by decide))
    (.cons (.of_part (hb.parameters hn hgrow hkind hu hfun) (by decide))
      (.cons (.of_part (hb.expression_child? hn hgrow hkind _ (by decide)) (by decide)) .nil))⟩

theorem arrowFunction (hu : u ≠ .parameters) (hfun : n.kind ∈ parametricKinds) :
    RecipeRel R extra (.arrowFunction n) (.arrowFunction n') :=
  ⟨rfl, .cons (.of_part (hb.parameters hn hgrow hkind hu hfun) (by decide))
    (.cons (.of_part (hb.expression_child? hn hgrow hkind _ (by decide)) (by decide))
      (.cons (.of_part (.bool _ _) (by decide)) .nil))⟩

theorem container (hfun : n.kind ∉ parametricKinds) :
    RecipeRel R extra (.container n) (.container n') := by
  have hhead := hb.head? hn hgrow
  refine ⟨rfl, .cons (.of_part ?_ (by decide)) .nil⟩
  generalize n.parts.head? = o at hhead
  generalize n'.parts.head? = o' at hhead
  cases hhead with
  | none => exact .one ⟨u, hn, trivial⟩
  | some hc =>
    exact hb.expression (.some (.of_child hc (useOf_eq_plain u hkind (.inl hfun))))

end Recipes

section Markup

variable (hb : Bridge R extra) (hn : R u n n')
include hb hn

theorem element (hu : u ≠ .parameters) (hkind : n.kind = "jsx_element") :
    Option.Rel (RecipeRel R extra) (Recipe.element n) (Recipe.element n') := by
  have hgrow := Concrete.not_mayGrow u hkind (by decide) (by decide)
  have huse (c : Concrete) : useOf u n c = .inElement := Concrete.useOf_element hu hkind
  have hclosing (role : Role) (hsuits : ∀ c, role.Suits (useOf u n c) c) :
      PartRel R extra (.ofOption role (n.child? "close_tag"))
        (.ofOption role (n'.child? "close_tag")) :=
    .ofOption (rel_imp (hb.child? hn hgrow _) fun c _ hc => ⟨_, hc.1, hsuits c⟩)
  have hcontent : PartRel R extra (.expressions (Recipe.content n))
      (.expressions (Recipe.content n')) := by
    have hparts : List.Forall₂ (Under R u n) (Recipe.content n) (Recipe.content n') :=
      List.rel_filter (fun _ _ hc => by simp only [(hb.alike hc).1]) (hb.parts hn hgrow)
    have hkinds : ∀ c ∈ Recipe.content n, c.kind ≠ "jsx_opening_element" := by
      intro c hc hopen
      simp [Recipe.content, Convert.tagKinds, hopen] at hc
    refine hb.expressions (((List.forall₂_and_left _ _).mpr ⟨hkinds, hparts⟩).imp fun c c' hc => ?_)
    refine ⟨_, hc.2, ?_, fun hopen => absurd hopen hc.1⟩
    rw [huse]
    decide
  refine rel_map (hb.child? hn hgrow "open_tag") fun o o' hchild => ?_
  obtain ⟨ho, hfield⟩ := hchild
  have hopening (selfClosing : Bool) : Counterpart R (.openingTag selfClosing) o o' := by
    refine ⟨_, ho, fun hkind => ?_⟩
    rw [huse]
    rcases List.mem_pair.mp hkind with hself | hopen
    · exact .inl ⟨hself, by decide⟩
    · exact .inr ⟨hopen, rfl⟩
  rw [hb.isSome_name ho hfield]
  split
  · exact ⟨rfl, .cons (.of_part (.one (hopening false)) (by decide))
      (.cons (.of_part (hclosing .closingTag fun _ => trivial) (by decide))
        (.cons (.of_part hcontent (by decide)) .nil))⟩
  · exact ⟨rfl, .cons (.of_part (.one ⟨_, ho, trivial⟩) (by decide))
      (.cons (.of_part (hclosing .closingFragment fun _ => trivial) (by decide))
        (.cons (.of_part hcontent (by decide)) .nil))⟩

omit hb in
theorem selfClosingElement (hu : u ≠ .parameters) (hkind : n.kind = "jsx_self_closing_element") :
    RecipeRel R extra (.selfClosingElement n) (.selfClosingElement n') :=
  ⟨rfl, .cons (.of_part (.one ⟨u, hn, fun _ => .inl ⟨hkind, hu⟩⟩) (by decide))
    (.cons (.of_part .null (by decide)) (.cons (.of_part (.many .nil) (by decide)) .nil))⟩

theorem markupName {s s' : SourceText} : RecipeRel R extra (.name s n) (.name s' n') := by
  rw [Recipe.name, Recipe.name, (hb.alike hn).1]
  split
  · exact ⟨rfl, .cons (.of_part (.text _ _) (by decide)) .nil⟩
  · split
    · exact ⟨rfl, .cons (.of_part (.text _ _) (by decide)) .nil⟩
    · exact ⟨rfl, .cons (.of_part (.text _ _) (by decide)) .nil⟩

theorem namedAttribute (hkind : n.kind = "jsx_attribute") :
    Option.Rel (RecipeRel R extra) (Recipe.namedAttribute n) (Recipe.namedAttribute n') := by
  have hgrow := Concrete.not_mayGrow u hkind (by decide) (by decide)
  have hplain (c : Concrete) : useOf u n c = .plain :=
    useOf_eq_plain u (by rw [hkind]; decide) (.inl (by rw [hkind]; decide))
  have hvalue : Option.Rel (Under R u n) (n.parts.drop 1).head? (n'.parts.drop 1).head? :=
    rel_head? (List.forall₂_drop 1 (hb.parts hn hgrow))
  have hpart := hb.expression (rel_imp hvalue fun c _ hc => .of_child hc (hplain c))
  refine rel_map (hb.head? hn hgrow) fun c c' hc => ⟨rfl, ?_⟩
  exact .cons (.of_part (.one ⟨_, hc, trivial⟩) (by decide))
    (.cons (.of_part hpart (by decide)) .nil)

theorem spreadAttribute (hkind : n.kind = "jsx_expression") :
    RecipeRel R extra (.spreadAttribute n) (.spreadAttribute n') := by
  have hgrow := Concrete.not_mayGrow u hkind (by decide) (by decide)
  have htarget : Option.Rel (Counterpart R .expression) (n.parts.head?.map Convert.spreadTarget)
      (n'.parts.head?.map Convert.spreadTarget) := by
    refine rel_map (hb.head? hn hgrow) fun c c' hc => ?_
    have hself : Counterpart R .expression c c' := .of_child hc
      (useOf_eq_plain u (by rw [hkind]; decide) (.inl (by rw [hkind]; decide)))
    rw [Convert.spreadTarget, Convert.spreadTarget, (hb.alike hc).1]
    split
    · rename_i hspread
      have hspread' : c.kind = "spread_element" := by simpa using hspread
      have hhead := hb.head? hc (Concrete.not_mayGrow _ hspread' (by decide) (by decide))
      generalize c.parts.head? = o at hhead
      generalize c'.parts.head? = o' at hhead
      cases hhead with
      | none => exact hself
      | some hd =>
        exact .of_child hd
          (useOf_eq_plain _ (by rw [hspread']; decide) (.inl (by rw [hspread']; decide)))
    · exact hself
  exact ⟨rfl, .cons (.of_part (hb.expression htarget) (by decide)) .nil⟩

/-- The attributes of a tag have their counterparts, and there may be more. -/
theorem attributes : Padded (fun p : Role × Concrete => p.1 = .namedAttribute ∧ extra p.2)
    (fun p p' => p.1 = p'.1 ∧ Counterpart R p.1 p.2 p'.2)
    (n.attributeParts.map Recipe.attributeRole) (n'.attributeParts.map Recipe.attributeRole) := by
  have hparts := (hb.padded hn).filter
    (p := fun c => c.head.named && c.kind != "comment")
    (q := fun c => c.head.named && c.kind != "comment")
    (fun c hc => by simp [hb.extra hc]) fun _ _ hc => hb.isPart hc
  have hattributes := hparts.filter (p := Concrete.isAttribute) (q := Concrete.isAttribute)
    (fun c hc => by simp [Concrete.isAttribute, hb.extra hc])
    fun _ _ hc => by rw [Concrete.isAttribute, (hb.alike hc.1).1, ← Concrete.isAttribute]
  refine hattributes.map (fun c hc => ?_) fun c c' hc => ?_
  · exact ⟨if_pos (hb.extra hc).2, hc⟩
  · obtain ⟨⟨hc, -⟩, hattr⟩ := hc
    rw [Recipe.attributeRole, Recipe.attributeRole, (hb.alike hc).1]
    refine ⟨rfl, _, hc, ?_⟩
    split
    · rename_i hkind
      exact hkind
    · rename_i hkind
      have hother : c.kind = "jsx_expression" := by simpa [Concrete.isAttribute, hkind] using hattr
      exact hother

theorem openingTag {selfClosing : Bool} :
    RecipeRel R extra (.openingTag n selfClosing) (.openingTag n' selfClosing) :=
  ⟨rfl, .cons (hb.nameField hn) (.cons (.of_part (.many (hb.attributes hn)) (by decide))
    (.cons (.of_part (.bool _ _) (by decide)) .nil))⟩

theorem closingTag : RecipeRel R extra (.closingTag n) (.closingTag n') :=
  ⟨rfl, .cons (hb.nameField hn) .nil⟩

end Markup

variable {s s' : SourceText} {role : Role}

theorem leaf {kind field : String} (hfield : field ≠ "operator") :
    RecipeRel R extra (.leaf s n kind field) (.leaf s' n' kind field) :=
  ⟨rfl, .cons (.of_part (.text _ _) hfield) .nil⟩

theorem expressionRecipe (hb : Bridge R extra) (hn : Counterpart R .expression n n') :
    Option.Rel (RecipeRel R extra) (Recipe.expression s n) (Recipe.expression s' n') := by
  obtain ⟨u, hn, hu, hopen⟩ := hn
  have hsame := (hb.alike hn).1
  by_cases helement : n.kind = "jsx_element"
  · simp only [Recipe.expression, hsame, helement]
    exact hb.element hn hu helement
  by_cases hself : n.kind = "jsx_self_closing_element"
  · simp only [Recipe.expression, hsame, hself]
    exact .some (selfClosingElement hn hu hself)
  have hgrow : ¬n.MayGrow u := by
    intro hgrow
    rcases hgrow with ⟨hkind, -⟩ | ⟨hkind, hin⟩
    · exact hself hkind
    · exact hopen hkind hin
  unfold Recipe.expression
  rw [hsame]
  generalize hkind : n.kind = kind
  split
  · exact .some (hb.sequence hn hgrow helement (by rw [hkind]; decide) (by decide))
  · exact .some (hb.sequence hn hgrow helement (by rw [hkind]; decide) (by decide))
  · exact .some (hb.wrapper hn hgrow helement (by rw [hkind]; decide) (by decide))
  · exact .some (hb.wrapper hn hgrow helement (by rw [hkind]; decide) (by decide))
  · exact hb.variableDeclaration hn hgrow helement (by rw [hkind]; decide)
  · exact hb.variableDeclaration hn hgrow helement (by rw [hkind]; decide)
  · exact .some (hb.variableDeclarator hn hgrow helement)
  · exact .some (hb.arrowFunction hn hgrow helement hu (by rw [hkind]; decide))
  · exact .some (hb.exportStatement hn hgrow helement (by rw [hkind]; decide))
  · exact hb.binaryExpression hn hgrow helement
  · exact .some (hb.conditional hn hgrow helement)
  · exact absurd hkind helement
  · exact absurd hkind hself
  · exact .some (hb.container hn hgrow helement (by rw [hkind]; decide))
  · exact .some (leaf (by decide))
  · exact .some ⟨rfl, .cons (.of_part (.text _ _) (by decide)) .nil⟩
  · exact .some ⟨rfl, .nil⟩
  · exact .some ⟨rfl, .cons (.of_part (.bool _ _) (by decide)) .nil⟩
  · exact .some ⟨rfl, .cons (.of_part (.bool _ _) (by decide)) .nil⟩
  · exact .some (leaf (by decide))
  · exact .some (hb.function hn hgrow helement hu (by rw [hkind]; decide))
  · exact .some (hb.function hn hgrow helement hu (by rw [hkind]; decide))
  · exact .some (hb.function hn hgrow helement hu (by rw [hkind]; decide))
  · exact .some (hb.function hn hgrow helement hu (by rw [hkind]; decide))
  · exact .some (hb.function hn hgrow helement hu (by rw [hkind]; decide))
  · exact .some (leaf (by decide))
  · exact .some (leaf (by decide))
  · exact .some (leaf (by decide))
  · refine .some (hb.sequence hn hgrow helement ?_ (by decide))
    rw [hkind]
    simp_all [parametricKinds]

/-- Counterparts have corresponding recipes in every role, or neither has one. -/
theorem recipe (hb : Bridge R extra) (hn : Counterpart R role n n') :
    Option.Rel (RecipeRel R extra) (recipe s role n) (recipe s' role n') := by
  obtain ⟨h, hR, hsuits⟩ := hn
  cases role with
  | file =>
    have hroot : Counterpart R .expression n n' := ⟨h, hR, hsuits⟩
    exact .some ⟨rfl, .cons (.of_part (hb.expression (.some hroot)) (by decide)) .nil⟩
  | expression => exact hb.expressionRecipe ⟨h, hR, hsuits⟩
  | openingTag selfClosing => exact .some (hb.openingTag hR)
  | namedAttribute => exact hb.namedAttribute hR hsuits
  | spreadAttribute => exact .some (hb.spreadAttribute hR hsuits)
  | name => exact .some (hb.markupName hR)
  | closingTag => exact .some (hb.closingTag hR)
  | openingFragment => exact .some ⟨rfl, .nil⟩
  | closingFragment => exact .some ⟨rfl, .nil⟩
  | emptyExpression => exact .some ⟨rfl, .nil⟩

end Bridge

end TopTag
