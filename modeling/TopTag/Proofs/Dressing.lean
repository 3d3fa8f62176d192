import Mathlib.Logic.Relation
import TopTag.Proofs.Counterparts

/-!
# Comments and parentheses in concrete trees

A concrete tree can be dressed with a comment, which stands behind some sibling, and with a pair of
parentheses, which goes around an expression and takes over its field. Conversion does not see
either (`convert_of_dressings`), with one proviso: in a tag of an element the name is read as it
stands, so parentheses around it would show.

Every rule is gone through once, for a node and the same node with one thing more at some depth
below it. The rules look at the children in few ways, each of them a lemma on `Kept`: as the parts,
as the first child in a field, and by the kinds that no expression has.
-/

namespace TopTag

namespace Concrete

/-- The fields that hold one operand, with the kinds of node they belong to. -/
def operandFields : List (String × String) :=
  [("binary_expression", "left"), ("binary_expression", "right"),
    ("ternary_expression", "condition"), ("ternary_expression", "consequence"),
    ("ternary_expression", "alternative"), ("arrow_function", "body"),
    ("variable_declarator", "value"), ("export_statement", "value")]

/-- The kinds of node that hold one operand in no particular field. -/
def carrierKinds : List String := ["return_statement", "expression_statement", "jsx_expression"]

/-- The kinds that can stand in parentheses. -/
def isExpressionKind (kind : String) : Bool :=
  !(["statement_block", "variable_declarator", "spread_element", "comment",
      "default"].contains kind) &&
    (!("jsx_".toList.isPrefixOf kind.toList) ||
      ["jsx_element", "jsx_self_closing_element"].contains kind)

/-- The child of a node of the given kind stands where parentheses may go around it. -/
def IsOperand (kind : String) (c : Concrete) : Prop :=
  (∃ field, c.head.field = some field ∧ (kind, field) ∈ operandFields) ∨ kind ∈ carrierKinds

/-- The node is named and is no comment: it is a part of the node that it stands in. -/
def isPart (n : Concrete) : Bool := n.head.named && n.kind != "comment"

def inField (n : Concrete) (field : Option String) : Concrete :=
  .node { n.head with field := field } n.children

/-- A comment that stands in no field. -/
structure IsComment (n : Concrete) : Prop where
  kind : n.kind = "comment"
  field : n.head.field = none

/-- `e` is the named expression `c` in one pair of parentheses, which has taken over its field.
Beside the expression it holds the parentheses themselves, and perhaps comments. -/
structure Enclosed (c e : Concrete) : Prop where
  inner_named : c.head.named = true
  inner_kind : isExpressionKind c.kind = true
  named : e.head.named = true
  kind : e.kind = "parenthesized_expression"
  field : e.head.field = c.head.field
  children : ∃ before after, e.children = before ++ c.inField none :: after ∧
    (∀ k ∈ before, k.isPart = false) ∧ ∀ k ∈ after, k.isPart = false

/-- The child is a tag of the element. -/
def IsTag (n c : Concrete) : Prop :=
  n.kind = "jsx_element" ∧ (n.child? "open_tag" = some c ∨ n.child? "close_tag" = some c)

/-- Both nodes have a name of the same kind and range, or none. -/
def SameName (n n' : Concrete) : Prop :=
  (n'.child? "name").map head = (n.child? "name").map head

/-- One thing more in a tree: a comment that is not the first child, or parentheses around an
operand, at any depth. A tag of an element keeps its name. -/
inductive Dressing : Concrete → Concrete → Prop
  | comment {h : Head} {before after : List Concrete} {k : Concrete} (hk : k.IsComment)
      (hbefore : before ≠ []) :
      Dressing (.node h (before ++ after)) (.node h (before ++ k :: after))
  | parentheses {h : Head} {before after : List Concrete} {c e : Concrete}
      (hc : IsOperand h.kind c) (he : c.Enclosed e) :
      Dressing (.node h (before ++ c :: after)) (.node h (before ++ e :: after))
  | inside {h : Head} {before after : List Concrete} {c c' : Concrete} (hc : Dressing c c')
      (htag : (node h (before ++ c :: after)).IsTag c → c.SameName c') :
      Dressing (.node h (before ++ c :: after)) (.node h (before ++ c' :: after))

/-- The same node, with perhaps one thing more below it. -/
def Kept (n n' : Concrete) : Prop := n' = n ∨ Dressing n n'

/-- How a child of `n` may have changed: below, or by parentheses around it. -/
def Replaced (n c c' : Concrete) : Prop :=
  c.Kept c' ∧ (n.IsTag c → c.SameName c') ∨ IsOperand n.kind c ∧ c.Enclosed c'

/-- Two children of two nodes that correspond. -/
structure Peer (n n' c c' : Concrete) : Prop where
  replaced : n.Replaced c c'
  lt : c.height < n.height
  lt' : c'.height < n'.height

end Concrete

open Concrete (Kept Replaced Peer IsComment Enclosed IsOperand isExpressionKind)
open Relation (ReflTransGen)

/-! ## The children of a dressed node -/

theorem Padded.mem {α β : Type} {extra : β → Prop} {R : α → β → Prop} {as : List α} {bs : List β}
    (h : Padded extra R as bs) : Padded extra (fun a b => R a b ∧ a ∈ as ∧ b ∈ bs) as bs := by
  induction h with
  | nil => exact .nil
  | pad hb _ ih =>
    apply Padded.pad hb
    exact ih.imp (fun _ h => h) fun a c h => ⟨h.1, h.2.1, List.mem_cons_of_mem _ h.2.2⟩
  | keep hab _ ih =>
    apply Padded.keep ⟨hab, List.mem_cons_self, List.mem_cons_self⟩
    exact ih.imp (fun _ h => h) fun a c h =>
      ⟨h.1, List.mem_cons_of_mem _ h.2.1, List.mem_cons_of_mem _ h.2.2⟩

theorem Padded.refl {α : Type} {extra : α → Prop} {R : α → α → Prop} (hR : ∀ a, R a a)
    (as : List α) : Padded extra R as as := by
  induction as with
  | nil => exact .nil
  | cons a as ih => exact .keep (hR a) ih

/-- A filter that drops the extra entries. -/
theorem Padded.forall₂_filter {α β : Type} {extra : β → Prop} {R : α → β → Prop} {p : α → Bool}
    {q : β → Bool} {as : List α} {bs : List β} (h : Padded extra R as bs)
    (hextra : ∀ b, extra b → q b = false) (hpq : ∀ a b, R a b → q b = p a) :
    List.Forall₂ R (as.filter p) (bs.filter q) := by
  induction h with
  | nil => exact .nil
  | @pad b as bs hb _ ih =>
    rw [List.filter_cons_of_neg (by simp [hextra b hb])]
    exact ih
  | @keep a b as bs hab _ ih =>
    rw [List.filter_cons, List.filter_cons, hpq a b hab]
    split
    · exact .cons hab ih
    · exact ih

theorem rel_self {α β : Type} {R : α → β → Prop} {o : Option α} {o' : Option β}
    (h : Option.Rel R o o') : Option.Rel (fun a b => R a b ∧ o = some a) o o' := by
  cases h with
  | none => exact .none
  | some hab => exact .some ⟨hab, rfl⟩

theorem rel_cases {α β : Type} {R : α → β → Prop} {o : Option α} {o' : Option β}
    (h : Option.Rel R o o') :
    o = none ∧ o' = none ∨ ∃ a b, o = some a ∧ o' = some b ∧ R a b := by
  cases h with
  | none => exact .inl ⟨rfl, rfl⟩
  | some hab => exact .inr ⟨_, _, rfl, rfl, hab⟩

namespace Concrete

variable {n n' c c' : Concrete}

theorem Kept.refl (n : Concrete) : n.Kept n := .inl rfl

theorem Kept.head_eq (h : n.Kept n') : n'.head = n.head := by
  rcases h with rfl | h
  · rfl
  · cases h <;> rfl

theorem Kept.kind_eq (h : n.Kept n') : n'.kind = n.kind := congrArg Head.kind h.head_eq

theorem Replaced.refl (n c : Concrete) : n.Replaced c c := .inl ⟨.refl c, fun _ => rfl⟩

theorem Replaced.field (h : n.Replaced c c') : c'.head.field = c.head.field := by
  rcases h with ⟨hkept, -⟩ | ⟨-, he⟩
  · rw [hkept.head_eq]
  · exact he.field

theorem Replaced.named (h : n.Replaced c c') : c'.head.named = c.head.named := by
  rcases h with ⟨hkept, -⟩ | ⟨-, he⟩
  · rw [hkept.head_eq]
  · rw [he.named, he.inner_named]

/-- Parentheses go around expressions and are expressions, so no other kind comes or goes. -/
theorem Replaced.kind_beq (h : n.Replaced c c') {kind : String}
    (hkind : isExpressionKind kind = false) : (c'.kind == kind) = (c.kind == kind) := by
  rcases h with ⟨hkept, -⟩ | ⟨-, he⟩
  · rw [hkept.kind_eq]
  · have hinner : c.kind ≠ kind := by
      rintro rfl
      simp [he.inner_kind] at hkind
    have houter : c'.kind ≠ kind := by
      rintro rfl
      rw [he.kind] at hkind
      exact absurd hkind (by decide)
    rw [beq_false_of_ne hinner, beq_false_of_ne houter]

theorem Replaced.isPart (h : n.Replaced c c') : c'.isPart = c.isPart := by
  unfold Concrete.isPart bne
  rw [h.named, h.kind_beq (by decide)]

theorem Replaced.kept_of_kind (h : n.Replaced c c') (hkind : isExpressionKind c.kind = false) :
    c.Kept c' := by
  rcases h with ⟨hkept, -⟩ | ⟨-, he⟩
  · exact hkept
  · rw [he.inner_kind] at hkind
    contradiction

theorem Replaced.kept_of_place (h : n.Replaced c c') (hplace : ¬IsOperand n.kind c) :
    c.Kept c' := by
  rcases h with ⟨hkept, -⟩ | ⟨hoperand, -⟩
  · exact hkept
  · exact absurd hoperand hplace

theorem not_isOperand {kind : String} (hkind : kind ∉ carrierKinds)
    (hfields : ∀ field, c.head.field = some field → (kind, field) ∉ operandFields) :
    ¬IsOperand kind c := by
  rintro (⟨field, hfield, hmem⟩ | hcarrier)
  · exact hfields field hfield hmem
  · exact hkind hcarrier

/-- A node of a kind that holds no operand. -/
theorem not_isOperand_of_kind {kind : String} (hkind : kind ∉ carrierKinds)
    (hfields : kind ∉ operandFields.map Prod.fst) : ¬IsOperand kind c := by
  apply not_isOperand hkind
  intro field _ hmem
  exact hfields (List.mem_map_of_mem hmem)

/-- A field that holds no operand. -/
theorem not_isOperand_of_field {kind field : String} (hkind : kind ∉ carrierKinds)
    (hfield : c.head.field = some field) (hfields : field ∉ operandFields.map Prod.snd) :
    ¬IsOperand kind c := by
  apply not_isOperand hkind
  intro other hother hmem
  rw [hfield] at hother
  obtain rfl := Option.some.inj hother
  exact hfields (List.mem_map_of_mem hmem)

namespace Kept

theorem padded (h : n.Kept n') : Padded IsComment n.Replaced n.children n'.children := by
  rcases h with rfl | h
  · exact .refl (Replaced.refl n') _
  · cases h with
    | comment hk _ => exact (Padded.refl (Replaced.refl _) _).append (.pad hk (.refl (.refl _) _))
    | parentheses hc he =>
      exact (Padded.refl (Replaced.refl _) _).append (.keep (.inr ⟨hc, he⟩) (.refl (.refl _) _))
    | inside hc htag =>
      have hchild : Replaced _ _ _ := .inl ⟨.inr hc, htag⟩
      exact (Padded.refl (Replaced.refl _) _).append (.keep hchild (.refl (.refl _) _))

theorem peers (h : n.Kept n') : Padded IsComment (Peer n n') n.children n'.children :=
  h.padded.mem.imp (fun _ hk => hk) fun _ _ hc =>
    ⟨hc.1, height_lt_of_mem_children hc.2.1, height_lt_of_mem_children hc.2.2⟩

/-- The first child is no new one, and in a node without operands it is as it was. -/
theorem first (h : n.Kept n') (hkind : n.kind ∉ carrierKinds)
    (hfields : n.kind ∉ operandFields.map Prod.fst) :
    n'.children.head?.map Concrete.head = n.children.head?.map Concrete.head := by
  rcases h with rfl | h
  · rfl
  · cases h with
    | comment hk hbefore => simp [children, List.head?_append_of_ne_nil _ hbefore]
    | parentheses hc he => exact absurd hc (not_isOperand_of_kind hkind hfields)
    | @inside _ before _ c c' hc _ =>
      have hsame : c'.head = c.head := Kept.head_eq (.inr hc)
      cases before with
      | nil => simp [children, hsame]
      | cons => simp [children]

theorem parts (h : n.Kept n') : List.Forall₂ (Peer n n') n.parts n'.parts := by
  apply h.peers.forall₂_filter
  · intro k hk
    simp [hk.kind]
  · intro c c' hc
    exact hc.replaced.isPart

theorem child? (h : n.Kept n') (field : String) :
    Option.Rel (fun c c' => Peer n n' c c' ∧ n.child? field = some c) (n.child? field)
      (n'.child? field) := by
  apply rel_self
  have hfound := h.peers.find? (p := fun c => c.head.field == some field)
    (q := fun c => c.head.field == some field) fun c c' hc => by rw [hc.replaced.field]
  apply hfound.resolve_right
  rintro ⟨k, hk, hfind⟩
  have hfield := List.find?_some hfind
  simp [hk.field] at hfield

theorem filter_kind (h : n.Kept n') {k : String} (hkind : isExpressionKind k = false)
    (hcomment : k ≠ "comment") :
    List.Forall₂ (Peer n n') (n.children.filter fun c => c.head.named && c.kind == k)
      (n'.children.filter fun c => c.head.named && c.kind == k) := by
  apply h.peers.forall₂_filter
  · intro k hk
    simp [hk.kind, hcomment.symm]
  · intro c c' hc
    rw [hc.replaced.named, hc.replaced.kind_beq hkind]

end Kept

end Concrete

/-! ## The rules -/

/-- Below `n'` the second conversion makes the same as the first one makes below `n`. -/
def Agree (conv conv' : Conversion) (n n' : Concrete) : Prop :=
  ∀ c c', c.Kept c' ∨ c.Enclosed c' → c.height < n.height → c'.height < n'.height →
    conv' c' = conv c

namespace Convert

variable {s : SourceText} {conv conv' : Conversion} {n n' : Concrete}

theorem optional_congr {o o' : Option Concrete}
    (h : Option.Rel (fun c c' => conv' c' = conv c) o o') :
    optional conv' o' = optional conv o := by
  cases h with
  | none => rfl
  | some hc => simp only [optional, hc]

theorem all_congr {cs cs' : List Concrete}
    (h : List.Forall₂ (fun c c' => conv' c' = conv c) cs cs') : all conv' cs' = all conv cs := by
  induction h with
  | nil => rfl
  | cons hc _ ih => simp only [all, hc, ih]

theorem base_congr (h : n'.head = n.head) (kind : String) (fields : List (String × Tree)) :
    base s n' kind fields = base s n kind fields := by
  unfold base
  rw [h]

theorem text_congr (h : n'.head = n.head) : text s n' = text s n := by
  unfold text
  rw [h]

theorem leaf_congr (h : n'.head = n.head) (kind field : String) :
    leaf s n' kind field = leaf s n kind field := by
  unfold leaf
  rw [text_congr h, base_congr h]

theorem markupName_congr (h : n'.head = n.head) : markupName s n' = markupName s n := by
  have hkind : n'.kind = n.kind := congrArg Concrete.Head.kind h
  unfold markupName
  rw [hkind, leaf_congr h, leaf_congr h, leaf_congr h]

theorem optionalName_congr (h : n.SameName n') :
    optionalName s (n'.child? "name") = optionalName s (n.child? "name") := by
  unfold Concrete.SameName at h
  cases hc : n.child? "name" with
  | none =>
    rw [hc, Option.map_none, Option.map_eq_none_iff] at h
    rw [h]
  | some c =>
    rw [hc, Option.map_some] at h
    obtain ⟨c', hc', hsame⟩ := Option.map_eq_some_iff.mp h
    rw [hc']
    exact markupName_congr hsame

theorem optionalTag_congr {close : Concrete → Except Fault Tree} {o o' : Option Concrete}
    (h : Option.Rel (fun c c' => close c' = close c) o o') :
    optionalTag close o' = optionalTag close o := by
  cases h with
  | none => rfl
  | some hc => exact hc

end Convert

namespace Agree

variable {s : SourceText} {conv conv' : Conversion} {n n' c c' : Concrete}

theorem peer (hconv : Agree conv conv' n n') (hc : Peer n n' c c') : conv' c' = conv c := by
  apply hconv c c' _ hc.lt hc.lt'
  rcases hc.replaced with ⟨hkept, -⟩ | ⟨-, he⟩
  · exact .inl hkept
  · exact .inr he

theorem below (hconv : Agree conv conv' n n') (hc : Peer n n' c c') : Agree conv conv' c c' := by
  intro d d' hd hlt hlt'
  exact hconv d d' hd (Nat.lt_trans hlt hc.lt) (Nat.lt_trans hlt' hc.lt')

end Agree

namespace Convert

open Concrete (not_isOperand_of_kind not_isOperand_of_field)

variable {s : SourceText} {conv conv' : Conversion} {n n' : Concrete}

section

variable (h : n.Kept n') (hconv : Agree conv conv' n n')
include h hconv

theorem optional_child? (field : String) :
    optional conv' (n'.child? field) = optional conv (n.child? field) :=
  optional_congr (rel_imp (h.child? field) fun _ _ hc => hconv.peer hc.1)

theorem optional_head? : optional conv' n'.parts.head? = optional conv n.parts.head? :=
  optional_congr (rel_imp (rel_head? h.parts) fun _ _ hc => hconv.peer hc)

theorem all_parts : all conv' n'.parts = all conv n.parts :=
  all_congr (h.parts.imp fun _ _ hc => hconv.peer hc)

theorem sequence_congr (kind field : String) :
    sequence s conv' n' kind field = sequence s conv n kind field := by
  unfold sequence
  simp only [all_parts h hconv, base_congr h.head_eq]

theorem wrapper_congr (kind field : String) :
    wrapper s conv' n' kind field = wrapper s conv n kind field := by
  unfold wrapper
  simp only [optional_head? h hconv, base_congr h.head_eq]

theorem variableDeclaration_congr (hkind : n.kind ∉ Concrete.carrierKinds)
    (hfields : n.kind ∉ Concrete.operandFields.map Prod.fst) :
    variableDeclaration s conv' n' = variableDeclaration s conv n := by
  have hfirst := h.first hkind hfields
  have hdeclarators := all_congr ((h.filter_kind (k := "variable_declarator") (by decide)
    (by decide)).imp fun _ _ hc => hconv.peer hc)
  unfold variableDeclaration
  simp only [hdeclarators]
  cases hcs : n.children with
  | nil =>
    rw [hcs] at hfirst
    have hcs' : n'.children = [] := by simpa using hfirst
    rw [hcs']
  | cons keyword rest =>
    rw [hcs, List.head?_cons, Option.map_some] at hfirst
    obtain ⟨keyword', hhead, hsame⟩ := Option.map_eq_some_iff.mp hfirst
    obtain ⟨rest', hcs'⟩ := List.head?_eq_some_iff.mp hhead
    rw [hcs']
    simp only [text_congr hsame, base_congr h.head_eq]

theorem variableDeclarator_congr : variableDeclarator s conv' n' = variableDeclarator s conv n := by
  unfold variableDeclarator
  simp only [optional_child? h hconv, base_congr h.head_eq]

theorem conditional_congr : conditional s conv' n' = conditional s conv n := by
  unfold conditional
  simp only [optional_child? h hconv, base_congr h.head_eq]

theorem binaryExpression_congr (hkind : n.kind ∉ Concrete.carrierKinds) :
    binaryExpression s conv' n' = binaryExpression s conv n := by
  have hoperator : Option.Rel (fun o o' : Concrete => o'.kind = o.kind) (n.child? "operator")
      (n'.child? "operator") := by
    apply rel_imp (h.child? "operator")
    intro o o' ho
    have hfield := (Concrete.child?_eq_some ho.2).2
    exact (ho.1.replaced.kept_of_place
      (not_isOperand_of_field hkind hfield (by decide))).kind_eq
  unfold binaryExpression
  rcases rel_cases hoperator with ⟨ho, ho'⟩ | ⟨o, o', ho, ho', hsame⟩
  · rw [ho, ho']
  · simp only [ho, ho', hsame, optional_child? h hconv, base_congr h.head_eq]

theorem parameters_congr (hkind : n.kind ∉ Concrete.carrierKinds) :
    parameters conv' n' = parameters conv n := by
  have hsingle := h.child? "parameter"
  have hlist : Option.Rel (fun l l' : Concrete => all conv' l'.parts = all conv l.parts)
      (n.child? "parameters") (n'.child? "parameters") := by
    apply rel_imp (h.child? "parameters")
    intro l l' hl
    have hfield := (Concrete.child?_eq_some hl.2).2
    have hkept := hl.1.replaced.kept_of_place (not_isOperand_of_field hkind hfield (by decide))
    exact all_parts hkept (hconv.below hl.1)
  unfold parameters
  rcases rel_cases hsingle with ⟨hs, hs'⟩ | ⟨single, single', hs, hs', hc⟩
  · rw [hs, hs']
    rcases rel_cases hlist with ⟨hl, hl'⟩ | ⟨list, list', hl, hl', hparts⟩
    · rw [hl, hl']
    · rw [hl, hl']
      exact hparts
  · rw [hs, hs']
    exact all_congr (.cons (hconv.peer hc.1) .nil)

theorem function_congr (hkind : n.kind ∉ Concrete.carrierKinds) (kind : String) :
    function s conv' n' kind = function s conv n kind := by
  unfold function
  simp only [optional_child? h hconv, parameters_congr h hconv hkind, base_congr h.head_eq]

/-- A block is no expression, so parentheses around a body do not make it look like one. -/
theorem arrowFunction_congr (hkind : n.kind ∉ Concrete.carrierKinds) :
    arrowFunction s conv' n' = arrowFunction s conv n := by
  have hbody : ((n'.child? "body").any fun b => b.kind != "statement_block") =
      (n.child? "body").any fun b => b.kind != "statement_block" := by
    rcases rel_cases (h.child? "body") with ⟨hb, hb'⟩ | ⟨b, b', hb, hb', hc⟩
    · rw [hb, hb']
    · unfold bne
      rw [hb, hb', Option.any_some, Option.any_some, hc.1.replaced.kind_beq (by decide)]
  unfold arrowFunction
  simp only [optional_child? h hconv, parameters_congr h hconv hkind, base_congr h.head_eq, hbody]

theorem container_congr : container s conv' n' = container s conv n := by
  unfold container
  rcases rel_cases (rel_head? h.parts) with ⟨hc, hc'⟩ | ⟨c, c', hc, hc', hpeer⟩
  · simp only [hc, hc', base_congr h.head_eq]
  · simp only [hc, hc', optional, hconv.peer hpeer, base_congr h.head_eq]

omit h hconv in
theorem withoutField_padded {cs cs' : List Concrete} (field : String)
    (hcs : Padded IsComment (Peer n n') cs cs') :
    Padded IsComment (Peer n n') (withoutField field cs) (withoutField field cs') := by
  induction hcs with
  | nil => exact .nil
  | pad hk _ ih =>
    rw [withoutField, if_neg (by simp [hk.field])]
    exact .pad hk ih
  | keep hc hrest ih =>
    rw [withoutField, withoutField, hc.replaced.field]
    split
    · exact hrest
    · exact .keep hc ih

theorem exportStatement_congr : exportStatement s conv' n' = exportStatement s conv n := by
  have hdefault : (n'.children.any fun c => c.kind == "default") =
      n.children.any fun c => c.kind == "default" := by
    have hrest := h.peers
    generalize n.children = cs at hrest
    generalize n'.children = cs' at hrest
    induction hrest with
    | nil => rfl
    | pad hk _ ih => simp [hk.kind, ih]
    | keep hc _ ih => rw [List.any_cons, List.any_cons, hc.replaced.kind_beq (by decide), ih]
  have hexported : Option.Rel (Peer n n') (exported n).1 (exported n').1 ∧
      Padded IsComment (Peer n n') (exported n).2 (exported n').2 := by
    have hvalue := rel_imp (h.child? "value") fun _ _ hc => hc.1
    unfold exported
    rcases rel_cases (h.child? "declaration") with ⟨hd, hd'⟩ | ⟨d, d', hd, hd', hpeer⟩
    · rw [hd, hd']
      exact ⟨hvalue, withoutField_padded _ h.peers⟩
    · rw [hd, hd']
      exact ⟨.some hpeer.1, withoutField_padded _ h.peers⟩
  have hfirst := optional_congr (rel_imp hexported.1 fun _ _ hc => hconv.peer hc)
  have hothers := hexported.2.forall₂_filter (p := Concrete.isPart) (q := Concrete.isPart)
    (fun k hk => by simp [Concrete.isPart, hk.kind]) fun _ _ hc => hc.replaced.isPart
  have hspecifiers := all_congr (hothers.imp fun _ _ hc => hconv.peer hc)
  unfold Concrete.isPart at hspecifiers
  unfold exportStatement
  simp only [hdefault, hfirst, hspecifiers, base_congr h.head_eq]

end

/-! ### Markup -/

section

variable (h : n.Kept n') (hconv : Agree conv conv' n n')
include h hconv

theorem markupAttribute_congr (hkind : n.kind = "jsx_attribute") :
    markupAttribute s conv' n' = markupAttribute s conv n := by
  have hvalue : optional conv' (n'.parts.drop 1).head? = optional conv (n.parts.drop 1).head? :=
    optional_congr (rel_imp (rel_head? (List.forall₂_drop 1 h.parts)) fun _ _ hc => hconv.peer hc)
  have hname : Option.Rel (fun c c' : Concrete => c'.head = c.head) n.parts.head?
      n'.parts.head? := by
    apply rel_imp (rel_head? h.parts)
    intro c c' hc
    apply (hc.replaced.kept_of_place _).head_eq
    rw [hkind]
    exact not_isOperand_of_kind (by decide) (by decide)
  unfold markupAttribute
  rw [hvalue]
  rcases rel_cases hname with ⟨hc, hc'⟩ | ⟨c, c', hc, hc', hsame⟩
  · rw [hc, hc']
  · simp only [hc, hc', markupName_congr hsame, base_congr h.head_eq]

theorem spreadAttribute_congr : spreadAttribute s conv' n' = spreadAttribute s conv n := by
  have htarget : Option.Rel (fun c c' => conv' c' = conv c) (n.parts.head?.map spreadTarget)
      (n'.parts.head?.map spreadTarget) := by
    apply rel_map (rel_head? h.parts)
    intro c c' hc
    unfold spreadTarget
    rw [hc.replaced.kind_beq (by decide)]
    split
    · rename_i hspread
      have hkept : c.Kept c' := hc.replaced.kept_of_kind (by rw [eq_of_beq hspread]; decide)
      rcases rel_cases (rel_head? hkept.parts) with ⟨hd, hd'⟩ | ⟨d, d', hd, hd', hpeer⟩
      · rw [hd, hd']
        exact hconv.peer hc
      · rw [hd, hd']
        exact (hconv.below hc).peer hpeer
    · exact hconv.peer hc
  unfold spreadAttribute
  simp only [optional_congr htarget, base_congr h.head_eq]

omit h in
theorem attributes_congr {cs cs' : List Concrete} (hcs : List.Forall₂ (Peer n n') cs cs') :
    attributes s conv' cs' = attributes s conv cs := by
  induction hcs with
  | nil => rfl
  | @cons c c' cs cs' hc _ ih =>
    have hkept (kind : String) (hkind : isExpressionKind kind = false)
        (hc' : (c.kind == kind) = true) : c.Kept c' :=
      hc.replaced.kept_of_kind (by rwa [eq_of_beq hc'])
    rw [attributes, attributes, hc.replaced.kind_beq (by decide), hc.replaced.kind_beq (by decide),
      ih]
    split
    · rename_i hattribute
      rw [markupAttribute_congr (hkept _ (by decide) hattribute) (hconv.below hc)
        (eq_of_beq hattribute)]
    · split
      · rename_i hspread
        rw [spreadAttribute_congr (hkept _ (by decide) hspread) (hconv.below hc)]
      · rfl

theorem openingTag_congr (hname : n.SameName n') (selfClosing : Bool) :
    openingTag s conv' n' selfClosing = openingTag s conv n selfClosing := by
  unfold openingTag
  simp only [attributes_congr hconv h.parts, optionalName_congr hname, base_congr h.head_eq]

omit hconv in
theorem closingTag_congr (hname : n.SameName n') : closingTag s n' = closingTag s n := by
  unfold closingTag
  simp only [optionalName_congr hname, base_congr h.head_eq]

/-- In a node without operands the name is left alone. -/
theorem selfClosingElement_congr (hkind : n.kind = "jsx_self_closing_element") :
    selfClosingElement s conv' n' = selfClosingElement s conv n := by
  have hname : n.SameName n' := by
    unfold Concrete.SameName
    rcases rel_cases (h.child? "name") with ⟨hc, hc'⟩ | ⟨c, c', hc, hc', hpeer⟩
    · rw [hc, hc']
    · have hplace : ¬IsOperand n.kind c := by
        rw [hkind]
        exact not_isOperand_of_kind (by decide) (by decide)
      rw [hc, hc', Option.map_some, Option.map_some,
        (hpeer.1.replaced.kept_of_place hplace).head_eq]
  unfold selfClosingElement
  simp only [openingTag_congr h hconv hname, base_congr h.head_eq]

omit hconv in
/-- A tag of an element is kept, with its name. -/
theorem tag_child? (hkind : n.kind = "jsx_element") {field : String}
    (hfield : field = "open_tag" ∨ field = "close_tag") :
    Option.Rel (fun c c' => Peer n n' c c' ∧ c.Kept c' ∧ c.SameName c') (n.child? field)
      (n'.child? field) := by
  apply rel_imp (h.child? field)
  rintro c c' ⟨hc, hchild⟩
  have htag : n.IsTag c := by
    rcases hfield with rfl | rfl
    · exact ⟨hkind, .inl hchild⟩
    · exact ⟨hkind, .inr hchild⟩
  rcases hc.replaced with ⟨hkept, hname⟩ | ⟨hoperand, -⟩
  · exact ⟨hc, hkept, hname htag⟩
  · rw [hkind] at hoperand
    exact absurd hoperand (not_isOperand_of_kind (by decide) (by decide))

theorem element_congr (hkind : n.kind = "jsx_element") :
    element s conv' n' = element s conv n := by
  have hcontent : all conv' (n'.parts.filter fun c => !tagKinds.contains c.kind) =
      all conv (n.parts.filter fun c => !tagKinds.contains c.kind) := by
    have hfiltered : List.Forall₂ (Peer n n') (n.parts.filter fun c => !tagKinds.contains c.kind)
        (n'.parts.filter fun c => !tagKinds.contains c.kind) := by
      refine List.rel_filter (fun c c' hc => ?_) h.parts
      simp [tagKinds, ← beq_iff_eq, hc.replaced.kind_beq, isExpressionKind]
    exact all_congr (hfiltered.imp fun _ _ hc => hconv.peer hc)
  have hclose := tag_child? h hkind (.inr rfl)
  have hclosing : optionalTag (closingTag s) (n'.child? "close_tag") =
      optionalTag (closingTag s) (n.child? "close_tag") :=
    optionalTag_congr (rel_imp hclose fun _ _ hc => closingTag_congr hc.2.1 hc.2.2)
  have hbare : optionalTag (base s · "JSXClosingFragment" []) (n'.child? "close_tag") =
      optionalTag (base s · "JSXClosingFragment" []) (n.child? "close_tag") :=
    optionalTag_congr (rel_imp hclose fun _ _ hc => base_congr hc.2.1.head_eq _ _)
  unfold element
  simp only [hcontent, hclosing, hbare, base_congr h.head_eq]
  rcases rel_cases (tag_child? h hkind (.inl rfl)) with ⟨ho, ho'⟩ | ⟨o, o', ho, ho', hopen⟩
  · rw [ho, ho']
  · obtain ⟨hpeer, hkept, hname⟩ := hopen
    simp only [ho, ho', openingTag_congr hkept (hconv.below hpeer) hname,
      base_congr hkept.head_eq]
    unfold Concrete.SameName at hname
    cases hc : o.child? "name" with
    | none =>
      rw [hc, Option.map_none, Option.map_eq_none_iff] at hname
      rw [hname]
    | some c =>
      rw [hc, Option.map_some] at hname
      obtain ⟨c', hc', -⟩ := Option.map_eq_some_iff.mp hname
      rw [hc']

end

/-! ### All rules -/

theorem rule_congr (h : n.Kept n') (hconv : Agree conv conv' n n') :
    rule s conv' n' = rule s conv n := by
  have hhead := h.head_eq
  have hsame := h.kind_eq
  by_cases helement : n.kind = "jsx_element"
  · simp only [rule, hsame, helement]
    exact element_congr h hconv helement
  by_cases hself : n.kind = "jsx_self_closing_element"
  · simp only [rule, hsame, hself]
    exact selfClosingElement_congr h hconv hself
  unfold rule
  rw [hsame]
  generalize hkind : n.kind = kind
  split
  · exact sequence_congr h hconv _ _
  · exact sequence_congr h hconv _ _
  · exact wrapper_congr h hconv _ _
  · exact wrapper_congr h hconv _ _
  · exact variableDeclaration_congr h hconv (by rw [hkind]; decide) (by rw [hkind]; decide)
  · exact variableDeclaration_congr h hconv (by rw [hkind]; decide) (by rw [hkind]; decide)
  · exact variableDeclarator_congr h hconv
  · exact arrowFunction_congr h hconv (by rw [hkind]; decide)
  · exact exportStatement_congr h hconv
  · exact binaryExpression_congr h hconv (by rw [hkind]; decide)
  · exact conditional_congr h hconv
  · exact absurd hkind helement
  · exact absurd hkind hself
  · exact container_congr h hconv
  · exact leaf_congr hhead _ _
  · rw [text_congr hhead, base_congr hhead]
  · exact base_congr hhead _ _
  · exact base_congr hhead _ _
  · exact base_congr hhead _ _
  · exact leaf_congr hhead _ _
  · exact function_congr h hconv (by rw [hkind]; decide) _
  · exact function_congr h hconv (by rw [hkind]; decide) _
  · exact function_congr h hconv (by rw [hkind]; decide) _
  · exact function_congr h hconv (by rw [hkind]; decide) _
  · exact function_congr h hconv (by rw [hkind]; decide) _
  · exact leaf_congr hhead _ _
  · exact leaf_congr hhead _ _
  · exact leaf_congr hhead _ _
  · exact sequence_congr h hconv _ _

theorem step_congr (h : n.Kept n') (hconv : Agree conv conv' n n') :
    step s conv' n' = step s conv n := by
  unfold step
  rw [h.kind_eq, rule_congr h hconv]
  rcases rel_cases (rel_head? h.parts) with ⟨hc, hc'⟩ | ⟨c, c', hc, hc', hpeer⟩
  · rw [hc, hc']
  · rw [hc, hc']
    simp only [hconv.peer hpeer]

/-- No rule looks at the field of its own node. -/
theorem step_inField (conv : Conversion) (n : Concrete) (field : Option String) :
    step s conv (n.inField field) = step s conv n := by
  cases n
  rfl

theorem step_enclosed {c e : Concrete} (he : c.Enclosed e) :
    step s conv e = conv (c.inField none) := by
  obtain ⟨before, after, hchildren, hbefore, -⟩ := he.children
  have hpart : (c.inField none).isPart = true := by
    have hkind : c.kind ≠ "comment" := by
      intro hcomment
      have hexpression := he.inner_kind
      rw [hcomment] at hexpression
      exact absurd hexpression (by decide)
    have hbne : (c.kind != "comment") = true := bne_iff_ne.mpr hkind
    exact Bool.and_eq_true_iff.mpr ⟨he.inner_named, hbne⟩
  have hnone : before.filter Concrete.isPart = [] :=
    List.filter_eq_nil_iff.mpr fun k hk => by simp [hbefore k hk]
  have hparts : e.parts.head? = some (c.inField none) := by
    change (e.children.filter Concrete.isPart).head? = _
    rw [hchildren, List.filter_append, hnone, List.filter_cons_of_pos hpart]
    rfl
  rw [step, he.kind, hparts]
  rfl

end Convert

/-! ## Conversion -/

/-- With a bound for the height on either side, what has been dressed or enclosed is converted to
the same. -/
theorem convertTo_congr (s : SourceText) {height height' : Nat} {c c' : Concrete}
    (h : c.Kept c' ∨ c.Enclosed c') (hc : c.height ≤ height) (hc' : c'.height ≤ height') :
    convertTo s height' c' = convertTo s height c := by
  have hpos := c.height_pos
  have hpos' := c'.height_pos
  induction height' generalizing height c c' with
  | zero => omega
  | succ k' ih =>
    obtain ⟨k, rfl⟩ : ∃ k, height = k + 1 := ⟨height - 1, by omega⟩
    rcases h with hkept | he
    · apply Convert.step_congr hkept
      intro d d' hd hlt hlt'
      exact ih hd (by omega) (by omega) d.height_pos d'.height_pos
    · -- one step leads into the parentheses, where the node stands in no field
      have hinner : c.height < c'.height := by
        obtain ⟨before, after, hchildren, -⟩ := he.children
        have hmem : c.inField none ∈ c'.children := by simp [hchildren]
        have hlt := Concrete.height_lt_of_mem_children hmem
        cases c
        exact hlt
      obtain ⟨j, rfl⟩ : ∃ j, k' = j + 1 := ⟨k' - 1, by omega⟩
      calc convertTo s (j + 1 + 1) c'
          = convertTo s (j + 1) (c.inField none) := Convert.step_enclosed he
        _ = convertTo s (j + 1) c := Convert.step_inField _ c none
        _ = convertTo s (k + 1) c := ih (.inl (.refl c)) hc (by omega) hpos hpos

theorem convert_of_dressing {n n' : Concrete} (h : n.Dressing n') (s : SourceText) :
    convert s n' = convert s n :=
  convertTo_congr s (.inl (.inr h)) (Nat.le_refl _) (Nat.le_refl _)

namespace Concrete

/-- A token, which is not named. -/
def token (text : String) (start stop : Nat) : Concrete :=
  .node ⟨text, start, stop, false, none, false, false⟩ []

/-- An expression in parentheses. -/
def bracketed (c : Concrete) (start stop : Nat) : Concrete :=
  .node ⟨"parenthesized_expression", start, stop, true, c.head.field, false, false⟩
    [token "(" start (start + 1), c.inField none, token ")" (stop - 1) stop]

theorem enclosed_bracketed {c : Concrete} (hnamed : c.head.named = true)
    (hkind : isExpressionKind c.kind = true) (start stop : Nat) :
    c.Enclosed (c.bracketed start stop) := by
  refine ⟨hnamed, hkind, rfl, rfl, rfl, [token "(" start (start + 1)], [token ")" (stop - 1) stop],
    rfl, ?_, ?_⟩
  · simp [token, isPart, head]
  · simp [token, isPart, head]

/-- The conjunction `a&&b`, its second operand given. -/
def conjunctionWith (right : Concrete) : Concrete :=
  .node ⟨"binary_expression", 11, 17, true, none, false, false⟩
    [.node ⟨"identifier", 11, 12, true, some "left", false, false⟩ [],
      .node ⟨"&&", 12, 14, false, some "operator", false, false⟩ [], right]

def rightOperand : Concrete := .node ⟨"identifier", 15, 16, true, some "right", false, false⟩ []

def blockComment : Concrete := .node ⟨"comment", 6, 10, true, none, false, false⟩ []

def returnOf (below : List Concrete) : Concrete :=
  .node ⟨"return_statement", 0, 18, true, none, false, false⟩ (token "return" 0 6 :: below)

/-- The statement of `return/**/(a&&(b))` without its comment and its parentheses. -/
def plainReturn : Concrete := returnOf [conjunctionWith rightOperand]

/-- The statement of `return/**/(a&&(b))`. -/
def dressedReturn : Concrete :=
  returnOf [blockComment, (conjunctionWith (rightOperand.bracketed 14 17)).bracketed 10 18]

theorem dressings_return : ReflTransGen Dressing plainReturn dressedReturn := by
  have hright : (conjunctionWith rightOperand).Dressing
      (conjunctionWith (rightOperand.bracketed 14 17)) :=
    @Dressing.parentheses _ [_, _] [] _ _ (.inl ⟨"right", rfl, by decide⟩)
      (enclosed_bracketed rfl (by decide) 14 17)
  have hinside : plainReturn.Dressing (returnOf [conjunctionWith (rightOperand.bracketed 14 17)]) :=
    @Dressing.inside _ [_] [] _ _ hright fun htag => absurd htag.1 (by decide)
  have houtside : (returnOf [conjunctionWith (rightOperand.bracketed 14 17)]).Dressing
      (returnOf [(conjunctionWith (rightOperand.bracketed 14 17)).bracketed 10 18]) :=
    @Dressing.parentheses _ [_] [] _ _ (.inr (by decide)) (enclosed_bracketed rfl (by decide) 10 18)
  have hcomment : Dressing
      (returnOf [(conjunctionWith (rightOperand.bracketed 14 17)).bracketed 10 18])
      dressedReturn :=
    @Dressing.comment _ [_] [_] _ ⟨rfl, rfl⟩ (by simp)
  exact .head hinside (.head houtside (.single hcomment))

/-- An element with a single tag, that of the source `<(a.b)>`. -/
def elementOf (tag : Concrete) : Concrete :=
  .node ⟨"jsx_element", 0, 7, true, none, false, false⟩ [tag]

def memberName : Concrete := .node ⟨"member_expression", 2, 5, true, some "name", false, false⟩ []

/-- A statement in the place of a tag. -/
def statementTag (name : Concrete) : Concrete :=
  .node ⟨"expression_statement", 0, 7, true, some "open_tag", false, false⟩ [name]

end Concrete

/-- Comments and redundant parentheses leave no trace: however many of them are put into a concrete
tree, and at whatever depth, it is converted to the same tree or fails with the same fault. -/
theorem convert_of_dressings {n n' : Concrete} (h : ReflTransGen Concrete.Dressing n n')
    (s : SourceText) : convert s n' = convert s n := by
  induction h with
  | refl => rfl
  | tail _ hstep ih => exact (convert_of_dressing hstep s).trans ih

theorem convert_dressedReturn :
    ReflTransGen Concrete.Dressing .plainReturn .dressedReturn ∧
      convert (.ofString "return/**/(a&&(b))") .dressedReturn =
        convert (.ofString "return/**/(a&&(b))") .plainReturn :=
  ⟨Concrete.dressings_return, convert_of_dressings Concrete.dressings_return _⟩

/-- A tag that is a statement may have its name in parentheses, as any statement may, but not where
it is read as the tag: there the name is no longer a member. -/
theorem convert_statementTag_ne :
    Concrete.Dressing (.statementTag .memberName)
        (.statementTag (Concrete.memberName.bracketed 1 6)) ∧
      convert (.ofString "<(a.b)>")
          (.elementOf (.statementTag (Concrete.memberName.bracketed 1 6))) ≠
        convert (.ofString "<(a.b)>") (.elementOf (.statementTag .memberName)) := by
  constructor
  · exact @Concrete.Dressing.parentheses _ [] [] _ _ (.inr (by decide))
      (Concrete.enclosed_bracketed rfl (by decide) 1 6)
  · intro heq
    have hname := congrArg (fun r : Except Fault (Option Tree) => (r.toOption.bind id).any fun t =>
      ((t.get "openingElement").get "name").isA "JSXMemberExpression") heq
    exact absurd hname (by decide +kernel)

end TopTag
