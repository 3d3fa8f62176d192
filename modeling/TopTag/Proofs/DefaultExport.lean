import TopTag.Proofs.Outline
import TopTag.Proofs.Stamped

/-!
# Functions without a name

A file may export a function by default with a name or without one. With a name the function is
declared, and a component; without one it is an expression, and no component: what it returns is
not marked on its account. So the two forms differ in the elements that the function itself
renders, and in nothing else (`mem_topmostTags_of_nameless`).

The forms are compared by their trees. These agree outside the path from the root to the function,
so everything that is topmost in them is topmost in a piece that they share, or on account of the
function (`Surroundings.topmostApart_iff`).
-/

namespace TopTag

/-! ## Topmost elements -/

section

open Spot

variable {s s' : SourceText} {root root' : Concrete} {t t' : Tree}

/-- Trees of one shape have their topmost elements at the same places. -/
theorem Grown.topmost_of_outline (h : Grown s .file root t) (h' : Grown s' .file root' t')
    (hshape : root'.outline = root.outline) {y' : Spot} (hy' : Topmost (.root t') y') :
    ∃ y, Topmost (.root t) y ∧ y.place = y'.place := by
  have htwin : Twin (fun _ n n' => n'.outline = n.outline) (fun _ => False) s s'
      (.root t) (.root t') :=
    ⟨⟨.file, root, root', .file hshape, h, h'⟩, fun _ => rfl⟩
  have hquiet : ∀ z, Fresh (fun _ => False) s' z → ∀ kind, z.tree.isA kind = true →
      kind ∈ attributeKinds := by
    rintro z ⟨_, ⟨_, hfalse, -⟩, -⟩
    exact hfalse.elim
  obtain ⟨y, hy, hyy⟩ := htwin.topmost Bridge.outline hquiet hy'
  exact ⟨y, hy, hyy.place fun _ => id⟩

/-- The topmost tags are the opening tags of the topmost elements. -/
theorem Grown.mem_topmostTags_iff (h : Grown s .file root t) {k : Nat} {log : List Identity}
    (htaggable : Taggable t k log) {p : Place} : p ∈ t.topmostTags ↔
      ∃ y, Topmost (.root t) y ∧ y.place ++ [.field "openingElement"] = p := by
  have hmarked {x : Spot} (hx : Within (.root t) x) :=
    isMarkedTag_ofLog_iff htaggable.keys htaggable.located "" hx
  rw [htaggable.mem_topmostTags_iff ""]
  constructor
  · rintro ⟨x, hx, hmark, rfl⟩
    obtain ⟨-, y, hy, -, rfl⟩ := (hmarked hx).mp hmark
    exact ⟨y, hy, rfl⟩
  · rintro ⟨y, hy, rfl⟩
    have htag : y.HasTag := (locate_exec (htaggable.located ⟨"", []⟩)).1 y hy
    obtain ⟨role, n, -, hgrown⟩ := h.within hy.within
    rcases hgrown.element hy.isElement with ⟨tag, selfClosing, u, -, hu, hopening⟩ | ⟨-, hnone⟩
    · have htree : (y.get "openingElement").tree = u := by rw [Spot.tree_get, Tree.get, hu]; rfl
      have hchild : Child y (y.get "openingElement") := by
        refine child_get (by decide) ?_
        rw [htree]
        exact hopening.isNode
      refine ⟨_, hy.within.tail hchild,
        (hmarked (hy.within.tail hchild)).mpr ⟨?_, y, hy, htag, rfl⟩,
        rfl⟩
      rw [htree]
      exact hopening.isA_openingElement
    · rw [HasTag, hnone] at htag
      cases htag

end

/-! ## The surroundings of a function -/

/-- A node of some kind with its range and its other fields. -/
def Tree.ranged (kind : String) (range : Nat × Nat) (fields : List (String × Tree)) : Tree :=
  .object (("type", .text kind) :: ("start", .int range.1) :: ("end", .int range.2) :: fields)

/-- What the tree of a file has around the function that it exports by default. -/
structure Surroundings where
  length : Nat
  programRange : Nat × Nat
  exportRange : Nat × Nat
  before : List Tree
  after : List Tree

namespace Surroundings

variable (c : Surroundings)

def statement (function : Tree) : Tree :=
  .ranged "ExportDefaultDeclaration" c.exportRange [("declaration", function)]

def program (statement : Tree) : Tree :=
  .ranged "Program" c.programRange [("body", .list (c.before ++ statement :: c.after))]

def file (function : Tree) : Tree :=
  .ranged "File" (0, c.length) [("program", c.program (c.statement function))]

def statementPlace : Place := [.field "program", .field "body", .item c.before.length]

/-- The function at its place. -/
def spot (function : Tree) : Spot := ⟨c.statementPlace ++ [.field "declaration"], function⟩

end Surroundings

namespace Spot

open Relation

/-- The elements that are topmost on account of an attribute, or of a component other than `f`. -/
inductive TopmostApart (root f : Spot) : Spot → Prop
  | returned {s e x : Spot} (hs : Within root s) (hne : s ≠ f) (he : ReturnSite s e)
      (hx : Renders e x) : TopmostApart root f x
  | given {a e x : Spot} (ha : Within root a) (he : AttributeSite a e) (hx : Embeds e x) :
      TopmostApart root f x

theorem topmost_iff_apart {root f x : Spot} (hf : Within root f) : Topmost root x ↔
    TopmostApart root f x ∨ ∃ e, ReturnSite f e ∧ Renders e x := by
  constructor
  · rintro (⟨hs, he, hx⟩ | ⟨ha, he, hx⟩)
    · rename_i s e
      by_cases hsf : s = f
      · exact .inr ⟨e, hsf ▸ he, hx⟩
      · exact .inl (.returned hs hsf he hx)
    · exact .inl (.given ha he hx)
  · rintro ((⟨hs, -, he, hx⟩ | ⟨ha, he, hx⟩) | ⟨e, he, hx⟩)
    · exact .returned hs he hx
    · exact .given ha he hx
    · exact .returned hf he hx

/-- The place of a node within another begins with the place of that one. -/
theorem Within.place_prefix {x y : Spot} (h : Within x y) : x.place <+: y.place := by
  induction h with
  | refl => exact List.prefix_refl _
  | tail _ hchild ih =>
    obtain ⟨key, hplace | ⟨i, hplace⟩⟩ := hchild.place
    · rw [hplace]
      exact ih.trans (List.prefix_append _ _)
    · rw [hplace]
      exact ih.trans (List.prefix_append _ _)

/-- The children of a node stand in the fields besides its kind and its range. -/
theorem child_ranged_iff {place : Place} {kind : String} {range : Nat × Nat}
    {fields : List (String × Tree)} {x : Spot} : Child ⟨place, .ranged kind range fields⟩ x ↔
      ∃ f ∈ fields, f.1 ∉ metadataKeys ∧ x ∈ fieldNodes place f.1 f.2 := by
  constructor
  · rintro ⟨key, hx⟩
    obtain ⟨value, hmem, hkey, hnode⟩ := exists_field_of_mem_children rfl hx
    exact ⟨(key, value), hmem, hkey, hnode⟩
  · rintro ⟨⟨key, value⟩, hmem, hkey, hnode⟩
    exact ⟨key, mem_children.mpr ⟨_, value, rfl, by simp [hmem], hkey, hnode⟩⟩

theorem isA_ranged {kind kind' : String} {range : Nat × Nat} {fields : List (String × Tree)} :
    (Tree.ranged kind range fields).isA kind' = true ↔ kind = kind' := by
  rw [Tree.isA_iff]
  simp [Tree.ranged, Tree.field?]

/-- Nothing is topmost on account of the spot itself: it is no component and no attribute. -/
def Idle (x : Spot) : Prop := ¬x.tree.IsComponent ∧ x.tree.isA "JSXAttribute" = false

theorem idle_ranged {place : Place} {kind : String} {range : Nat × Nat}
    {fields : List (String × Tree)}
    (hkind : kind ∉ ["FunctionDeclaration", "VariableDeclarator", "JSXAttribute"]) :
    Idle ⟨place, .ranged kind range fields⟩ := by
  simp only [List.mem_cons, List.not_mem_nil, or_false, not_or] at hkind
  refine ⟨?_, ?_⟩
  · rintro (hfun | ⟨hvar, -⟩)
    · exact hkind.1 (isA_ranged.mp hfun)
    · exact hkind.2.1 (isA_ranged.mp hvar)
  · exact Bool.eq_false_iff.mpr fun hattr => hkind.2.2 (isA_ranged.mp hattr)

end Spot

namespace Surroundings

open Spot Relation

variable {c : Surroundings} {kind : String} {range : Nat × Nat} {id : Tree}
  {fields : List (String × Tree)} {x : Spot}

/-- The trees that the forms of a file share: what stands in the function beside its name, and the
other statements. -/
def Piece (c : Surroundings) (fields : List (String × Tree)) (x : Spot) : Prop :=
  Child (c.spot (.ranged "" (0, 0) fields)) x ∨
    Child ⟨[.field "program"], c.program .null⟩ x

theorem child_file_iff (function : Tree) : Child (.root (c.file function)) x ↔
    x = ⟨[.field "program"], c.program (c.statement function)⟩ := by
  rw [Spot.root, file, child_ranged_iff]
  simp [metadataKeys, fieldNodes, program, Tree.ranged, Tree.isNode, Tree.field?]

theorem child_statement_iff {function : Tree} (hnode : function.isNode = true) :
    Child ⟨c.statementPlace, c.statement function⟩ x ↔ x = c.spot function := by
  obtain ⟨all, rfl⟩ := Tree.object_of_isNode hnode
  rw [statement, child_ranged_iff]
  simp [metadataKeys, fieldNodes, hnode, spot]

/-- The nodes of a list are one of its entries and those that are left when it is taken away. -/
theorem mem_fieldNodes_append_cons {place : Place} {key : String} {before after : List Tree}
    {v : Tree} (hv : v.isNode = true) :
    x ∈ fieldNodes place key (.list (before ++ v :: after)) ↔
      x = ⟨place ++ [.field key, .item before.length], v⟩ ∨
        x ∈ fieldNodes place key (.list (before ++ .null :: after)) := by
  have hother {i : Nat} (hi : i ≠ before.length) :
      (before ++ v :: after)[i]? = (before ++ .null :: after)[i]? := by
    rcases Nat.lt_or_gt_of_ne hi with hlt | hgt
    · rw [List.getElem?_append_left hlt, List.getElem?_append_left hlt]
    · obtain ⟨k, rfl⟩ := Nat.exists_eq_add_of_lt hgt
      rw [List.getElem?_append_right (by omega), List.getElem?_append_right (by omega),
        show before.length + k + 1 - before.length = k + 1 by omega, List.getElem?_cons_succ,
        List.getElem?_cons_succ]
  rw [mem_fieldNodes, mem_fieldNodes]
  constructor
  · rintro ⟨hnode, rfl | ⟨items, i, hlist, hi, hplace⟩⟩
    · cases hnode
    · obtain rfl := Tree.list.inj hlist
      by_cases heq : i = before.length
      · subst heq
        left
        have htree : x.tree = v := by simpa using hi.symm
        obtain ⟨xplace, xtree⟩ := x
        rw [Spot.mk.injEq]
        exact ⟨hplace, htree⟩
      · exact .inr ⟨hnode, .inr ⟨_, i, rfl, hother heq ▸ hi, hplace⟩⟩
  · rintro (rfl | ⟨hnode, rfl | ⟨items, i, hlist, hi, hplace⟩⟩)
    · exact ⟨hv, .inr ⟨_, _, rfl, by simp, rfl⟩⟩
    · cases hnode
    · obtain rfl := Tree.list.inj hlist
      have heq : i ≠ before.length := by
        rintro rfl
        have htree : x.tree = .null := by simpa using hi.symm
        rw [htree] at hnode
        cases hnode
      exact ⟨hnode, .inr ⟨_, i, rfl, (hother heq).trans hi, hplace⟩⟩

/-- A statement of the program is the export, or stands there also without it. -/
theorem child_program_iff (function : Tree) :
    Child ⟨[.field "program"], c.program (c.statement function)⟩ x ↔
      x = ⟨c.statementPlace, c.statement function⟩ ∨
        Child ⟨[.field "program"], c.program .null⟩ x := by
  have hbody : "body" ∉ metadataKeys := by decide
  simp only [program, child_ranged_iff, List.mem_singleton, exists_eq_left, hbody,
    not_false_eq_true, true_and]
  exact mem_fieldNodes_append_cons rfl

/-- A child of the function is its name, or stands in another field of it. -/
theorem child_function_iff : Child (c.spot (.ranged kind range (("id", id) :: fields))) x ↔
    x ∈ fieldNodes (c.spot id).place "id" id ∨ Child (c.spot (.ranged "" (0, 0) fields)) x := by
  have hid : "id" ∉ metadataKeys := by decide
  simp only [spot, child_ranged_iff, List.exists_mem_cons_iff, hid, not_false_eq_true, true_and]

/-- Where a node of the file stands. -/
theorem within_file_iff : Within (.root (c.file (.ranged kind range (("id", id) :: fields)))) x ↔
    x = .root (c.file (.ranged kind range (("id", id) :: fields))) ∨
    x = ⟨[.field "program"], c.program (c.statement (.ranged kind range (("id", id) :: fields)))⟩ ∨
    x = ⟨c.statementPlace, c.statement (.ranged kind range (("id", id) :: fields))⟩ ∨
    x = c.spot (.ranged kind range (("id", id) :: fields)) ∨
    (∃ y ∈ fieldNodes (c.spot id).place "id" id, Within y x) ∨
    ∃ y, c.Piece fields y ∧ Within y x := by
  have hhead {y : Spot} : Within y x ↔ x = y ∨ ∃ z, Child y z ∧ Within z x := by
    rw [Within, ReflTransGen.cases_head_iff]
    exact or_congr_left eq_comm
  rw [hhead]
  refine or_congr_right ?_
  simp only [child_file_iff, exists_eq_left]
  rw [hhead]
  refine or_congr_right ?_
  simp only [child_program_iff, or_and_right, exists_or, exists_eq_left]
  rw [hhead]
  simp only [child_statement_iff (show (Tree.ranged kind range _).isNode = true from rfl),
    exists_eq_left]
  rw [hhead (y := c.spot _)]
  simp only [child_function_iff, Piece, or_and_right, exists_or, or_assoc]

theorem within_spot (c : Surroundings) (kind : String) (range : Nat × Nat) (id : Tree)
    (fields : List (String × Tree)) :
    Within (.root (c.file (.ranged kind range (("id", id) :: fields))))
      (c.spot (.ranged kind range (("id", id) :: fields))) :=
  within_file_iff.mpr (.inr (.inr (.inr (.inl rfl))))

/-- The function stands in none of the pieces. -/
theorem Piece.not_within {function : Tree} (h : c.Piece fields x) :
    ¬Within x (c.spot function) := by
  intro hwithin
  have hprefix : x.place <+: [.field "program", .field "body", .item c.before.length,
    .field "declaration"] := hwithin.place_prefix
  rcases h with hinner | hother
  · obtain ⟨key, hplace | ⟨i, hplace⟩⟩ := hinner.place
    · have hlength := hprefix.length_le
      simp [hplace, spot, statementPlace] at hlength
    · have hlength := hprefix.length_le
      simp [hplace, spot, statementPlace] at hlength
  · simp only [program, child_ranged_iff, List.mem_singleton, exists_eq_left, mem_fieldNodes]
      at hother
    obtain ⟨-, hnode, rfl | ⟨items, i, hlist, hi, hplace⟩⟩ := hother
    · cases hnode
    · obtain rfl := Tree.list.inj hlist
      have hindex : i = c.before.length := by simpa [hplace] using hprefix
      subst hindex
      have htree : x.tree = .null := by simpa using hi.symm
      rw [htree] at hnode
      cases hnode

/-- Apart from the function, the pieces account for everything that is topmost. -/
theorem topmostApart_iff (hkind : kind ≠ "JSXAttribute")
    (hid : ∀ y ∈ fieldNodes (c.spot id).place "id" id, ∀ z, Within y z → Idle z) :
    TopmostApart (.root (c.file (.ranged kind range (("id", id) :: fields))))
      (c.spot (.ranged kind range (("id", id) :: fields))) x ↔
        ∃ y, c.Piece fields y ∧ Topmost y x := by
  have hpiece {z : Spot}
      (hz : Within (.root (c.file (.ranged kind range (("id", id) :: fields)))) z)
      (hbusy : ¬Idle z) (hne : z ≠ c.spot (.ranged kind range (("id", id) :: fields))) :
      ∃ y, c.Piece fields y ∧ Within y z := by
    rcases within_file_iff.mp hz with rfl | rfl | rfl | rfl | ⟨y, hy, hyz⟩ | hpiece
    · exact absurd (idle_ranged (by decide)) hbusy
    · exact absurd (idle_ranged (by decide)) hbusy
    · exact absurd (idle_ranged (by decide)) hbusy
    · exact absurd rfl hne
    · exact absurd (hid y hy z hyz) hbusy
    · exact hpiece
  have hwithin {y z : Spot} (hy : c.Piece fields y) (hyz : Within y z) :
      Within (.root (c.file (.ranged kind range (("id", id) :: fields)))) z :=
    within_file_iff.mpr (.inr (.inr (.inr (.inr (.inr ⟨y, hy, hyz⟩)))))
  constructor
  · rintro (⟨hs, hne, he, hx⟩ | ⟨ha, he, hx⟩)
    · obtain ⟨y, hy, hys⟩ := hpiece hs (fun hidle => hidle.1 he.1) hne
      exact ⟨y, hy, .returned hys he hx⟩
    · have hattr := he.1
      obtain ⟨y, hy, hya⟩ :=
        hpiece ha (fun hidle => Bool.false_ne_true (hidle.2.symm.trans hattr)) <| by
          rintro rfl
          exact hkind (isA_ranged.mp hattr)
      exact ⟨y, hy, .given hya he hx⟩
  · rintro ⟨y, hy, ⟨hs, he, hx⟩ | ⟨ha, he, hx⟩⟩
    · refine .returned (hwithin hy hs) ?_ he hx
      rintro rfl
      exact hy.not_within hs
    · exact .given (hwithin hy ha) he hx

/-- A function that is an expression counts for nothing, and so it is as if the declared one did
not count. -/
theorem topmost_expression_iff
    (hid : ∀ y ∈ fieldNodes (c.spot id).place "id" id, ∀ z, Within y z → Idle z) :
    Topmost (.root (c.file (.ranged "FunctionExpression" range (("id", .null) :: fields)))) x ↔
      TopmostApart (.root (c.file (.ranged "FunctionDeclaration" range (("id", id) :: fields))))
        (c.spot (.ranged "FunctionDeclaration" range (("id", id) :: fields))) x := by
  have hidle : Idle (c.spot (.ranged "FunctionExpression" range (("id", .null) :: fields))) :=
    idle_ranged (by decide)
  have hnone : ¬∃ e, ReturnSite
      (c.spot (.ranged "FunctionExpression" range (("id", .null) :: fields))) e ∧ Renders e x :=
    fun ⟨_, hsite, _⟩ => hidle.1 hsite.1
  rw [topmost_iff_apart (within_spot c _ _ _ _), or_iff_left hnone,
    topmostApart_iff (by decide) (by simp [fieldNodes]), topmostApart_iff (by decide) hid]

end Surroundings

/-! ## The two forms -/

section

variable {s : SourceText} {role : Role} {n : Concrete} {r : Recipe} {t : Tree}

theorem grown_iff_ranged (hr : recipe s role n = some r) (hrole : role ≠ .file) :
    Grown s role n t ↔ ∃ range : Nat × Nat, s.charOffset n.head.start = .ok range.1 ∧
      s.charOffset n.head.stop = .ok range.2 ∧
      ∃ fields, GrownFields s r.fields fields ∧ t = .ranged r.kind range fields := by
  constructor
  · intro h
    obtain ⟨_, start, stop, fields, hr', hextends, hfields, rfl⟩ := h.exists_recipe
    cases hr'.symm.trans hr
    cases role with
    | file => exact absurd rfl hrole
    | _ => exact ⟨(start, stop), hextends.1, hextends.2, fields, hfields, rfl⟩
  · rintro ⟨range, hstart, hstop, fields, hfields, rfl⟩
    refine .node hr ?_ hfields
    cases role with
    | file => exact absurd rfl hrole
    | _ => exact ⟨hstart, hstop⟩

theorem grownItems_append_iff {nodes nodes' : List (Role × Concrete)} {items : List Tree} :
    GrownItems s (nodes ++ nodes') items ↔ ∃ first rest, GrownItems s nodes first ∧
      GrownItems s nodes' rest ∧ items = first ++ rest := by
  induction nodes generalizing items with
  | nil => simp [grownItems_nil_iff]
  | cons p nodes ih =>
    obtain ⟨role, n⟩ := p
    rw [List.cons_append, grownItems_cons_iff]
    simp only [ih, grownItems_cons_iff]
    constructor
    · rintro ⟨t, ht, _, ⟨first, rest, hfirst, hrest, rfl⟩, rfl⟩
      exact ⟨t :: first, rest, ⟨t, ht, first, hfirst, rfl⟩, hrest, rfl⟩
    · rintro ⟨_, rest, ⟨t, ht, first, hfirst, rfl⟩, hrest, rfl⟩
      exact ⟨t, ht, _, ⟨first, rest, hfirst, hrest, rfl⟩, rfl⟩

end

/-- A program that exports a function by default: the statements around the export, what stands
around the function in it, and what stands around the place for a name in the function. -/
structure DefaultExport where
  programHead : Concrete.Head
  exportHead : Concrete.Head
  functionHead : Concrete.Head
  before : List Concrete
  after : List Concrete
  lead : List Concrete
  trail : List Concrete
  front : List Concrete
  rest : List Concrete
  isDefault : ∃ c ∈ lead ++ trail, c.kind = "default"
  sole : ∀ c ∈ lead ++ trail, c.head.field ≠ some "declaration" ∧ c.head.field ≠ some "value"
  nameless : ∀ c ∈ front ++ rest, c.head.field ≠ some "name"

namespace DefaultExport

variable (d : DefaultExport)

def function (kind field : String) (names : List Concrete) : Concrete :=
  .node { d.functionHead with kind := kind, field := some field } (d.front ++ (names ++ d.rest))

def statement (function : Concrete) : Concrete :=
  .node { d.exportHead with kind := "export_statement", named := true }
    (d.lead ++ function :: d.trail)

def program (function : Concrete) : Concrete :=
  .node { d.programHead with kind := "program" } (d.before ++ d.statement function :: d.after)

/-- The function is declared, with a name. -/
def named (name : Concrete) : Concrete :=
  d.program (d.function "function_declaration" "declaration" [name])

/-- The same function is an expression, without a name. -/
def unnamed : Concrete := d.program (d.function "function_expression" "value" [])

variable {d} {s : SourceText} {f : Concrete}

theorem exported_statement
    (hf : f.head.field = some "declaration" ∨ f.head.field = some "value") :
    (Convert.exported (d.statement f)).1 = some f := by
  have hchild {field : String} (hfield : ∀ c ∈ d.lead ++ d.trail, c.head.field ≠ some field) :
      (d.statement f).child? field = if f.head.field = some field then some f else none := by
    have hlead : d.lead.find? (fun c => c.head.field == some field) = none :=
      List.find?_eq_none.mpr fun c hc => by simpa using hfield c (List.mem_append_left _ hc)
    have htrail : d.trail.find? (fun c => c.head.field == some field) = none :=
      List.find?_eq_none.mpr fun c hc => by simpa using hfield c (List.mem_append_right _ hc)
    rw [Concrete.child?, statement, Concrete.children, List.find?_append, hlead, Option.none_or,
      List.find?_cons, htrail]
    by_cases hf : f.head.field = some field
    · simp [hf]
    · rw [beq_eq_false_iff_ne.mpr hf, if_neg hf]
  rw [Convert.exported, hchild fun c hc => (d.sole c hc).1, hchild fun c hc => (d.sole c hc).2]
  rcases hf with hf | hf
  · simp [hf]
  · simp [hf]

theorem recipe_statement
    (hf : f.head.field = some "declaration" ∨ f.head.field = some "value") :
    recipe s .expression (d.statement f) =
      some ⟨"ExportDefaultDeclaration", [("declaration", .expression (some f))]⟩ := by
  have hkind : (d.statement f).kind = "export_statement" := rfl
  have hdefault : ((d.statement f).children.any fun c => c.kind == "default") = true := by
    obtain ⟨c, hc, hdefault⟩ := d.isDefault
    have hmem : c ∈ d.lead ++ f :: d.trail := by
      rcases List.mem_append.mp hc with hc | hc
      · exact List.mem_append_left _ hc
      · exact List.mem_append_right _ (List.mem_cons_of_mem _ hc)
    exact List.any_eq_true.mpr ⟨c, hmem, by simp [hdefault]⟩
  simp only [recipe, Recipe.expression, hkind, Recipe.exportStatement, hdefault, ↓reduceIte,
    exported_statement hf]

/-- The fields of a function besides its name do not depend on the form. -/
theorem child?_function {kind field : String} {names : List Concrete}
    (hnames : ∀ c ∈ names, c.head.field = some "name") {key : String} (hkey : key ≠ "name") :
    (d.function kind field names).child? key = (d.function "" "" []).child? key := by
  have hnone : names.find? (fun c => c.head.field == some key) = none := by
    refine List.find?_eq_none.mpr fun c hc => ?_
    rw [hnames c hc]
    simpa using hkey.symm
  rw [Concrete.child?, Concrete.child?, function, function, Concrete.children, Concrete.children,
    List.find?_append, List.find?_append, List.find?_append, hnone, Option.none_or, List.nil_append]

theorem child?_name {kind field : String} {names : List Concrete}
    (hnames : ∀ c ∈ names, c.head.field = some "name") :
    (d.function kind field names).child? "name" = names.head? := by
  have hfront : d.front.find? (fun c => c.head.field == some "name") = none :=
    List.find?_eq_none.mpr fun c hc => by simpa using d.nameless c (List.mem_append_left _ hc)
  have hrest : d.rest.find? (fun c => c.head.field == some "name") = none :=
    List.find?_eq_none.mpr fun c hc => by simpa using d.nameless c (List.mem_append_right _ hc)
  rw [Concrete.child?, function, Concrete.children, List.find?_append, hfront, Option.none_or,
    List.find?_append, hrest, Option.or_none]
  cases names with
  | nil => rfl
  | cons name more => simp [hnames name List.mem_cons_self]

theorem parameters_function {kind field : String} {names : List Concrete}
    (hnames : ∀ c ∈ names, c.head.field = some "name") :
    Recipe.parameters (d.function kind field names) = Recipe.parameters (d.function "" "" []) := by
  rw [Recipe.parameters, Recipe.parameters, child?_function hnames (by decide),
    child?_function hnames (by decide)]

/-- The nodes that the statements among some children become. -/
def items (cs : List Concrete) : List (Role × Concrete) :=
  ((cs.filter fun c => c.head.named && c.kind != "comment").filterMap Concrete.core).map
    fun c => (.expression, c)

/-- The trees around the function are grown from the nodes around it. -/
structure Surrounds (d : DefaultExport) (s : SourceText) (c : Surroundings) : Prop where
  length : c.length = s.text.length
  programStart : s.charOffset d.programHead.start = .ok c.programRange.1
  programStop : s.charOffset d.programHead.stop = .ok c.programRange.2
  exportStart : s.charOffset d.exportHead.start = .ok c.exportRange.1
  exportStop : s.charOffset d.exportHead.stop = .ok c.exportRange.2
  before : GrownItems s (items d.before) c.before
  after : GrownItems s (items d.after) c.after

variable {t : Tree}

theorem grown_statement_iff (hf : f.head.field = some "declaration" ∨ f.head.field = some "value")
    (hcore : f.kind ≠ "parenthesized_expression") : Grown s .expression (d.statement f) t ↔
      ∃ range : Nat × Nat, s.charOffset d.exportHead.start = .ok range.1 ∧
        s.charOffset d.exportHead.stop = .ok range.2 ∧ ∃ v, Grown s .expression f v ∧
          t = .ranged "ExportDefaultDeclaration" range [("declaration", v)] := by
  rw [grown_iff_ranged (recipe_statement hf) (by decide)]
  simp only [exists_grownFields_cons, exists_grownFields_nil, Part.expression, Option.bind_some,
    Concrete.core_of_other hcore, Part.ofOption, grownPart_one_iff]
  rfl

/-- The tree of the file is that of the function with the trees around it. -/
theorem grown_program_iff (hf : f.head.field = some "declaration" ∨ f.head.field = some "value")
    (hcore : f.kind ≠ "parenthesized_expression") : Grown s .file (d.program f) t ↔
      ∃ c v, d.Surrounds s c ∧ Grown s .expression f v ∧ t = c.file v := by
  have hitems : (Part.expressions (d.program f).parts) =
      .many (items d.before ++ (.expression, d.statement f) :: items d.after) := by
    have hpart : ((d.statement f).head.named && (d.statement f).kind != "comment") = true := rfl
    have hself : (d.statement f).core = some (d.statement f) :=
      Concrete.core_of_other (show "export_statement" ≠ "parenthesized_expression" by decide)
    rw [Part.expressions, Concrete.parts, program, Concrete.children, List.filter_append,
      List.filter_cons, if_pos hpart, List.filterMap_append, List.filterMap_cons_some hself,
      List.map_append, List.map_cons, items, items]
  have hroot : recipe s .expression (d.program f) = some ⟨"Program", [("body", .many
      (items d.before ++ (.expression, d.statement f) :: items d.after))]⟩ := by
    rw [← hitems]
    rfl
  have hself : (d.program f).core = some (d.program f) :=
    Concrete.core_of_other (show "program" ≠ "parenthesized_expression" by decide)
  have hprogram (v : Tree) :=
    grown_iff_ranged (t := v) hroot (show Role.expression ≠ .file by decide)
  simp only [exists_grownFields_cons, exists_grownFields_nil, grownPart_many_iff,
    grownItems_append_iff, grownItems_cons_iff, grown_statement_iff hf hcore] at hprogram
  constructor
  · intro h
    obtain ⟨_, start, stop, fields, hr, ⟨rfl, rfl⟩, hfields, rfl⟩ := h.exists_recipe
    cases hr
    rw [Part.expression, Option.bind_some, hself, Part.ofOption] at hfields
    cases hfields with
    | cons hvalue hrest =>
      cases hrest
      obtain ⟨range, hstart, hstop, _, ⟨_, ⟨before, _, hbefore,
        ⟨_, ⟨erange, hestart, hestop, v, hv, rfl⟩, after, hafter, rfl⟩, rfl⟩, rfl⟩, rfl⟩ :=
          (hprogram _).mp (grownPart_one_iff.mp hvalue)
      exact ⟨⟨s.text.length, range, erange, before, after⟩, v,
        ⟨rfl, hstart, hstop, hestart, hestop, hbefore, hafter⟩, hv, rfl⟩
  · rintro ⟨c, v, hc, hv, rfl⟩
    have hgrown : Grown s .expression (d.program f) (c.program (c.statement v)) :=
      (hprogram _).mpr ⟨c.programRange, hc.programStart, hc.programStop, _,
        ⟨_, ⟨c.before, _, hc.before,
        ⟨_, ⟨c.exportRange, hc.exportStart, hc.exportStop, v, hv, rfl⟩, c.after, hc.after, rfl⟩,
        rfl⟩, rfl⟩, rfl⟩
    have hfields : GrownFields s [("program", Part.expression (some (d.program f)))]
        [("program", c.program (c.statement v))] := by
      rw [Part.expression, Option.bind_some, hself, Part.ofOption]
      exact .cons (.one hgrown) .nil
    rw [Surroundings.file, hc.length, Tree.ranged]
    exact .node (r := ⟨"File", _⟩) rfl ⟨rfl, rfl⟩ hfields

/-- The parameters and the body of the function, in whichever form. -/
def parts (d : DefaultExport) : List (String × Part) :=
  [("params", .expressions (Recipe.parameters (d.function "" "" []))),
    ("body", .expression ((d.function "" "" []).child? "body"))]

theorem grown_function_iff {kind field made : String} {names : List Concrete}
    (hnames : ∀ c ∈ names, c.head.field = some "name")
    (hr : recipe s .expression (d.function kind field names) =
      some (.function (d.function kind field names) made)) :
    Grown s .expression (d.function kind field names) t ↔ ∃ range : Nat × Nat,
      s.charOffset d.functionHead.start = .ok range.1 ∧
      s.charOffset d.functionHead.stop = .ok range.2 ∧ ∃ id fields,
        GrownPart s (.expression names.head?) id ∧ GrownFields s d.parts fields ∧
        t = .ranged made range (("id", id) :: fields) := by
  have hparts : (Recipe.function (d.function kind field names) made).fields =
      ("id", .expression names.head?) :: d.parts := by
    rw [Recipe.function, child?_name hnames, parameters_function hnames,
      child?_function hnames (by decide), parts]
  rw [grown_iff_ranged hr (by decide), hparts]
  simp only [exists_grownFields_cons, exists_and_left]
  rfl

/-- A name is a leaf, and nothing is topmost on its account. -/
theorem idle_of_name {name : Concrete} (hname : name.kind = "identifier") {id : Tree}
    (hid : GrownPart s (.expression (some name)) id) {place : Place} {y z : Spot}
    (hy : y ∈ fieldNodes place "id" id) (hz : Spot.Within y z) : z.Idle := by
  have hcore : name.core = some name := Concrete.core_of_other (by rw [hname]; decide)
  have hr : recipe s .expression name = some (.leaf s name "Identifier" "name") := by
    simp only [recipe, Recipe.expression, hname]
  rw [Part.expression, Option.bind_some, hcore, Part.ofOption, grownPart_one_iff,
    grown_iff_ranged hr (by decide)] at hid
  obtain ⟨range, -, -, fields, hfields, rfl⟩ := hid
  cases hfields with
  | cons hvalue hrest =>
    cases hvalue
    cases hrest
    obtain ⟨-, rfl | ⟨items, _, hlist, -⟩⟩ := mem_fieldNodes.mp hy
    · rcases hz.cases_head with rfl | ⟨x, hx, -⟩
      · exact Spot.idle_ranged (show "Identifier" ∉ _ by decide)
      · obtain ⟨f, hf, -, hnode⟩ := Spot.child_ranged_iff.mp hx
        rw [List.mem_singleton.mp hf] at hnode
        cases hnode
    · cases hlist

theorem length_of_grownItems {nodes : List (Role × Concrete)} {trees : List Tree}
    (h : GrownItems s nodes trees) : trees.length = nodes.length := by
  induction nodes generalizing trees with
  | nil =>
    cases h
    rfl
  | cons p rest ih =>
    cases h with
    | cons _ hrest => rw [List.length_cons, List.length_cons, ih hrest]

/-- The tree of the one form gives the tree of the other. -/
theorem exists_forms {name : Concrete} (hname : name.kind = "identifier")
    (hfield : name.head.field = some "name") (h : Grown s .file (d.named name) t) :
    ∃ c range id fields,
      c.before.length = (items d.before).length ∧
      t = Surroundings.file c (.ranged "FunctionDeclaration" range (("id", id) :: fields)) ∧
      Grown s .file d.unnamed
        (Surroundings.file c (.ranged "FunctionExpression" range (("id", .null) :: fields))) ∧
      ∀ y ∈ fieldNodes (c.spot id).place "id" id, ∀ z, Spot.Within y z → z.Idle := by
  have hdeclared : (d.function "function_declaration" "declaration" [name]).kind ≠
      "parenthesized_expression" := show "function_declaration" ≠ _ by decide
  have hexpressed : (d.function "function_expression" "value" []).kind ≠
      "parenthesized_expression" := show "function_expression" ≠ _ by decide
  obtain ⟨c, v, hc, hv, rfl⟩ := (grown_program_iff (.inl rfl) hdeclared).mp h
  obtain ⟨range, hstart, hstop, id, fields, hid, hfields, rfl⟩ :=
    (grown_function_iff (by simpa using hfield) rfl).mp hv
  refine ⟨c, range, id, fields, length_of_grownItems hc.before, rfl, ?_,
    fun y hy z hz => idle_of_name hname hid hy hz⟩
  refine (grown_program_iff (.inr rfl) hexpressed).mpr ⟨c, _, hc, ?_, rfl⟩
  exact (grown_function_iff (by simp) rfl).mpr
    ⟨range, hstart, hstop, .null, fields, .null, hfields, rfl⟩

/-- Where the tree of the file has the function. -/
def functionPlace (d : DefaultExport) : Place :=
  [.field "program", .field "body", .item (items d.before).length, .field "declaration"]

end DefaultExport

open Spot in
/-- With a name, the function that a file exports by default is a component. Without one, in any
text, exactly those tags are topmost that are so on account of something else, and what the function
itself renders is left out. -/
theorem mem_topmostTags_of_nameless (d : DefaultExport) (name : Concrete)
    (hname : name.kind = "identifier") (hfield : name.head.field = some "name") (root' : Concrete)
    (hshape : root'.outline = d.unnamed.outline) (call : TagCall) (henabled : call.enabled = true)
    (source source' output output' : String)
    (htag : (tagConcrete source (d.named name) call.path call.settings).result = .ok output)
    (htag' : (tagConcrete source' root' call.path call.settings).result = .ok output') :
    ∃ t t' f, fileOfConcrete source (d.named name) = .ok t ∧ fileOfConcrete source' root' = .ok t' ∧
      Within (.root t) f ∧ f.place = d.functionPlace ∧ f.tree.isA "FunctionDeclaration" = true ∧
      (∀ p, p ∈ t'.topmostTags ↔ ∃ x, TopmostApart (.root t) f x ∧
        x.place ++ [.field "openingElement"] = p) ∧
      ∀ p, p ∈ t.topmostTags ↔ p ∈ t'.topmostTags ∨
        ∃ e x, ReturnSite f e ∧ Renders e x ∧ x.place ++ [.field "openingElement"] = p := by
  obtain ⟨t, trace, count, log, htraced, -⟩ := exists_traced henabled htag
  obtain ⟨t', trace', count', log', htraced', -⟩ := exists_traced henabled htag'
  obtain ⟨c, range, id, fields, hlength, rfl, hform, hid⟩ :=
    DefaultExport.exists_forms hname hfield htraced.grown
  have hf := Surroundings.within_spot c "FunctionDeclaration" range id fields
  -- the tree of the form without a name, at the offsets of the form with one, is between the two
  have hnameless (p : Place) : p ∈ t'.topmostTags ↔ ∃ x, TopmostApart
      (.root (c.file (.ranged "FunctionDeclaration" range (("id", id) :: fields))))
      (c.spot (.ranged "FunctionDeclaration" range (("id", id) :: fields))) x ∧
        x.place ++ [.field "openingElement"] = p := by
    rw [htraced'.grown.mem_topmostTags_iff htraced'.taggable]
    simp only [← Surroundings.topmost_expression_iff hid]
    constructor
    · rintro ⟨x', hx', rfl⟩
      obtain ⟨x, hx, hplace⟩ := hform.topmost_of_outline htraced'.grown hshape hx'
      exact ⟨x, hx, by rw [hplace]⟩
    · rintro ⟨x, hx, rfl⟩
      obtain ⟨x', hx', hplace⟩ := htraced'.grown.topmost_of_outline hform hshape.symm hx
      exact ⟨x', hx', by rw [hplace]⟩
  refine ⟨_, t', _, htraced.file, htraced'.file, hf, ?_, isA_ranged.mpr rfl, hnameless, fun p => ?_⟩
  · rw [DefaultExport.functionPlace, ← hlength]
    rfl
  · rw [htraced.grown.mem_topmostTags_iff htraced.taggable, hnameless]
    simp only [topmost_iff_apart hf, or_and_right, exists_or]
    refine or_congr_right ⟨?_, ?_⟩
    · rintro ⟨x, ⟨e, he, hx⟩, hp⟩
      exact ⟨e, x, he, hx, hp⟩
    · rintro ⟨e, x, he, hx, hp⟩
      exact ⟨x, ⟨e, he, hx⟩, hp⟩

/-- A function that returns an element with another in its attribute, exported by default. From the
parameters on everything stands `k` characters further right. -/
def nestedExport (k : Nat) : DefaultExport where
  programHead := ⟨"program", 0, 54 + k, true, none, false, false⟩
  exportHead := ⟨"export_statement", 0, 54 + k, true, none, false, false⟩
  functionHead := ⟨"function_declaration", 15, 54 + k, true, none, false, false⟩
  before := []
  after := []
  lead := [.node ⟨"export", 0, 6, false, none, false, false⟩ [],
    .node ⟨"default", 7, 14, false, none, false, false⟩ []]
  trail := []
  front := [.node ⟨"function", 15, 23, false, none, false, false⟩ []]
  rest :=
    [.node ⟨"formal_parameters", 24 + k, 26 + k, true, some "parameters", false, false⟩ [],
      .node ⟨"statement_block", 27 + k, 54 + k, true, some "body", false, false⟩
        [.node ⟨"return_statement", 29 + k, 52 + k, true, none, false, false⟩
          [.node ⟨"jsx_self_closing_element", 36 + k, 51 + k, true, none, false, false⟩
            [.node ⟨"identifier", 37 + k, 38 + k, true, some "name", false, false⟩ [],
              .node ⟨"jsx_attribute", 39 + k, 48 + k, true, some "attribute", false, false⟩
                [.node ⟨"property_identifier", 39 + k, 40 + k, true, none, false, false⟩ [],
                  .node ⟨"jsx_expression", 41 + k, 48 + k, true, none, false, false⟩
                    [.node ⟨"jsx_self_closing_element", 42 + k, 47 + k, true, none, false, false⟩
                      [.node ⟨"identifier", 43 + k, 44 + k, true, some "name", false, false⟩ []]]]]]]]
  isDefault := ⟨_, List.mem_cons_of_mem _ List.mem_cons_self, rfl⟩
  sole := by simp [Concrete.head]
  nameless := by simp [Concrete.head]

def nestedExportName : Concrete := .node ⟨"identifier", 24, 25, true, some "name", false, false⟩ []

def namedExportSource : String :=
  "export default function A() \x7b return <a b=\x7b<i />\x7d />; \x7d"

def unnamedExportSource : String :=
  "export default function () \x7b return <a b=\x7b<i />\x7d />; \x7d"

open Spot in
theorem mem_topmostTags_of_nestedExport :
    (nestedExport 0).unnamed.outline = (nestedExport 1).unnamed.outline ∧
    ∃ t t' f, fileOfConcrete namedExportSource ((nestedExport 1).named nestedExportName) = .ok t ∧
      fileOfConcrete unnamedExportSource (nestedExport 0).unnamed = .ok t' ∧
      Within (.root t) f ∧ f.tree.isA "FunctionDeclaration" = true ∧
      t.topmostTags.length = 2 ∧ t'.topmostTags.length = 1 ∧
      (∀ p, p ∈ t'.topmostTags ↔ ∃ x, TopmostApart (.root t) f x ∧
        x.place ++ [.field "openingElement"] = p) ∧
      ∀ p, p ∈ t.topmostTags ↔ p ∈ t'.topmostTags ∨
        ∃ e x, ReturnSite f e ∧ Renders e x ∧ x.place ++ [.field "openingElement"] = p := by
  have hok : (tagConcrete namedExportSource ((nestedExport 1).named nestedExportName)
      choiceCall.path choiceCall.settings).result.isOk = true := by decide +kernel
  have hok' : (tagConcrete unnamedExportSource (nestedExport 0).unnamed
      choiceCall.path choiceCall.settings).result.isOk = true := by decide +kernel
  have hcount : (fileOfConcrete namedExportSource
      ((nestedExport 1).named nestedExportName)).toOption.map (·.topmostTags.length) = some 2 := by
    decide +kernel
  have hcount' : (fileOfConcrete unnamedExportSource
      (nestedExport 0).unnamed).toOption.map (·.topmostTags.length) = some 1 := by decide +kernel
  cases htag : (tagConcrete namedExportSource ((nestedExport 1).named nestedExportName)
      choiceCall.path choiceCall.settings).result with
  | error e =>
    rw [htag] at hok
    cases hok
  | ok output =>
    cases htag' : (tagConcrete unnamedExportSource (nestedExport 0).unnamed
        choiceCall.path choiceCall.settings).result with
    | error e =>
      rw [htag'] at hok'
      cases hok'
    | ok output' =>
      obtain ⟨t, t', f, ht, ht', hf, -, hkind, hrest⟩ :=
        mem_topmostTags_of_nameless (nestedExport 1) nestedExportName rfl rfl
          (nestedExport 0).unnamed rfl choiceCall rfl _ _ output output' htag htag'
      rw [ht] at hcount
      rw [ht'] at hcount'
      exact ⟨rfl, t, t', f, ht, ht', hf, hkind, Option.some.inj hcount, Option.some.inj hcount',
        hrest⟩

/-- The two forms do not mark the same tags: without a name the element that the function returns is
passed over, and only the one in its attribute is tagged. -/
theorem topmostTags_of_forms_ne :
    (nestedExport 0).unnamed.outline = (nestedExport 1).unnamed.outline ∧
    (fileOfConcrete namedExportSource ((nestedExport 1).named nestedExportName)).toOption.map
      Tree.topmostTags ≠ (fileOfConcrete unnamedExportSource (nestedExport 0).unnamed).toOption.map
        Tree.topmostTags ∧
    (tagConcrete unnamedExportSource (nestedExport 0).unnamed (plainCall "__file-path").path
      (plainCall "__file-path").settings).result.toOption = some
        "export default function () \x7b return <a b=\x7b<i __file-path=\"src/A.tsx\" />\x7d />; \x7d" :=
  ⟨rfl, by decide +kernel, by decide +kernel⟩

end TopTag
