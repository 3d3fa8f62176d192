import TopTag.Proofs.Anatomy

/-!
# What a recipe takes

A recipe names the concrete nodes that its fields come from, its *sources*. All of them lie in the
range of the node whose recipe it is (`Recipe.liesIn`). Names, closing tags and what is empty have
no opening tags in them; the other sources are apart from one another, and those that are taken for
opening tags are tags (`Recipe.tidy`).
-/

namespace TopTag

namespace Concrete

namespace Nested

variable {n c m : Concrete}

theorem inside_part (h : n.Nested) (hc : c ∈ n.parts) : n.Inside c := h.inside (mem_of_mem_parts hc)

theorem inside_child? (h : n.Nested) {key : String} (hc : c ∈ n.child? key) : n.Inside c :=
  h.inside (child?_eq_some hc).1

/-- What stands inside parentheses lies in their range. -/
theorem inside_core (h : n.Nested) (hm : n.core = some m) : n.Inside m := by
  induction hheight : n.height using Nat.strongRecOn generalizing n with
  | ind height ih =>
    by_cases hkind : n.kind = "parenthesized_expression"
    · rw [core_of_parenthesized hkind] at hm
      obtain ⟨c, hhead, hm⟩ := Option.bind_eq_some_iff.mp hm
      have hc : c ∈ n.children := mem_of_mem_parts (List.mem_of_head? hhead)
      have hlt : c.height < height := hheight ▸ height_lt_of_mem_children hc
      exact (h.inside hc).trans (ih c.height hlt (h.of_inside (h.inside hc)) hm rfl)
    · rw [core_of_other hkind] at hm
      obtain rfl := Option.some.inj hm
      exact .refl n

theorem inside_spreadTarget (h : n.Nested) (hc : c ∈ n.parts) :
    n.Inside (Convert.spreadTarget c) := by
  have hinside := h.inside_part hc
  rw [Convert.spreadTarget]
  split
  · cases hhead : c.parts.head? with
    | none => exact hinside
    | some d =>
      have hd : d ∈ c.parts := List.mem_of_head? hhead
      exact hinside.trans ((h.of_inside hinside).inside_part hd)
  · exact hinside

/-- Each parameter of a function lies in it, also those in a list of their own. -/
theorem inside_parameters (h : n.Nested) (hc : c ∈ Recipe.parameters n) : n.Inside c := by
  unfold Recipe.parameters at hc
  split at hc
  · rename_i single hsingle
    obtain rfl := List.mem_singleton.mp hc
    exact h.inside_child? hsingle
  · split at hc
    · rename_i list hlist
      have hinside := h.inside_child? hlist
      exact hinside.trans ((h.of_inside hinside).inside_part hc)
    · cases hc

end Nested

end Concrete

/-! ## Where sources lie -/

namespace Part

/-- The nodes that the value of a field comes from, with their roles. -/
def sources : Part → List (Role × Concrete)
  | .one role n => [(role, n)]
  | .many nodes => nodes
  | _ => []

/-- The value of a field comes from nodes in the range of `n`, and none of them is a file. -/
def LiesIn (n : Concrete) (part : Part) : Prop := ∀ p ∈ part.sources, p.1 ≠ .file ∧ n.Inside p.2

variable {n : Concrete}

@[simp] theorem liesIn_null : null.LiesIn n := nofun

@[simp] theorem liesIn_text (value : String) : (text value).LiesIn n := nofun

@[simp] theorem liesIn_bool (value : Bool) : (bool value).LiesIn n := nofun

theorem liesIn_one {role : Role} {c : Concrete} (hrole : role ≠ .file) (hc : n.Inside c) :
    (one role c).LiesIn n := by
  intro p hp
  obtain rfl := List.mem_singleton.mp hp
  exact ⟨hrole, hc⟩

theorem liesIn_ofOption {role : Role} {o : Option Concrete} (hrole : role ≠ .file)
    (h : ∀ c ∈ o, n.Inside c) : (ofOption role o).LiesIn n := by
  cases o with
  | none => exact liesIn_null
  | some c => exact liesIn_one hrole (h c rfl)

theorem liesIn_expression (hn : n.Nested) {o : Option Concrete}
    (h : ∀ c ∈ o, n.Inside c) : (expression o).LiesIn n := by
  refine liesIn_ofOption (by decide) fun m hm => ?_
  obtain ⟨c, hc, hcore⟩ := Option.bind_eq_some_iff.mp hm
  have hinside := h c hc
  exact hinside.trans ((hn.of_inside hinside).inside_core hcore)

theorem liesIn_expressions (hn : n.Nested) {cs : List Concrete}
    (h : ∀ c ∈ cs, n.Inside c) : (expressions cs).LiesIn n := by
  intro p hp
  obtain ⟨m, hm, rfl⟩ := List.mem_map.mp hp
  obtain ⟨c, hc, hcore⟩ := List.mem_filterMap.mp hm
  have hinside := h c hc
  exact ⟨nofun, hinside.trans ((hn.of_inside hinside).inside_core hcore)⟩

theorem liesIn_child? (hn : n.Nested) (key : String) :
    (expression (n.child? key)).LiesIn n :=
  liesIn_expression hn fun _ => hn.inside_child?

theorem liesIn_head? (hn : n.Nested) : (expression n.parts.head?).LiesIn n :=
  liesIn_expression hn fun _ hc => hn.inside_part (List.mem_of_head? hc)

theorem liesIn_parameters (hn : n.Nested) :
    (expressions (Recipe.parameters n)).LiesIn n :=
  liesIn_expressions hn fun _ => hn.inside_parameters

theorem liesIn_content (hn : n.Nested) : (expressions (Recipe.content n)).LiesIn n :=
  liesIn_expressions hn fun _ hc => hn.inside_part (List.mem_filter.mp hc).1

end Part

namespace Recipe

/-- All that a recipe takes lies in the range of `n`. -/
def LiesIn (n : Concrete) (r : Recipe) : Prop := ∀ f ∈ r.fields, f.2.LiesIn n

variable {s : SourceText} {role : Role} {n : Concrete} {r : Recipe}

theorem liesIn_exportStatement (hn : n.Nested) : (exportStatement n).LiesIn n := by
  obtain ⟨hdirect, hothers⟩ := Convert.exported_sublist n
  have hdeclaration : (Part.expression (Convert.exported n).1).LiesIn n :=
    Part.liesIn_expression hn fun c hc => hn.inside (hdirect c hc)
  unfold exportStatement
  split
  · exact List.forall_mem_singleton.mpr hdeclaration
  · refine List.forall_mem_cons.mpr ⟨hdeclaration, List.forall_mem_singleton.mpr ?_⟩
    apply Part.liesIn_expressions hn
    intro c hc
    exact hn.inside (hothers.subset (List.mem_filter.mp hc).1)

theorem liesIn_element (hn : n.Nested) (hr : element n = some r) : r.LiesIn n := by
  obtain ⟨o, ho, hcases⟩ := element_cases hr
  have hopening {role : Role} (hrole : role ≠ .file) : (Part.one role o).LiesIn n :=
    Part.liesIn_one hrole (hn.inside_child? ho)
  have hclosing {role : Role} (hrole : role ≠ .file) :
      (Part.ofOption role (n.child? "close_tag")).LiesIn n :=
    Part.liesIn_ofOption hrole fun _ => hn.inside_child?
  rcases hcases with ⟨-, rfl⟩ | ⟨-, rfl⟩ <;>
    simp [LiesIn, hopening, hclosing, Part.liesIn_content hn]

theorem liesIn_container (hn : n.Nested) : (container n).LiesIn n := by
  refine List.forall_mem_singleton.mpr ?_
  cases hhead : n.parts.head? with
  | none => exact Part.liesIn_one (by decide) (.refl n)
  | some c =>
    have hpart := Part.liesIn_head? hn
    rwa [hhead] at hpart

theorem Rule.liesIn (h : Rule s n r) (hn : n.Nested) : r.LiesIn n := by
  have hparts : (Part.expressions n.parts).LiesIn n :=
    Part.liesIn_expressions hn fun _ => hn.inside_part
  cases h with
  | sequence => exact List.forall_mem_singleton.mpr hparts
  | wrapper => exact List.forall_mem_singleton.mpr (Part.liesIn_head? hn)
  | leaf => simp [LiesIn, Recipe.leaf]
  | function =>
    simp [LiesIn, Recipe.function, Part.liesIn_child? hn, Part.liesIn_parameters hn]
  | constant hr =>
    have hnone : ∀ p ∈ constantRules, ∀ f ∈ p.2.fields, f.2.sources = [] := by
      simp [constantRules, Part.sources]
    intro f hf
    rw [Part.LiesIn, hnone _ hr f hf]
    exact List.forall_mem_nil _
  | declaration _ hr =>
    obtain ⟨keyword, -, rfl⟩ := Option.map_eq_some_iff.mp hr
    have hdeclarators : (Part.expressions (n.children.filter fun c =>
        c.head.named && c.kind == "variable_declarator")).LiesIn n :=
      Part.liesIn_expressions hn fun c hc => hn.inside (List.mem_filter.mp hc).1
    simpa [LiesIn] using hdeclarators
  | declarator => simp [LiesIn, variableDeclarator, Part.liesIn_child? hn]
  | arrow => simp [LiesIn, arrowFunction, Part.liesIn_child? hn, Part.liesIn_parameters hn]
  | exported => exact liesIn_exportStatement hn
  | binary _ hr =>
    obtain ⟨o, -, rfl⟩ := Option.map_eq_some_iff.mp hr
    simp [LiesIn, Part.liesIn_child? hn]
  | conditional => simp [LiesIn, Recipe.conditional, Part.liesIn_child? hn]
  | element _ hr => exact liesIn_element hn hr
  | selfClosing =>
    have htag : (Part.one (.openingTag true) n).LiesIn n :=
      Part.liesIn_one (by decide) (.refl n)
    refine List.forall_mem_cons.mpr ⟨htag, ?_⟩
    simp [Part.LiesIn, Part.sources]
  | container => exact liesIn_container hn
  | string => simp [LiesIn, Recipe.string]
  | other => exact List.forall_mem_singleton.mpr hparts

theorem attributeRole_ne_file (c : Concrete) : (attributeRole c).1 ≠ .file := by
  rw [attributeRole]
  split <;> simp

theorem liesIn_openingTag (hn : n.Nested) (selfClosing : Bool) :
    (openingTag n selfClosing).LiesIn n := by
  have hname : (Part.ofOption .name (n.child? "name")).LiesIn n :=
    Part.liesIn_ofOption (by decide) fun _ => hn.inside_child?
  have hattributes : (Part.many (n.attributeParts.map attributeRole)).LiesIn n := by
    intro p hp
    obtain ⟨c, hc, rfl⟩ := List.mem_map.mp hp
    exact ⟨attributeRole_ne_file c, hn.inside (Concrete.mem_of_mem_attributeParts hc)⟩
  simp [LiesIn, openingTag, hname, hattributes]

theorem liesIn_namedAttribute (hn : n.Nested) (hr : namedAttribute n = some r) :
    r.LiesIn n := by
  obtain ⟨c, hc, rfl⟩ := Option.map_eq_some_iff.mp hr
  have hname : (Part.one .name c).LiesIn n :=
    Part.liesIn_one (by decide) (hn.inside_part (List.mem_of_head? hc))
  have hvalue : (Part.expression (n.parts.drop 1).head?).LiesIn n :=
    Part.liesIn_expression hn fun d hd =>
      hn.inside_part (List.mem_of_mem_drop (List.mem_of_head? hd))
  exact List.forall_mem_cons.mpr ⟨hname, List.forall_mem_singleton.mpr hvalue⟩

theorem liesIn_spreadAttribute (hn : n.Nested) : (spreadAttribute n).LiesIn n := by
  refine List.forall_mem_singleton.mpr (Part.liesIn_expression hn fun d hd => ?_)
  obtain ⟨c, hc, rfl⟩ := Option.map_eq_some_iff.mp hd
  exact hn.inside_spreadTarget (List.mem_of_head? hc)

theorem liesIn_name (s : SourceText) (n : Concrete) : (name s n).LiesIn n := by
  unfold name
  split_ifs <;> simp [LiesIn, leaf]

/-- Whatever the role, a node is made of what lies in the range of its concrete node. -/
theorem liesIn (h : recipe s role n = some r) (hn : n.Nested) : r.LiesIn n := by
  cases role with
  | expression => exact (rule_of_expression h).liesIn hn
  | namedAttribute => exact liesIn_namedAttribute hn h
  | file =>
    obtain rfl := Option.some.inj h
    refine List.forall_mem_singleton.mpr (Part.liesIn_expression hn fun c hc => ?_)
    obtain rfl := Option.some.inj hc
    exact .refl n
  | openingTag selfClosing => exact Option.some.inj h ▸ liesIn_openingTag hn selfClosing
  | spreadAttribute => exact Option.some.inj h ▸ liesIn_spreadAttribute hn
  | name => exact Option.some.inj h ▸ liesIn_name s n
  | closingTag =>
    obtain rfl := Option.some.inj h
    refine List.forall_mem_singleton.mpr ?_
    exact Part.liesIn_ofOption (by decide) fun _ => hn.inside_child?
  | openingFragment | closingFragment | emptyExpression =>
    obtain rfl := Option.some.inj h
    exact nofun

end Recipe

/-! ## Sources with tags -/

/-- A node in this role may have opening tags in it. Names, closing tags and what is empty have
none. -/
def Role.bears : Role → Bool
  | .file | .expression | .openingTag _ | .namedAttribute | .spreadAttribute => true
  | _ => false

/-- The nodes that may have opening tags in them. -/
def bearers (nodes : List (Role × Concrete)) : List Concrete :=
  (nodes.filter fun p => p.1.bears).map Prod.snd

theorem bearers_cons (p : Role × Concrete) (nodes : List (Role × Concrete)) :
    bearers (p :: nodes) = bearers [p] ++ bearers nodes := by
  rw [bearers, bearers, bearers, ← List.map_append, ← List.filter_append, List.singleton_append]

theorem bearers_of_bears {role : Role} (h : role.bears = true) (n : Concrete) :
    bearers [(role, n)] = [n] := by
  simp [bearers, h]

theorem bearers_of_not_bears {role : Role} (h : role.bears = false) (n : Concrete) :
    bearers [(role, n)] = [] := by
  simp [bearers, h]

theorem exists_of_mem_bearers {nodes : List (Role × Concrete)} {c : Concrete}
    (h : c ∈ bearers nodes) : ∃ p ∈ nodes, p.2 = c := by
  obtain ⟨p, hp, rfl⟩ := List.mem_map.mp h
  exact ⟨p, (List.mem_filter.mp hp).1, rfl⟩

namespace Part

/-- The sources of a field that may have tags in them are apart, and what is taken for an opening
tag is a tag. -/
structure Tidy (part : Part) : Prop where
  apart : (bearers part.sources).Pairwise Concrete.Apart
  tags : ∀ p ∈ part.sources, ∀ selfClosing, p.1 = .openingTag selfClosing → p.2.isTag = true

variable {source : String} {n : Concrete} {cs : List Concrete}

theorem tidy_null : null.Tidy := ⟨.nil, nofun⟩

theorem tidy_text (value : String) : (text value).Tidy := ⟨.nil, nofun⟩

theorem tidy_bool (value : Bool) : (bool value).Tidy := ⟨.nil, nofun⟩

theorem tidy_one {role : Role}
    (h : ∀ selfClosing, role = .openingTag selfClosing → n.isTag = true) :
    (one role n).Tidy := by
  constructor
  · cases hrole : role.bears with
    | true =>
      rw [sources, bearers_of_bears hrole]
      exact List.pairwise_singleton _ _
    | false =>
      rw [sources, bearers_of_not_bears hrole]
      exact .nil
  · exact List.forall_mem_singleton.mpr h

theorem tidy_ofOption {role : Role} (h : ∀ selfClosing, role ≠ .openingTag selfClosing)
    (o : Option Concrete) : (ofOption role o).Tidy := by
  cases o with
  | none => exact tidy_null
  | some c => exact tidy_one fun selfClosing hrole => absurd hrole (h selfClosing)

theorem bearers_ofOption {role : Role} (h : role.bears = false) (o : Option Concrete) :
    bearers (ofOption role o).sources = [] := by
  cases o with
  | none => rfl
  | some c => exact bearers_of_not_bears h c

theorem tidy_expression (o : Option Concrete) : (expression o).Tidy :=
  tidy_ofOption (by simp) _

theorem bearers_expressions (cs : List Concrete) :
    bearers (expressions cs).sources = cs.filterMap Concrete.core := by
  simp [expressions, sources, bearers, List.filter_map, Function.comp_def, Role.bears]

theorem tidy_expressions (hcs : ∀ c ∈ cs, c.Nested) (hapart : cs.Pairwise Concrete.Apart) :
    (expressions cs).Tidy := by
  constructor
  · rw [bearers_expressions]
    refine List.pairwise_filterMap.mpr (hapart.imp_of_mem fun {a b} ha hb hab c hc d hd => ?_)
    exact hab.of_inside ((hcs a ha).inside_core hc) ((hcs b hb).inside_core hd)
  · intro p hp selfClosing hrole
    obtain ⟨c, -, rfl⟩ := List.mem_map.mp hp
    cases hrole

/-- Children of an orderly node. -/
theorem tidy_children (hn : n.Orderly source) (hcs : cs.Sublist n.children) :
    (expressions cs).Tidy :=
  tidy_expressions (fun _ hc => (hn.child (hcs.subset hc)).nested) (hn.pairwise_apart.sublist hcs)

theorem tidy_parts (hn : n.Orderly source) : (expressions n.parts).Tidy :=
  tidy_children hn List.filter_sublist

theorem tidy_parameters (hn : n.Orderly source) : (expressions (Recipe.parameters n)).Tidy := by
  unfold Recipe.parameters
  split
  · rename_i single hsingle
    refine tidy_expressions (fun c hc => ?_) (List.pairwise_singleton _ _)
    rw [List.mem_singleton.mp hc]
    exact (hn.child (Concrete.child?_eq_some hsingle).1).nested
  · split
    · rename_i list hlist
      exact tidy_parts (hn.child (Concrete.child?_eq_some hlist).1)
    · exact tidy_expressions (by simp) .nil

/-- The sources of a field that may have tags lie in the child in a field of `n`. -/
def Fills (n : Concrete) (key : String) (part : Part) : Prop :=
  ∀ c ∈ bearers part.sources, ∃ d ∈ n.child? key, d.Inside c

theorem fills_of_bearers_eq_nil {key : String} {part : Part} (h : bearers part.sources = []) :
    part.Fills n key := by
  intro c hc
  rw [h] at hc
  cases hc

theorem inside_of_mem_expression {o : Option Concrete} (ho : ∀ d ∈ o, d.Nested) {c : Concrete}
    (hc : c ∈ bearers (expression o).sources) : ∃ d ∈ o, d.Inside c := by
  obtain ⟨p, hp, rfl⟩ := exists_of_mem_bearers hc
  rw [expression] at hp
  cases hcore : o.bind Concrete.core with
  | none =>
    rw [hcore] at hp
    cases hp
  | some m =>
    rw [hcore] at hp
    obtain rfl := List.mem_singleton.mp hp
    obtain ⟨d, hd, hm⟩ := Option.bind_eq_some_iff.mp hcore
    exact ⟨d, hd, (ho d hd).inside_core hm⟩

theorem inside_of_mem_expressions (hcs : ∀ d ∈ cs, d.Nested) {c : Concrete}
    (hc : c ∈ bearers (expressions cs).sources) : ∃ d ∈ cs, d.Inside c := by
  rw [bearers_expressions] at hc
  obtain ⟨d, hd, hm⟩ := List.mem_filterMap.mp hc
  exact ⟨d, hd, (hcs d hd).inside_core hm⟩

theorem fills_child? (hn : n.Nested) (key : String) : (expression (n.child? key)).Fills n key :=
  fun _ => inside_of_mem_expression fun _ hd => hn.of_inside (hn.inside_child? hd)

/-- The parameters of a function fill one of two fields. -/
theorem fills_parameters (hn : n.Nested) :
    ∃ key ∈ ["parameter", "parameters"], (expressions (Recipe.parameters n)).Fills n key := by
  have hinside {c : Concrete} (hc : c ∈ bearers (expressions (Recipe.parameters n)).sources) :
      ∃ d ∈ Recipe.parameters n, d.Inside c :=
    inside_of_mem_expressions (fun _ hd => hn.of_inside (hn.inside_parameters hd)) hc
  cases hsingle : n.child? "parameter" with
  | some single =>
    refine ⟨"parameter", List.mem_cons_self, fun c hc => ⟨single, hsingle, ?_⟩⟩
    obtain ⟨d, hd, hdc⟩ := hinside hc
    rw [Recipe.parameters, hsingle] at hd
    rwa [← List.mem_singleton.mp hd]
  | none =>
    refine ⟨"parameters", List.mem_cons_of_mem _ List.mem_cons_self, fun c hc => ?_⟩
    obtain ⟨d, hd, hdc⟩ := hinside hc
    rw [Recipe.parameters, hsingle] at hd
    cases hlist : n.child? "parameters" with
    | some list =>
      rw [hlist] at hd
      exact ⟨list, rfl, ((hn.of_inside (hn.inside_child? hlist)).inside_part hd).trans hdc⟩
    | none =>
      rw [hlist] at hd
      cases hd

end Part

namespace Recipe

/-- The sources of two fields are apart, as far as they may have tags in them. -/
def ApartFields (f g : String × Part) : Prop :=
  ∀ c ∈ bearers f.2.sources, ∀ d ∈ bearers g.2.sources, c.Apart d

/-- The sources of a recipe that may have tags in them are apart, and what is taken for an opening
tag is a tag. -/
structure Tidy (r : Recipe) : Prop where
  fields : ∀ f ∈ r.fields, f.2.Tidy
  apart : r.fields.Pairwise ApartFields

variable {source : String} {s : SourceText} {role : Role} {n : Concrete} {r : Recipe}

theorem tidy_nil (kind : String) : Tidy ⟨kind, []⟩ := ⟨by simp, .nil⟩

theorem tidy_single {kind field : String} {part : Part} (h : part.Tidy) :
    Tidy ⟨kind, [(field, part)]⟩ :=
  ⟨List.forall_mem_singleton.mpr h, List.pairwise_singleton _ _⟩

/-- A field in front of others that it is apart from. -/
theorem Tidy.cons {kind field : String} {part : Part} {fields : List (String × Part)}
    (h : Tidy ⟨kind, fields⟩) (hpart : part.Tidy)
    (hapart : ∀ g ∈ fields, ApartFields (field, part) g) : Tidy ⟨kind, (field, part) :: fields⟩ :=
  ⟨List.forall_mem_cons.mpr ⟨hpart, h.fields⟩, List.pairwise_cons.mpr ⟨hapart, h.apart⟩⟩

/-- A field in front whose sources have no tags in them. -/
theorem Tidy.cons_barren {kind field : String} {part : Part} {fields : List (String × Part)}
    (h : Tidy ⟨kind, fields⟩) (hpart : part.Tidy) (hbarren : bearers part.sources = []) :
    Tidy ⟨kind, (field, part) :: fields⟩ := by
  refine h.cons hpart fun g _ c hc => ?_
  rw [hbarren] at hc
  cases hc

/-- Fields that are filled from children in different fields of a node. -/
theorem tidy_of_fills (hn : n.Orderly source) (keys : List String) (hkeys : keys.Nodup)
    {kind : String} {fields : List (String × Part)} (htidy : ∀ f ∈ fields, f.2.Tidy)
    (h : List.Forall₂ (fun key f => f.2.Fills n key) keys fields) : Tidy ⟨kind, fields⟩ := by
  refine ⟨htidy, ?_⟩
  clear htidy
  induction h with
  | nil => exact .nil
  | @cons key f keys fields hf hrest ih =>
    obtain ⟨hnew, hkeys⟩ := List.nodup_cons.mp hkeys
    refine .cons (fun g hg c hc d hd => ?_) (ih hkeys)
    obtain ⟨key', hkey', hg⟩ := exists_of_mem_right hrest hg
    obtain ⟨a, ha, hac⟩ := hf c hc
    obtain ⟨b, hb, hbd⟩ := hg d hd
    obtain ⟨ha, hfield⟩ := Concrete.child?_eq_some ha
    obtain ⟨hb, hfield'⟩ := Concrete.child?_eq_some hb
    refine (hn.apart ha hb fun hab => hnew ?_).of_inside hac hbd
    rw [hab, hfield'] at hfield
    rwa [← Option.some.inj hfield]

theorem tidy_function (hn : n.Orderly source) (kind : String) : (function n kind).Tidy := by
  have hname := Part.fills_child? hn.nested "name"
  have hbody := Part.fills_child? hn.nested "body"
  have hfields : ∀ f ∈ (function n kind).fields, f.2.Tidy := by
    simp [function, Part.tidy_expression, Part.tidy_parameters hn]
  obtain ⟨key, hkey, hparams⟩ := Part.fills_parameters hn.nested
  have hkeys : ["name", key, "body"].Nodup := by grind
  exact tidy_of_fills hn _ hkeys hfields (.cons hname (.cons hparams (.cons hbody .nil)))

theorem tidy_arrowFunction (hn : n.Orderly source) : (arrowFunction n).Tidy := by
  have hbody := Part.fills_child? hn.nested "body"
  have hflag (b : Bool) : (Part.bool b).Fills n "expression" := Part.fills_of_bearers_eq_nil rfl
  have hfields : ∀ f ∈ (arrowFunction n).fields, f.2.Tidy := by
    simp [arrowFunction, Part.tidy_expression, Part.tidy_parameters hn, Part.tidy_bool]
  obtain ⟨key, hkey, hparams⟩ := Part.fills_parameters hn.nested
  have hkeys : [key, "body", "expression"].Nodup := by grind
  exact tidy_of_fills hn _ hkeys hfields (.cons hparams (.cons hbody (.cons (hflag _) .nil)))

theorem tidy_variableDeclarator (hn : n.Orderly source) : (variableDeclarator n).Tidy := by
  have hchild := Part.fills_child? hn.nested
  exact tidy_of_fills hn ["name", "value"] (by decide) (by simp [Part.tidy_expression])
    (.cons (hchild _) (.cons (hchild _) .nil))

theorem tidy_conditional (hn : n.Orderly source) : (conditional n).Tidy := by
  have hchild := Part.fills_child? hn.nested
  exact tidy_of_fills hn ["condition", "consequence", "alternative"] (by decide)
    (by simp [Part.tidy_expression]) (.cons (hchild _) (.cons (hchild _) (.cons (hchild _) .nil)))

theorem tidy_binaryExpression (hn : n.Orderly source) (hr : binaryExpression n = some r) :
    r.Tidy := by
  have hchild := Part.fills_child? hn.nested
  obtain ⟨o, -, rfl⟩ := Option.map_eq_some_iff.mp hr
  refine Tidy.cons_barren ?_ (Part.tidy_text _) rfl
  exact tidy_of_fills hn ["left", "right"] (by decide) (by simp [Part.tidy_expression])
    (.cons (hchild _) (.cons (hchild _) .nil))

theorem tidy_variableDeclaration (hn : n.Orderly source) (hr : variableDeclaration s n = some r) :
    r.Tidy := by
  obtain ⟨keyword, -, rfl⟩ := Option.map_eq_some_iff.mp hr
  exact (tidy_single (Part.tidy_children hn List.filter_sublist)).cons_barren (Part.tidy_text _) rfl

theorem withoutField_perm {field : String} {cs : List Concrete} {d : Concrete}
    (h : cs.find? (fun c => c.head.field == some field) = some d) :
    cs.Perm (d :: Convert.withoutField field cs) := by
  induction cs with
  | nil => cases h
  | cons c rest ih =>
    rw [List.find?_cons] at h
    rw [Convert.withoutField]
    split at h
    · rename_i hc
      cases h
      rw [if_pos hc]
    · rename_i hc
      rw [if_neg (by simp [hc])]
      exact ((ih h).cons c).trans (.swap d c _)

/-- What is exported directly and the other children are apart. -/
theorem apart_exported (hn : n.Orderly source) :
    ∀ d ∈ (Convert.exported n).1, ∀ c ∈ (Convert.exported n).2, d.Apart c := by
  have hchild {field : String} {d : Concrete} (hd : n.child? field = some d) :
      ∀ c ∈ Convert.withoutField field n.children, d.Apart c := by
    have hpairs : (d :: Convert.withoutField field n.children).Pairwise Concrete.Apart :=
      ((withoutField_perm hd).pairwise_iff Concrete.Apart.symm).mp hn.pairwise_apart
    exact (List.pairwise_cons.mp hpairs).1
  unfold Convert.exported
  split
  · rename_i d hd
    rintro _ ⟨⟩
    exact hchild hd
  · exact fun d hd => hchild hd

theorem tidy_exportStatement (hn : n.Orderly source) : (exportStatement n).Tidy := by
  obtain ⟨hdirect, hothers⟩ := Convert.exported_sublist n
  unfold exportStatement
  split
  · exact tidy_single (Part.tidy_expression _)
  · have hsub : ((Convert.exported n).2.filter fun c =>
        c.head.named && c.kind != "comment").Sublist n.children :=
      List.filter_sublist.trans hothers
    refine (tidy_single (Part.tidy_children hn hsub)).cons (Part.tidy_expression _) ?_
    refine List.forall_mem_singleton.mpr fun c hc d hd => ?_
    obtain ⟨a, ha, hac⟩ :=
      Part.inside_of_mem_expression (fun a ha => (hn.child (hdirect a ha)).nested) hc
    obtain ⟨b, hb, hbd⟩ :=
      Part.inside_of_mem_expressions (fun b hb => (hn.child (hsub.subset hb)).nested) hd
    exact (apart_exported hn a ha b (List.mem_filter.mp hb).1).of_inside hac hbd

/-- The opening tag is apart from what stands between the tags. -/
theorem tidy_element (hn : n.Orderly source) (hkind : n.kind = "jsx_element")
    (hr : element n = some r) : r.Tidy := by
  have hsub : (content n).Sublist n.children := List.filter_sublist.trans List.filter_sublist
  have hcontent {kind : String} : Tidy ⟨kind, [("children", .expressions (content n))]⟩ :=
    tidy_single (Part.tidy_children hn hsub)
  have hclosing {kind field : String} {role : Role} (hrole : role.bears = false) :
      Tidy ⟨kind, [(field, .ofOption role (n.child? "close_tag")),
        ("children", .expressions (content n))]⟩ := by
    refine hcontent.cons_barren (Part.tidy_ofOption ?_ _) (Part.bearers_ofOption hrole _)
    rintro selfClosing rfl
    cases hrole
  obtain ⟨o, ho, hcases⟩ := element_cases hr
  have hopening := hn.fits.opening hkind o ho
  rcases hcases with ⟨hname, rfl⟩ | ⟨-, rfl⟩
  · have htag : o.isTag = true := by simp [Concrete.isTag, hopening, hname]
    refine (hclosing rfl).cons (Part.tidy_one fun _ _ => htag) fun g hg c hc d hd => ?_
    rcases List.mem_pair.mp hg with rfl | rfl
    · rw [Part.bearers_ofOption rfl] at hd
      cases hd
    · obtain rfl : c = o := List.mem_singleton.mp hc
      obtain ⟨b, hb, hbd⟩ :=
        Part.inside_of_mem_expressions (fun b hb => (hn.child (hsub.subset hb)).nested) hd
      refine (hn.apart (Concrete.child?_eq_some ho).1 (hsub.subset hb) ?_).of_inside (.refl c) hbd
      rintro rfl
      simp [content, Convert.tagKinds, hopening] at hb
  · exact (hclosing rfl).cons_barren (Part.tidy_one (by simp)) rfl

theorem tidy_selfClosingElement (h : n.kind = "jsx_self_closing_element") :
    (selfClosingElement n).Tidy := by
  have htag : n.isTag = true := by simp [Concrete.isTag, h]
  have hchildren : (Part.many []).Tidy := ⟨.nil, nofun⟩
  refine ((tidy_single hchildren).cons_barren Part.tidy_null rfl).cons
    (Part.tidy_one fun _ _ => htag) ?_
  simp [ApartFields, bearers, Part.sources]

theorem tidy_container (n : Concrete) : (container n).Tidy := by
  refine tidy_single ?_
  cases n.parts.head? with
  | none => exact Part.tidy_one (by simp)
  | some c => exact Part.tidy_expression _

/-- Whatever the rule, the sources of an expression are tidy. -/
theorem Rule.tidy (h : Rule s n r) (hn : n.Orderly source) : r.Tidy := by
  cases h with
  | sequence => exact tidy_single (Part.tidy_parts hn)
  | wrapper => exact tidy_single (Part.tidy_expression _)
  | leaf => exact tidy_single (Part.tidy_text _)
  | function => exact tidy_function hn _
  | constant hr =>
    have hconstants : ∀ p ∈ constantRules, p.2.Tidy := by
      simp [constantRules, tidy_nil, tidy_single, Part.tidy_bool]
    exact hconstants _ hr
  | declaration _ hr => exact tidy_variableDeclaration hn hr
  | declarator => exact tidy_variableDeclarator hn
  | arrow => exact tidy_arrowFunction hn
  | exported => exact tidy_exportStatement hn
  | binary _ hr => exact tidy_binaryExpression hn hr
  | conditional => exact tidy_conditional hn
  | element hkind hr => exact tidy_element hn hkind hr
  | selfClosing hkind => exact tidy_selfClosingElement hkind
  | container => exact tidy_container n
  | string => exact tidy_single (Part.tidy_text _)
  | other => exact tidy_single (Part.tidy_parts hn)

theorem bearers_attributeRole (cs : List Concrete) : bearers (cs.map attributeRole) = cs := by
  induction cs with
  | nil => rfl
  | cons c rest ih =>
    rw [List.map_cons, bearers_cons, ih, attributeRole]
    split <;> rfl

/-- In a tag only the attributes may have tags in them. -/
theorem flatMap_bearers_openingTag (n : Concrete) (selfClosing : Bool) :
    ((openingTag n selfClosing).fields.flatMap fun f => bearers f.2.sources) =
      n.attributeParts := by
  simp only [openingTag, List.flatMap_cons, List.flatMap_nil, List.append_nil]
  rw [Part.bearers_ofOption rfl, List.nil_append]
  exact (List.append_nil _).trans (bearers_attributeRole n.attributeParts)

theorem tidy_openingTag (hn : n.Orderly source) (selfClosing : Bool) :
    (openingTag n selfClosing).Tidy := by
  have hattributes : (Part.many (n.attributeParts.map attributeRole)).Tidy := by
    constructor
    · rw [Part.sources, bearers_attributeRole]
      exact hn.pairwise_apart.sublist n.attributeParts_sublist
    · intro p hp selfClosing hrole
      obtain ⟨c, -, rfl⟩ := List.mem_map.mp hp
      rw [attributeRole] at hrole
      split at hrole <;> cases hrole
  refine Tidy.cons_barren (.cons (tidy_single (Part.tidy_bool _)) hattributes ?_)
    (Part.tidy_ofOption (by simp) _) (Part.bearers_ofOption rfl _)
  simp [ApartFields, bearers, Part.sources]

theorem tidy_namedAttribute (hr : namedAttribute n = some r) : r.Tidy := by
  obtain ⟨c, -, rfl⟩ := Option.map_eq_some_iff.mp hr
  exact (tidy_single (Part.tidy_expression _)).cons_barren (Part.tidy_one (by simp)) rfl

theorem tidy_name (s : SourceText) (n : Concrete) : (name s n).Tidy := by
  unfold name
  split_ifs <;> exact tidy_single (Part.tidy_text _)

/-- Whatever the role, the sources of an orderly node are tidy. -/
theorem tidy (h : recipe s role n = some r) (hn : n.Orderly source) : r.Tidy := by
  cases role with
  | expression => exact (rule_of_expression h).tidy hn
  | namedAttribute => exact tidy_namedAttribute h
  | file => exact Option.some.inj h ▸ tidy_single (Part.tidy_expression _)
  | openingTag selfClosing => exact Option.some.inj h ▸ tidy_openingTag hn selfClosing
  | spreadAttribute => exact Option.some.inj h ▸ tidy_single (Part.tidy_expression _)
  | name => exact Option.some.inj h ▸ tidy_name s n
  | closingTag => exact Option.some.inj h ▸ tidy_single (Part.tidy_ofOption (by simp) _)
  | openingFragment | closingFragment | emptyExpression =>
    exact Option.some.inj h ▸ tidy_nil _

/-- A role without tags takes no node that may have some. -/
theorem bearers_eq_nil (h : recipe s role n = some r) (hrole : role.bears = false) :
    ∀ f ∈ r.fields, bearers f.2.sources = [] := by
  cases role with
  | name =>
    obtain rfl := Option.some.inj h
    unfold name
    split_ifs <;> exact List.forall_mem_singleton.mpr rfl
  | closingTag =>
    obtain rfl := Option.some.inj h
    exact List.forall_mem_singleton.mpr (Part.bearers_ofOption rfl _)
  | openingFragment | closingFragment | emptyExpression =>
    obtain rfl := Option.some.inj h
    exact List.forall_mem_nil _
  | _ => cases hrole

end Recipe

end TopTag
