import TopTag.Proofs.Stamped

/-!
# Tagging a text that was tagged

The text that tagging gives is read again, and its concrete tree is the old one with one attribute
more in each tag that took one (`Concrete.Reread`); nothing is known of its offsets but that they
lie in the text. Such a tree has the topmost elements of the old one, and all their tags have the
attribute now. So another pass adds nothing and gives the text back (`tagConcrete_of_reread`).
-/

namespace TopTag

namespace Concrete

/-- The offsets of all nodes lie in the text. -/
def LiesIn (source : String) (root : Concrete) : Prop :=
  ∀ n ∈ root.nodes, n.head.start ≤ SourceText.byteAt source.toList source.toList.length ∧
    n.head.stop ≤ SourceText.byteAt source.toList source.toList.length

instance (source : String) (root : Concrete) : Decidable (root.LiesIn source) :=
  inferInstanceAs (Decidable (∀ n ∈ root.nodes, _ ∧ _))

/-- An attribute with the given name, which is plain, and a string. -/
structure IsNew (s : SourceText) (name : String) (a : Concrete) : Prop where
  kind : a.kind = "jsx_attribute"
  named : a.head.named = true
  parts : ∃ c value, a.children.filter (·.head.named) = [c, value] ∧ c.isPlainName = true ∧
    c.kind ≠ "comment" ∧ Convert.text s c = name ∧ value.kind = "string"

/-- The first node is a tag that can take attributes, and the second is that tag with another one:
it has the kind of a tag, and if it opens a fragment the new attribute is not its name. -/
structure StaysTag (n n' : Concrete) : Prop where
  kind : n.kind ∈ openingKinds
  nameless : n.head.field = some "open_tag" → n.child? "name" = none → n'.child? "name" = none

mutual

/-- The second node is the first, read again in another text. It has the same kind, field and flags,
and so has everything below it; the attributes have the same names. A node whose number is among the
takers has one new attribute, and nothing else is new.

Only real tags take attributes, and one that opens a fragment goes on doing so (`htag`). In a tree
that opens an element with a node of another kind, such a node may be among the takers; this tree is
not read again in this sense. -/
inductive Reread (s s' : SourceText) (name : String) (takes : List Nat) :
    Nat → Concrete → Concrete → Prop
  | node {k : Nat} {h h' : Head} {cs cs' : List Concrete}
      (hhead : h' = { h with start := h'.start, stop := h'.stop })
      (hname : h.kind = "jsx_attribute" →
        (node h' cs').parts.head?.map (Convert.text s') =
          (node h cs).parts.head?.map (Convert.text s))
      (htag : k ∈ takes → StaysTag (.node h cs) (.node h' cs'))
      (hchildren : RereadAll s s' name takes (decide (k ∈ takes)) (k + 1) cs cs') :
      Reread s s' name takes k (.node h cs) (.node h' cs')

/-- The same of children that are numbered from `k` on. The flag says whether a new attribute is
still to come. -/
inductive RereadAll (s s' : SourceText) (name : String) (takes : List Nat) :
    Bool → Nat → List Concrete → List Concrete → Prop
  | nil {k : Nat} : RereadAll s s' name takes false k [] []
  | keep {more : Bool} {k : Nat} {c c' : Concrete} {cs cs' : List Concrete}
      (hc : Reread s s' name takes k c c')
      (hrest : RereadAll s s' name takes more (k + c.nodes.length) cs cs') :
      RereadAll s s' name takes more k (c :: cs) (c' :: cs')
  | new {k : Nat} {a : Concrete} {cs cs' : List Concrete} (ha : a.IsNew s' name)
      (hrest : RereadAll s s' name takes false k cs cs') :
      RereadAll s s' name takes true k cs (a :: cs')

end

section

variable {s s' : SourceText} {name : String} {takes : List Nat} {k : Nat} {more : Bool}
  {n n' a : Concrete} {cs cs' : List Concrete}

theorem IsNew.exists_parts (h : a.IsNew s name) : ∃ c value, a.parts = [c, value] ∧
    c.isPlainName = true ∧ Convert.text s c = name ∧ value.kind = "string" := by
  obtain ⟨c, value, hnamed, hplain, hcomment, htext, hstring⟩ := h.parts
  refine ⟨c, value, ?_, hplain, htext, hstring⟩
  have hparts : a.parts = (a.children.filter (·.head.named)).filter (·.kind != "comment") := by
    rw [List.filter_filter, Concrete.parts]
    simp only [Bool.and_comm]
  rw [hparts, hnamed]
  simp [hcomment, hstring]

theorem Reread.alike (h : Reread s s' name takes k n n') : n'.kind = n.kind ∧
    n'.head.named = n.head.named ∧ n'.head.field = n.head.field ∧
    n'.head.hasError = n.head.hasError := by
  cases h with
  | node hhead =>
    simp only [kind, head]
    rw [hhead]
    exact ⟨rfl, rfl, rfl, rfl⟩

theorem Reread.staysTag (h : Reread s s' name takes k n n') (hk : k ∈ takes) : StaysTag n n' := by
  cases h with
  | node _ _ htag _ => exact htag hk

/-! ## Names -/

theorem RereadAll.forall₂ (h : RereadAll s s' name takes false k cs cs') :
    List.Forall₂ (fun c c' => ∃ i, Reread s s' name takes i c c') cs cs' := by
  induction cs' generalizing k cs with
  | nil =>
    cases h
    exact .nil
  | cons c' rest' ih =>
    cases h with
    | keep hc hrest => exact .cons ⟨k, hc⟩ (ih hrest)

theorem RereadAll.exists_of_mem (h : RereadAll s s' name takes more k cs cs') {c : Concrete}
    (hc : c ∈ cs) : ∃ c' ∈ cs', ∃ i, Reread s s' name takes i c c' := by
  induction cs' generalizing more k cs with
  | nil =>
    cases h
    cases hc
  | cons c' rest' ih =>
    cases h with
    | keep hcc hrest =>
      rcases List.mem_cons.mp hc with rfl | hc
      · exact ⟨c', List.mem_cons_self, k, hcc⟩
      · obtain ⟨d', hd', hcd⟩ := ih hrest hc
        exact ⟨d', List.mem_cons_of_mem _ hd', hcd⟩
    | new _ hrest =>
      obtain ⟨d', hd', hcd⟩ := ih hrest hc
      exact ⟨d', List.mem_cons_of_mem _ hd', hcd⟩

theorem RereadAll.exists_new (h : RereadAll s s' name takes true k cs cs') :
    ∃ a ∈ cs', a.IsNew s' name := by
  induction cs' generalizing k cs with
  | nil => cases h
  | cons c' rest' ih =>
    cases h with
    | keep _ hrest =>
      obtain ⟨a, ha, hnew⟩ := ih hrest
      exact ⟨a, List.mem_cons_of_mem _ ha, hnew⟩
    | new ha _ => exact ⟨c', List.mem_cons_self, ha⟩

/-- An attribute keeps its name. -/
theorem Reread.isNamed (h : Reread s s' name takes k n n') (hn : n.isNamed s name = true) :
    n'.isNamed s' name = true := by
  have hkind' := h.alike.1
  obtain ⟨hkind, hany⟩ := Bool.and_eq_true_iff.mp hn
  have hkind : n.kind = "jsx_attribute" := by simpa using hkind
  cases h with
  | @node _ head head' cs cs' _ hname htag hchildren =>
    have hfree : k ∉ takes := by
      intro hk
      have hopening := (htag hk).kind
      rw [hkind] at hopening
      exact absurd hopening (by decide)
    rw [decide_eq_false hfree] at hchildren
    -- the name keeps its kind with its place among the parts, and its text by assumption
    have hparts : List.Forall₂ (fun c c' => ∃ i, Reread s s' name takes i c c')
        (Concrete.node head cs).parts (Concrete.node head' cs').parts := by
      refine List.rel_filter (fun c c' hc => ?_) hchildren.forall₂
      obtain ⟨i, hc⟩ := hc
      simp only [hc.alike.1, hc.alike.2.1]
    have hhead := rel_head? hparts
    have htext := hname hkind
    rw [Concrete.isNamed, hkind', hkind]
    generalize (Concrete.node head cs).parts.head? = o at hany hhead htext
    generalize (Concrete.node head' cs').parts.head? = o' at hhead htext ⊢
    cases hhead with
    | none => cases hany
    | @some c c' hc =>
      obtain ⟨i, hc⟩ := hc
      have htext : Convert.text s' c' = Convert.text s c := by simpa using htext
      simpa [isPlainName, hc.alike.1, htext] using hany

/-- A tag keeps an attribute that it has. -/
theorem Reread.carries (h : Reread s s' name takes k n n') (hn : n.carries s name = true) :
    n'.carries s' name = true := by
  obtain ⟨a, ha, hnamed⟩ := List.any_eq_true.mp hn
  obtain ⟨ha, hattr⟩ := List.mem_filter.mp ha
  obtain ⟨hmem, hpart⟩ := List.mem_filter.mp ha
  cases h with
  | node _ _ _ hchildren =>
    obtain ⟨a', ha', i, haa⟩ := hchildren.exists_of_mem hmem
    refine List.any_eq_true.mpr ⟨a', ?_, haa.isNamed hnamed⟩
    refine List.mem_filter.mpr ⟨List.mem_filter.mpr ⟨ha', ?_⟩, ?_⟩
    · rw [haa.alike.1, haa.alike.2.1, hpart]
    · rw [isAttribute, haa.alike.1, ← isAttribute, hattr]

theorem IsNew.isNamed (h : a.IsNew s name) : a.isNamed s name = true := by
  obtain ⟨c, value, hparts, hplain, htext, -⟩ := h.exists_parts
  simp [Concrete.isNamed, h.kind, hparts, hplain, htext]

/-- A taker has the attribute afterwards. -/
theorem Reread.carries_of_mem (h : Reread s s' name takes k n n') (hk : k ∈ takes) :
    n'.carries s' name = true := by
  cases h with
  | node _ _ _ hchildren =>
    rw [decide_eq_true hk] at hchildren
    obtain ⟨a, ha, hnew⟩ := hchildren.exists_new
    refine List.any_eq_true.mpr ⟨a, ?_, hnew.isNamed⟩
    refine List.mem_filter.mpr ⟨List.mem_filter.mpr ⟨ha, ?_⟩, ?_⟩
    · simp [hnew.named, hnew.kind]
    · simp [isAttribute, hnew.kind]

end

end Concrete

/-! ## The two trees -/

section

open Concrete Spot Relation

variable {s s' : SourceText} {name : String} {takes : List Nat} {root root' : Concrete}

/-- The numbered nodes of a tree, and those of the tree that is read again after a call. -/
def Recurs (source output : String) (call : TagCall) (root root' : Concrete) (u : Use)
    (m n' : Concrete) : Prop :=
  ∃ k n, root.Numbers k u n ∧ m = n.numbered k ∧
    Reread (.ofString source) (.ofString output) call.name (takers source root call) k n n' ∧
    n' ∈ root'.nodes

theorem Recurs.alike {source output : String} {call : TagCall} {u : Use} {m n' : Concrete}
    (h : Recurs source output call root root' u m n') : n'.kind = m.kind ∧
      n'.head.named = m.head.named ∧ n'.head.field = m.head.field := by
  obtain ⟨k, n, -, rfl, hn, -⟩ := h
  simp [hn.alike]

/-- A new attribute of the given name that the tree has. -/
def IsNewIn (source name : String) (root a : Concrete) : Prop :=
  a.IsNew (.ofString source) name ∧ a ∈ root.nodes

theorem Concrete.RereadAll.padded {u : Use} {n : Concrete} {more : Bool} {k : Nat}
    {cs cs' : List Concrete} (h : RereadAll s s' name takes more k cs cs')
    (hl : listingAll u n cs <+: (root.listing .plain).drop k)
    (hmem : ∀ c' ∈ cs', c' ∈ root'.nodes) :
    Padded (fun a => more = true ∧ a.IsNew s' name ∧ a ∈ root'.nodes)
      (fun m c' => ∃ i c, root.Numbers i (useOf u n c) c ∧ m = c.numbered i ∧
        Reread s s' name takes i c c' ∧ c' ∈ root'.nodes) (numberedAll k cs) cs' := by
  induction cs' generalizing more k cs with
  | nil =>
    cases h
    exact .nil
  | cons c' rest' ih =>
    obtain ⟨hc', hmem⟩ := List.forall_mem_cons.mp hmem
    cases h with
    | @keep _ _ c _ cs _ hc hrest =>
      obtain ⟨hnumber, hl⟩ := listingAll_cons hl
      exact .keep ⟨k, c, hnumber, rfl, hc, hc'⟩ (ih hrest hl hmem)
    | new ha hrest =>
      refine .pad ⟨rfl, ha, hc'⟩ ?_
      exact (ih hrest hl hmem).imp (fun _ ha => absurd ha.1 Bool.false_ne_true) fun _ _ hc => hc

/-! ## New attributes -/

theorem Concrete.LiesIn.exists_offsets {source : String} (h : root.LiesIn source) {n : Concrete}
    (hn : n ∈ root.nodes) : ∃ start stop,
      (SourceText.ofString source).charOffset n.head.start = .ok start ∧
        (SourceText.ofString source).charOffset n.head.stop = .ok stop := by
  obtain ⟨start, hstart⟩ := SourceText.exists_charOffset (h n hn).1
  obtain ⟨stop, hstop⟩ := SourceText.exists_charOffset (h n hn).2
  exact ⟨start, stop, hstart, hstop⟩

/-- A plain name becomes an identifier. -/
theorem Concrete.recipe_of_isPlainName {c : Concrete} (h : c.isPlainName = true) :
    recipe s .name c = some (.leaf s c "JSXIdentifier" "name") := by
  simp only [isPlainName, List.contains_cons, List.contains_nil, Bool.or_false, Bool.not_eq_true',
    Bool.or_eq_false_iff, beq_eq_false_iff_ne] at h
  rw [recipe, Recipe.name, if_neg h.1, if_neg (not_or.mpr h.2)]

/-- What a new attribute is made of: its name and its string. -/
theorem Concrete.IsNew.exists_recipe {a : Concrete} (h : a.IsNew s name) : ∃ c value,
    c ∈ a.children ∧ value ∈ a.children ∧ c.isPlainName = true ∧
      recipe s .expression value =
        some ⟨"StringLiteral", [("value", .text (Convert.inner (Convert.text s value)))]⟩ ∧
      recipe s .namedAttribute a =
        some ⟨"JSXAttribute", [("name", .one .name c), ("value", .one .expression value)]⟩ := by
  obtain ⟨c, value, hparts, hplain, -, hstring⟩ := h.exists_parts
  have hc : c ∈ a.children := mem_of_mem_parts (by rw [hparts]; simp)
  have hvalue : value ∈ a.children := mem_of_mem_parts (by rw [hparts]; simp)
  have hcore : value.core = some value := core_of_other (by rw [hstring]; decide)
  refine ⟨c, value, hc, hvalue, hplain, ?_, ?_⟩
  · simp only [recipe, Recipe.expression, hstring]
  · simp [recipe, Recipe.namedAttribute, hparts, Part.expression, hcore, Part.ofOption]

/-- A name is grown from every node with a plain name. -/
theorem Concrete.LiesIn.exists_name {source : String} (hroot : root.LiesIn source) {c : Concrete}
    (hc : c ∈ root.nodes) (hplain : c.isPlainName = true) :
    ∃ t, Grown (.ofString source) .name c t := by
  obtain ⟨_, _, hstart, hstop⟩ := hroot.exists_offsets hc
  exact ⟨_, .node (recipe_of_isPlainName hplain) ⟨hstart, hstop⟩ (.cons (.text _) .nil)⟩

theorem Concrete.IsNew.isPlainName {a : Concrete} (h : a.IsNew s name) : a.isPlainName = true := by
  simp [Concrete.isPlainName, h.kind]

/-- A tree is grown from a new attribute. -/
theorem Concrete.IsNew.exists_grown {source : String} {a : Concrete}
    (h : a.IsNew (.ofString source) name) (ha : a ∈ root.nodes) (hroot : root.LiesIn source) :
    ∃ t, Grown (.ofString source) .namedAttribute a t := by
  obtain ⟨c, value, hc, hvalue, hplain, hstring, hrecipe⟩ := h.exists_recipe
  have hmem {d : Concrete} (hd : d ∈ a.children) : d ∈ root.nodes :=
    nodes_subset_of_mem_nodes root ha (nodes_subset_of_mem_children hd d.mem_nodes_self)
  obtain ⟨_, _, hstart, hstop⟩ := hroot.exists_offsets ha
  obtain ⟨_, hname⟩ := hroot.exists_name (hmem hc) hplain
  obtain ⟨_, _, hstart', hstop'⟩ := hroot.exists_offsets (hmem hvalue)
  exact ⟨_, .node hrecipe ⟨hstart, hstop⟩ (.cons (.one hname)
    (.cons (.one (.node hstring ⟨hstart', hstop'⟩ (.cons (.text _) .nil))) .nil))⟩

/-- A new attribute has its name and its string below it, and nothing else; where it is taken for a
name, nothing is below it. -/
theorem Concrete.IsNew.mem_attributeKinds {a : Concrete} (h : a.IsNew s name) {x z : Spot}
    (hx : Grown s .namedAttribute a x.tree ∨ Grown s .name a x.tree) (hz : Within x z) :
    ∀ kind, z.tree.isA kind = true → kind ∈ attributeKinds := by
  obtain ⟨c, value, -, -, hplain, hstring, hrecipe⟩ := h.exists_recipe
  have hroles : Grown s .namedAttribute a z.tree ∨
      (∃ d, d.isPlainName = true ∧ Grown s .name d z.tree) ∨ Grown s .expression value z.tree := by
    induction hz with
    | refl => exact hx.imp id fun hname => .inl ⟨a, h.isPlainName, hname⟩
    | tail _ hchild ih =>
      rcases ih with hy | ⟨d, hd, hy⟩ | hy
      · obtain ⟨f, hf, hpart⟩ := hy.exists_part hrecipe hchild
        rcases List.mem_pair.mp hf with rfl | rfl
        · exact .inr (.inl ⟨c, hplain, by simpa using hpart⟩)
        · exact .inr (.inr (by simpa using hpart))
      · obtain ⟨f, hf, hpart⟩ := hy.exists_part (recipe_of_isPlainName hd) hchild
        obtain rfl := List.mem_singleton.mp hf
        simp at hpart
      · obtain ⟨f, hf, hpart⟩ := hy.exists_part hstring hchild
        obtain rfl := List.mem_singleton.mp hf
        simp at hpart
  intro kind hkind
  rcases hroles with hz | ⟨d, hd, hz⟩ | hz
  · rw [← (hz.isA_iff hrecipe).mp hkind]
    simp [attributeKinds]
  · rw [← (hz.isA_iff (recipe_of_isPlainName hd)).mp hkind]
    simp [attributeKinds, Recipe.leaf]
  · rw [← (hz.isA_iff hstring).mp hkind]
    simp [attributeKinds]

end

/-! ## The second pass -/

namespace Traced

open Concrete Spot Relation

variable {source output : String} {root root' : Concrete} {call : TagCall} {t trace t' : Tree}
  {count : Nat} {log : List Identity} (h : Traced source root t trace count log)
include h

/-- The trace corresponds to the tree that is read again: the takers stand where tags can have
attributes. -/
theorem bridge (output : String) (call : TagCall) (root' : Concrete) :
    Bridge (Recurs source output call root root') (IsNewIn output call.name root') := by
  have hpadded {u : Use} {k : Nat} {n n' : Concrete} (hk : root.Numbers k u n)
      (hn : Reread (.ofString source) (.ofString output) call.name (takers source root call) k n n')
      (hn' : n' ∈ root'.nodes) :
      Padded (fun a => k ∈ takers source root call ∧ IsNewIn output call.name root' a)
        (Under (Recurs source output call root root') u (n.numbered k)) (n.numbered k).children
        n'.children := by
    cases hn with
    | node _ _ _ hchildren =>
      have hmem := fun c' (hc' : c' ∈ _) => nodes_subset_of_mem_nodes root' hn'
        (nodes_subset_of_mem_children hc' c'.mem_nodes_self)
      refine (hchildren.padded hk.listingAll hmem).imp (fun a ha => ?_) ?_
      · exact ⟨by simpa using ha.1, ha.2⟩
      · rintro _ c' ⟨i, c, hi, rfl, hc, hc'⟩
        exact ⟨i, c, by rwa [useOf_numbered], rfl, hc, hc'⟩
  refine ⟨Recurs.alike, ?_, ?_, ?_, ?_⟩
  · rintro u _ n' ⟨k, n, hk, rfl, hn, hn'⟩ hgrows
    refine (hpadded hk hn hn').forall₂ fun a ha => hgrows ?_
    simpa [MayGrow] using h.mayGrow ha.1 hk (hn.staysTag ha.1).kind
  · rintro u _ n' ⟨k, n, hk, rfl, hn, hn'⟩
    exact (hpadded hk hn hn').imp (fun a ha => ha.2) fun _ _ hc => hc
  · rintro a ⟨hnew, -⟩
    exact ⟨hnew.named, hnew.kind⟩
  · rintro u _ n' ⟨k, n, hk, rfl, hn, hn'⟩ hfield hnone
    have hname : Option.Rel _ ((n.numbered k).child? "name") (n'.child? "name") ∨ _ :=
      (hpadded hk hn hn').find? fun _ _ hc => by rw [(Recurs.alike hc).2.2]
    rcases hname with hname | ⟨a, ha, -⟩
    · rw [hnone] at hname
      generalize n'.child? "name" = o at hname ⊢
      cases hname
      rfl
    · have hnone := (Bridge.unnumbered root).nameless ⟨k, hk, rfl⟩ hfield hnone
      exact (hn.staysTag ha.1).nameless (by simpa using hfield) hnone

variable (hre : Reread (.ofString source) (.ofString output) call.name (takers source root call) 0
  root root')
include hre

/-- The text that is read again has a tree. -/
theorem exists_file (hvalid : root'.LiesIn output) :
    ∃ t', fileOfConcrete output root' = .ok t' := by
  have hfertile : Fertile (Recurs source output call root root') (IsNewIn output call.name root')
      (.ofString output) := by
    refine ⟨?_, fun a ha => ha.1.exists_grown ha.2 hvalid,
      fun a ha => hvalid.exists_name ha.2 ha.1.isPlainName⟩
    rintro u _ n' ⟨k, n, -, -, -, hn'⟩
    exact hvalid.exists_offsets hn'
  obtain ⟨t', ht'⟩ := h.grownTrace.exists_counterpart (h.bridge output call root') hfertile
    (.file ⟨0, root, root.numbers_root, rfl, hre, root'.mem_nodes_self⟩)
  have herror := (fileOfConcrete_eq_ok_iff.mp h.file).1
  exact ⟨t', fileOfConcrete_eq_ok_iff.mpr ⟨hre.alike.2.2.2.trans herror, ht'⟩⟩

variable (ht' : Grown (.ofString output) .file root' t')
include ht'

/-- A topmost element of the new tree comes from one of the old tree, and the trace has an element
there too. -/
theorem exists_topmost {y' : Spot} (hy' : Topmost (.root t') y') :
    ∃ y z, Topmost (.root trace) y ∧ Topmost (.root t) z ∧
      Twin (Recurs source output call root root') (IsNewIn output call.name root') (.ofString "")
        (.ofString output) y y' ∧
      Twin root.NumberedAs (fun _ => False) (.ofString source) (.ofString "") z y := by
  have htwin : Twin (Recurs source output call root root') (IsNewIn output call.name root')
      (.ofString "") (.ofString output) (.root trace) (.root t') :=
    ⟨⟨.file, _, root', .file ⟨0, root, root.numbers_root, rfl, hre, root'.mem_nodes_self⟩,
      h.grownTrace, ht'⟩, fun _ => rfl⟩
  have htwin' : Twin root.NumberedAs (fun _ => False) (.ofString source) (.ofString "") (.root t)
      (.root trace) :=
    ⟨⟨.file, root, _, .file ⟨0, root.numbers_root, rfl⟩, h.grown, h.grownTrace⟩, fun _ => rfl⟩
  obtain ⟨y, hy, hyy⟩ := htwin.topmost (h.bridge output call root')
    (fun z ⟨_, ⟨_, hnew, hgrown⟩, hz⟩ => hnew.1.mem_attributeKinds hgrown hz) hy'
  obtain ⟨z, hz, hzy⟩ := htwin'.topmost (Bridge.numbered root)
    (fun z ⟨_, ⟨_, hfalse, _⟩, _⟩ => hfalse.elim) hy
  exact ⟨y, z, hy, hz, hyy, hzy⟩

omit hre ht' in
/-- The tag of a topmost element has the number that the trace has there. -/
theorem mem_topmostNumbers_of_twin {y z : Spot} (hy : Topmost (.root trace) y)
    (hz : Topmost (.root t) z)
    (hzy : Twin root.NumberedAs (fun _ => False) (.ofString source) (.ofString "") z y) {k : Nat}
    {n : Concrete} {selfClosing : Bool}
    (htrace : Grown (.ofString "") (.openingTag selfClosing) (n.numbered k)
      (y.get "openingElement").tree) : k ∈ topmostNumbers source root := by
  have hx := hzy.get (Bridge.numbered root) (show "openingElement" ∉ ownKeys by decide)
    htrace.isNode
  have hkind : (z.get "openingElement").tree.isA "JSXOpeningElement" = true := by
    rw [← hx.isA (Bridge.numbered root)]
    exact htrace.isA_openingElement
  have hwithin : Within (.root t) (z.get "openingElement") :=
    hz.within.tail (child_get (by decide) (Tree.isNode_of_isA hkind))
  have hwithin' : Within (.root trace) (y.get "openingElement") :=
    hy.within.tail (child_get (by decide) htrace.isNode)
  have htag : z.HasTag := (locate_exec (h.taggable.located ⟨"", []⟩)).1 z hz
  refine (h.mem_topmostNumbers "" k).mpr ⟨_, hwithin, ?_, ?_⟩
  · exact (isMarkedTag_ofLog_iff h.taggable.keys h.taggable.located "" hwithin).mpr
      ⟨hkind, z, hz, htag, rfl⟩
  · rw [hx.place fun _ => id]
    exact h.grownTrace.numberAt? hwithin' htrace (by simp)

/-- The tags of the topmost elements all have the attribute. -/
theorem carries_tag {y' : Spot} (hy' : Topmost (.root t') y')
    (htag : (y'.get "openingElement").tree.isOpeningTag = true) :
    (y'.get "openingElement").tree.carries call.name = true := by
  have hkey : "openingElement" ∉ ownKeys := by decide
  obtain ⟨y, z, hy, hz, hyy, hzy⟩ := h.exists_topmost hre ht' hy'
  have hx := hyy.get (h.bridge output call root') hkey
    (Tree.isNode_of_isA (Bool.and_eq_true_iff.mp htag).1)
  obtain ⟨role, _, n', ⟨u, ⟨k, n, hk, rfl, hn, -⟩, -⟩, htrace, hgrown⟩ := hx.grown
  obtain ⟨selfClosing, rfl⟩ := hgrown.role_of_isOpeningTag htag
  rw [hgrown.carries_eq]
  by_cases hmem : k ∈ takers source root call
  · exact hn.carries_of_mem hmem
  · -- a topmost tag that did not take the attribute had it before
    have htopmost := h.mem_topmostNumbers_of_twin hy hz hzy htrace
    refine hn.carries (eq_true_of_ne_false fun hlacks => hmem ?_)
    exact (h.mem_takers_iff call hk.getElem?).mpr ⟨htopmost, hlacks⟩

/-- The search goes through in the new tree as it did in the old one. -/
theorem exists_taggable : ∃ count' log', Taggable t' count' log' := by
  obtain ⟨r, log', hleaves, hok, -⟩ := locate_marks (.root t')
  have htags : ∀ y', Topmost (.root t') y' → y'.HasTag := by
    intro y' hy'
    obtain ⟨y, z, -, hz, hyy, hzy⟩ := h.exists_topmost hre ht' hy'
    have hz : z.HasTag := (locate_exec (h.taggable.located ⟨"", []⟩)).1 z hz
    exact hyy.hasTag (h.bridge output call root') (hzy.hasTag (Bridge.numbered root) hz)
  obtain ⟨count', rfl⟩ := hok.mpr ⟨fun _ => ht'.scannable, htags⟩
  exact ⟨count', log', ht'.taggable hleaves⟩

/-- No tag of the new tree lacks the attribute. -/
theorem targets_eq_nil {count' : Nat} {log' : List Identity} (htaggable : Taggable t' count' log')
    (display : String) : targets (.ofLog display log') call.name t' = [] := by
  refine List.eq_nil_iff_forall_not_mem.mpr fun x' hx' => ?_
  obtain ⟨hwithin, htarget⟩ := mem_targets.mp hx'
  obtain ⟨hmark, hlacks⟩ := Bool.and_eq_true_iff.mp htarget
  obtain ⟨-, -, _, _, -, htag⟩ := ht'.exists_tag htaggable.located hwithin hmark
  obtain ⟨-, y', hy', -, rfl⟩ :=
    (isMarkedTag_ofLog_iff htaggable.keys htaggable.located display hwithin).mp hmark
  rw [h.carries_tag hre ht' hy' htag.isOpeningTag] at hlacks
  cases hlacks

/-- Another pass with the same name leaves the new tree as it is. -/
theorem run_eq (call' : TagCall) (hname : call'.name = call.name) :
    (call'.run t').tree = t' ∧ (call'.run t').fault = none := by
  obtain ⟨count', log', htaggable⟩ := h.exists_taggable hre ht'
  have hfault : (call'.run t').fault = none := by
    have hstep := htaggable.run_step call' []
    rw [Tree.withAttributes_lackingAt_nil] at hstep
    exact hstep.2
  refine ⟨?_, hfault⟩
  cases henabled : call'.enabled with
  | false => exact (run_of_disabled henabled t').1
  | true =>
    rw [(of_run_ok henabled htaggable.keys hfault).2, locateTopmost_eq htaggable.located, hname,
      ← map_place_targets, h.targets_eq_nil hre ht' htaggable]
    exact Tree.withAttributes_of_nil fun _ _ => rfl

end Traced

theorem tagConcrete_of_run {source output : String} {root : Concrete} {call : TagCall} {t : Tree}
    (hfile : fileOfConcrete source root = .ok t) (hfault : (call.run t).fault = none)
    (hrender : render source (call.run t).tree = .ok output) :
    (tagConcrete source root call.path call.settings).result = .ok output := by
  rw [TagCall.run] at hfault hrender
  rw [tagConcrete, hfile]
  simp only [tagParsed]
  split
  · rename_i hrun
    rw [hrun] at hfault
    cases hfault
  · rename_i hrun
    rw [hrun] at hrender
    rw [hrender]
    rfl

/-- Tagging is idempotent on texts. When the text that an enabled call gives is read again, and the
tree is the old one with one attribute more in each tag that took one, then every call with the same
name, whatever its path and its other settings, gives that text and adds no attribute to its tree.
Only real tags take attributes here (`Concrete.StaysTag`). -/
theorem tagConcrete_of_reread (source : String) (root : Concrete) (call : TagCall)
    (henabled : call.enabled = true) (output : String)
    (h : (tagConcrete source root call.path call.settings).result = .ok output) (root' : Concrete)
    (hvalid : root'.LiesIn output)
    (hre : Concrete.Reread (.ofString source) (.ofString output) call.name
      (takers source root call) 0 root root')
    (call' : TagCall) (hname : call'.name = call.name) :
    (tagConcrete output root' call'.path call'.settings).result = .ok output ∧
      ∃ t', fileOfConcrete output root' = .ok t' ∧
        (tagTree t' call'.path call'.settings).tree = t' := by
  obtain ⟨t, trace, count, log, htraced, -⟩ := exists_traced henabled h
  obtain ⟨t', hfile⟩ := htraced.exists_file hre hvalid
  have hgrown := (fileOfConcrete_eq_ok_iff.mp hfile).2
  obtain ⟨htree, hfault⟩ := htraced.run_eq hre hgrown call' hname
  have hrender := render_of_isRead hgrown.hasDistinctKeys hgrown.isNode
    (fun _ => hgrown.isRead_of_within) output
  exact ⟨tagConcrete_of_run hfile hfault (by rwa [htree]), t', hfile, htree⟩

/-- A component that returns an element with another one in an attribute. The inner element has an
attribute `é` and the outer one has not. -/
def nestedSource : String := "const A = () => <A b=\x7b<i é=\"x\" />\x7d />;"

def nestedTag : Concrete :=
  .node ⟨"jsx_self_closing_element", 16, 38, true, some "body", false, false⟩
    [.node ⟨"identifier", 17, 18, true, some "name", false, false⟩ [],
      .node ⟨"jsx_attribute", 19, 35, true, some "attribute", false, false⟩
        [.node ⟨"property_identifier", 19, 20, true, none, false, false⟩ [],
          .node ⟨"jsx_expression", 21, 35, true, none, false, false⟩
            [.node ⟨"jsx_self_closing_element", 22, 34, true, none, false, false⟩
              [.node ⟨"identifier", 23, 24, true, some "name", false, false⟩ [],
                .node ⟨"jsx_attribute", 25, 31, true, some "attribute", false, false⟩
                  [.node ⟨"property_identifier", 25, 27, true, none, false, false⟩ [],
                    .node ⟨"string", 28, 31, true, none, false, false⟩ []]]]]]

def nestedOutput : String := "const A = () => <A b=\x7b<i é=\"x\" />\x7d é=\"src/A.tsx\" />;"

/-- The attribute that is new in `nestedOutput`. -/
def nestedAttribute : Concrete :=
  .node ⟨"jsx_attribute", 36, 50, true, some "attribute", false, false⟩
    [.node ⟨"property_identifier", 36, 38, true, none, false, false⟩ [],
      .node ⟨"=", 38, 39, false, none, false, false⟩ [],
      .node ⟨"string", 39, 50, true, none, false, false⟩ []]

def nestedTagAgain : Concrete :=
  .node { nestedTag.head with stop := 53 } (nestedTag.children ++ [nestedAttribute])

theorem nestedAttribute_isNew : nestedAttribute.IsNew (.ofString nestedOutput) "é" := by
  refine ⟨rfl, rfl, _, _, rfl, rfl, by decide, ?_, rfl⟩
  decide +kernel

theorem nestedTag_reread : Concrete.Reread (.ofString nestedSource) (.ofString nestedOutput) "é" [7]
    0 (soleComponent 38 nestedTag) (soleComponent 53 nestedTagAgain) := by
  have leaf {k : Nat} {h : Concrete.Head} (start stop : Nat) (hk : k ∉ [7])
      (hkind : h.kind ≠ "jsx_attribute") :
      Concrete.Reread (.ofString nestedSource) (.ofString nestedOutput) "é" [7] k (.node h [])
        (.node { h with start := start, stop := stop } []) := by
    refine .node rfl (fun hattr => absurd hattr hkind) (fun htag => absurd htag hk) ?_
    rw [decide_eq_false hk]
    exact .nil
  have other {k : Nat} {n n' : Concrete} (hk : k ∉ [7]) : k ∈ [7] → n.StaysTag n' :=
    fun htag => absurd htag hk
  refine .node rfl (by simp) (other (by decide)) (.keep ?_ .nil)
  refine .node rfl (by simp) (other (by decide))
    (.keep (leaf 0 5 (by decide) (by decide)) (.keep ?_ .nil))
  refine .node rfl (by simp) (other (by decide))
    (.keep (leaf 6 7 (by decide) (by decide)) (.keep ?_ .nil))
  refine .node rfl (by simp) (other (by decide))
    (.keep (leaf 10 12 (by decide) (by decide)) (.keep ?_ .nil))
  refine .node rfl (by simp) (fun _ => ⟨by decide, nofun⟩) (.keep
    (leaf 17 18 (by decide) (by decide)) (.keep ?_ (.new nestedAttribute_isNew .nil)))
  refine .node rfl (by decide +kernel) (other (by decide))
    (.keep (leaf 19 20 (by decide) (by decide)) (.keep ?_ .nil))
  refine .node rfl (by simp) (other (by decide)) (.keep ?_ .nil)
  refine .node rfl (by simp) (other (by decide))
    (.keep (leaf 23 24 (by decide) (by decide)) (.keep ?_ .nil))
  exact .node rfl (by decide +kernel) (other (by decide))
    (.keep (leaf 25 27 (by decide) (by decide))
      (.keep (leaf 28 31 (by decide) (by decide)) .nil))

/-- The second pass has no path and another root. -/
theorem tagConcrete_nestedTagAgain :
    (tagConcrete nestedSource (soleComponent 38 nestedTag) (plainCall "é").path
        (plainCall "é").settings).result = .ok nestedOutput ∧
      (soleComponent 53 nestedTagAgain).LiesIn nestedOutput ∧
      Concrete.Reread (.ofString nestedSource) (.ofString nestedOutput) (plainCall "é").name
        (takers nestedSource (soleComponent 38 nestedTag) (plainCall "é")) 0
        (soleComponent 38 nestedTag) (soleComponent 53 nestedTagAgain) ∧
      (tagConcrete nestedOutput (soleComponent 53 nestedTagAgain) .absent
        ⟨"lib/", "é", true⟩).result = .ok nestedOutput ∧
      ∃ t', fileOfConcrete nestedOutput (soleComponent 53 nestedTagAgain) = .ok t' ∧
        (tagTree t' .absent ⟨"lib/", "é", true⟩).tree = t' := by
  have hoption : (tagConcrete nestedSource (soleComponent 38 nestedTag) (plainCall "é").path
      (plainCall "é").settings).result.toOption = some nestedOutput := by decide +kernel
  have htakers : takers nestedSource (soleComponent 38 nestedTag) (plainCall "é") = [7] := by
    decide +kernel
  have hvalid : (soleComponent 53 nestedTagAgain).LiesIn nestedOutput := by decide +kernel
  have hre : Concrete.Reread (.ofString nestedSource) (.ofString nestedOutput) (plainCall "é").name
      (takers nestedSource (soleComponent 38 nestedTag) (plainCall "é")) 0
      (soleComponent 38 nestedTag) (soleComponent 53 nestedTagAgain) := by
    rw [htakers]
    exact nestedTag_reread
  cases hresult : (tagConcrete nestedSource (soleComponent 38 nestedTag) (plainCall "é").path
      (plainCall "é").settings).result with
  | error e =>
    rw [hresult] at hoption
    cases hoption
  | ok output =>
    rw [hresult] at hoption
    cases Option.some.inj hoption
    exact ⟨rfl, hvalid, hre, tagConcrete_of_reread nestedSource (soleComponent 38 nestedTag)
      (plainCall "é") rfl nestedOutput hresult (soleComponent 53 nestedTagAgain) hvalid hre
      ⟨.absent, ⟨"lib/", "é", true⟩⟩ rfl⟩

end TopTag
