import TopTag.Proofs.Numbering

/-!
# Which tags are stamped, and where

A topmost tag takes the new attribute unless it has a plain attribute of that name already
(`stamped_iff_lacks`); a name with a namespace does not count, so such an attribute is written a
second time. The text goes behind the last attribute, or behind the name when there is none: all
that stands before stays before it, and all that follows is moved away (`stamped_behind_lastPart`),
the type arguments of a tag without attributes among it.
-/

namespace TopTag

/-! ## Names -/

/-- No second attribute where there is a plain one. The text after an enabled call is the source
with one text inserted for each of some tags, and these are the topmost tags without a plain
attribute of the call's name. -/
theorem stamped_iff_lacks (source : String) (root : Concrete) (call : TagCall)
    (henabled : call.enabled = true) (output : String)
    (h : (tagConcrete source root call.path call.settings).result = .ok output) :
    ∃ stamps : List Stamp,
      Splice.apply source (stamps.map fun stamp =>
        ⟨.int stamp.offset, writtenAttribute (call.name, call.display)⟩) = .ok output ∧
      (∀ stamp ∈ stamps, stamp.Fits source root) ∧
      ∀ k tag, root.nodes[k]? = some tag → (k ∈ stamps.map Stamp.number ↔
        k ∈ topmostNumbers source root ∧ tag.carries (.ofString source) call.name = false) := by
  obtain ⟨t, trace, count, log, htraced, -⟩ := exists_traced henabled h
  obtain ⟨stamps, hnumbers, happly, hfits⟩ := exists_stamps henabled h
  refine ⟨stamps, happly, hfits, fun k tag hk => ?_⟩
  rw [hnumbers]
  exact htraced.mem_takers_iff call hk

def plainCall (name : String) : TagCall := ⟨.text "src/A.tsx", ⟨"src/", name, true⟩⟩

/-- The first of three tags has an attribute `é`, and the other two take one. -/
theorem stamped_choiceTags_lacking :
    topmostNumbers choiceSource choiceProgram = [9, 17, 14] ∧
      ∃ (output : String) (stamps : List Stamp),
        (tagConcrete choiceSource choiceProgram (plainCall "é").path
          (plainCall "é").settings).result = .ok output ∧
        Splice.apply choiceSource (stamps.map fun stamp =>
          ⟨.int stamp.offset, " é=\"src/A.tsx\""⟩) = .ok output ∧
        (∀ stamp ∈ stamps, stamp.Fits choiceSource choiceProgram) ∧
        9 ∉ stamps.map Stamp.number ∧ 14 ∈ stamps.map Stamp.number ∧
          17 ∈ stamps.map Stamp.number := by
  have htopmost : topmostNumbers choiceSource choiceProgram = [9, 17, 14] := by decide +kernel
  have hok : (tagConcrete choiceSource choiceProgram (plainCall "é").path
      (plainCall "é").settings).result.isOk = true := by decide +kernel
  have htext : writtenAttribute ((plainCall "é").name, (plainCall "é").display) =
      " é=\"src/A.tsx\"" := by decide +kernel
  cases hresult : (tagConcrete choiceSource choiceProgram (plainCall "é").path
      (plainCall "é").settings).result with
  | error e =>
    rw [hresult] at hok
    cases hok
  | ok output =>
    obtain ⟨stamps, happly, hfits, hiff⟩ :=
      stamped_iff_lacks choiceSource choiceProgram (plainCall "é") rfl output hresult
    rw [htext] at happly
    rw [htopmost] at hiff
    refine ⟨htopmost, output, stamps, rfl, happly, hfits, ?_, ?_, ?_⟩
    · rw [hiff 9 choiceOuterTag rfl]
      decide +kernel
    · rw [hiff 14 choiceInnerTag rfl]
      decide +kernel
    · rw [hiff 17 _ rfl]
      decide +kernel

/-- A variable with a function of no parameters that returns a tag. -/
def soleComponent (stop : Nat) (tag : Concrete) : Concrete :=
  .node ⟨"program", 0, stop + 1, true, none, false, false⟩
    [.node ⟨"lexical_declaration", 0, stop + 1, true, none, false, false⟩
      [.node ⟨"const", 0, 5, false, some "kind", false, false⟩ [],
        .node ⟨"variable_declarator", 6, stop, true, none, false, false⟩
          [.node ⟨"identifier", 6, 7, true, some "name", false, false⟩ [],
            .node ⟨"arrow_function", 10, stop, true, some "value", false, false⟩
              [.node ⟨"formal_parameters", 10, 12, true, some "parameters", false, false⟩ [],
                tag]]]]

/-- A component that returns one element with an attribute `data:src`. -/
def namespacedSource : String := "const A = () => <a data:src=\"x\" />;"

def namespacedTag : Concrete :=
  .node ⟨"jsx_self_closing_element", 16, 34, true, some "body", false, false⟩
    [.node ⟨"<", 16, 17, false, none, false, false⟩ [],
      .node ⟨"identifier", 17, 18, true, some "name", false, false⟩ [],
      .node ⟨"jsx_attribute", 19, 31, true, some "attribute", false, false⟩
        [.node ⟨"jsx_namespace_name", 19, 27, true, none, false, false⟩ [],
          .node ⟨"=", 27, 28, false, none, false, false⟩ [],
          .node ⟨"string", 28, 31, true, none, false, false⟩ []],
      .node ⟨"/>", 32, 34, false, none, false, false⟩ []]

/-- An attribute with a namespace is not seen, and comes a second time. -/
theorem stamped_beside_namespaced :
    takers namespacedSource (soleComponent 34 namespacedTag) (plainCall "data:src") = [7] ∧
      (soleComponent 34 namespacedTag).nodes[7]? = some namespacedTag ∧
      (∃ a ∈ namespacedTag.attributeParts, a.kind = "jsx_attribute" ∧
        a.parts.head?.map (Convert.text (.ofString namespacedSource)) = some "data:src") ∧
      (tagConcrete namespacedSource (soleComponent 34 namespacedTag) (plainCall "data:src").path
        (plainCall "data:src").settings).result.toOption =
          some "const A = () => <a data:src=\"x\" data:src=\"src/A.tsx\" />;" := by
  refine ⟨by decide +kernel, rfl, ?_, by decide +kernel⟩
  exact ⟨_, List.mem_cons_self, rfl, by decide +kernel⟩

/-! ## Ranges -/

theorem exists_split_of_getLast?_filter {α : Type} {p : α → Bool} {l : List α} {a : α}
    (h : (l.filter p).getLast? = some a) :
    ∃ before after, l = before ++ a :: after ∧ ∀ b ∈ after, p b = false := by
  obtain ⟨front, hfront⟩ := List.getLast?_eq_some_iff.mp h
  obtain ⟨l₁, l₂, rfl, -, hlast⟩ := List.filter_eq_append_iff.mp hfront
  obtain ⟨before, after, rfl, -, -, hafter⟩ := List.filter_eq_cons_iff.mp hlast
  refine ⟨l₁ ++ before, after, by simp, fun b hb => ?_⟩
  simpa using List.filter_eq_nil_iff.mp hafter b hb

namespace Concrete

/-- Ranges run forward, lie in the range of the node above, and follow one another. -/
def Ranged (root : Concrete) : Prop := ∀ n ∈ root.nodes, n.head.start ≤ n.head.stop ∧
  (∀ c ∈ n.children, n.head.start ≤ c.head.start ∧ c.head.stop ≤ n.head.stop) ∧
  n.children.Pairwise fun a b => a.head.stop ≤ b.head.start

instance (root : Concrete) : Decidable root.Ranged :=
  inferInstanceAs (Decidable (∀ n ∈ root.nodes, _ ∧ _))

/-- The last part of a tag stands among its children, and no attribute stands behind it. -/
theorem exists_split_of_lastPart? {tag last : Concrete} (h : tag.lastPart? = some last) :
    ∃ before after, tag.children = before ++ last :: after ∧
      ∀ a ∈ tag.attributeParts, a ∈ before ++ [last] := by
  rw [lastPart?, Option.or_eq_some_iff] at h
  rcases h with hlast | ⟨hnone, hname⟩
  · rw [attributeParts, parts, List.filter_filter] at hlast
    obtain ⟨before, after, hsplit, hafter⟩ := exists_split_of_getLast?_filter hlast
    refine ⟨before, after, hsplit, fun a ha => ?_⟩
    rw [attributeParts, parts, List.filter_filter, hsplit] at ha
    obtain ⟨hmem, ha⟩ := List.mem_filter.mp ha
    rcases List.mem_append.mp hmem with hbefore | hmem
    · exact List.mem_append_left _ hbefore
    · rcases List.mem_cons.mp hmem with rfl | hmem
      · simp
      · exact absurd ha (by simp [hafter a hmem])
  · obtain ⟨before, after, hsplit⟩ := List.append_of_mem (child?_eq_some hname).1
    refine ⟨before, after, hsplit, fun a ha => ?_⟩
    rw [List.getLast?_eq_none_iff.mp hnone] at ha
    cases ha

end Concrete

/-- A stamp cuts its tag behind the last part: what stands up to there, all attributes among it,
ends before the offset, and what follows begins behind it. -/
structure Stamp.Cuts (source : String) (root : Concrete) (stamp : Stamp) (tag last : Concrete)
    (before after : List Concrete) : Prop where
  number : root.nodes[stamp.number]? = some tag
  lastPart : tag.lastPart? = some last
  children : tag.children = before ++ last :: after
  offset : (SourceText.ofString source).charOffset last.head.stop = .ok stamp.offset
  attributes : ∀ a ∈ tag.attributeParts, a ∈ before ++ [last]
  stops : ∀ c ∈ before ++ [last], ∃ stop,
    (SourceText.ofString source).charOffset c.head.stop = .ok stop ∧ stop ≤ stamp.offset
  starts : ∀ c ∈ after, ∀ start,
    (SourceText.ofString source).charOffset c.head.start = .ok start → stamp.offset ≤ start
  /-- The offset is behind all parts of a tag none of whose parts follows. -/
  parts : (∀ c ∈ after, c ∉ tag.parts) → ∀ c ∈ tag.parts, ∃ stop,
    (SourceText.ofString source).charOffset c.head.stop = .ok stop ∧ stop ≤ stamp.offset

theorem Stamp.Fits.exists_cuts {source : String} {root : Concrete} {stamp : Stamp}
    (h : stamp.Fits source root) (hroot : root.Ranged) :
    ∃ tag last before after, stamp.Cuts source root tag last before after := by
  obtain ⟨tag, last, htag, hlast, hoffset⟩ := h
  obtain ⟨before, after, hsplit, hattr⟩ := Concrete.exists_split_of_lastPart? hlast
  have hmem : tag ∈ root.nodes := List.mem_of_getElem? htag
  have hmemLast : last ∈ root.nodes := Concrete.nodes_subset_of_mem_nodes root hmem
    (Concrete.nodes_subset_of_mem_children (by rw [hsplit]; simp) last.mem_nodes_self)
  have hforward := (hroot last hmemLast).1
  have hordered := (hroot tag hmem).2.2
  rw [hsplit] at hordered
  obtain ⟨-, hbehind, hbefore⟩ := List.pairwise_append.mp hordered
  have hclear : ∀ c ∈ before ++ [last], ∃ stop,
      (SourceText.ofString source).charOffset c.head.stop = .ok stop ∧ stop ≤ stamp.offset := by
    intro c hc
    have hle : c.head.stop ≤ last.head.stop := by
      rcases List.mem_append.mp hc with hc | hc
      · exact Nat.le_trans (hbefore c hc last List.mem_cons_self) hforward
      · exact Nat.le_of_eq (by rw [List.mem_singleton.mp hc])
    exact SourceText.charOffset_mono hle hoffset
  refine ⟨tag, last, before, after, htag, hlast, hsplit, hoffset, hattr, hclear, ?_, ?_⟩
  · intro c hc start hstart
    have hle := (List.pairwise_cons.mp hbehind).1 c hc
    obtain ⟨i, hi, hle⟩ := SourceText.charOffset_mono hle hstart
    cases hoffset.symm.trans hi
    exact hle
  · intro hafter c hc
    have hmem := Concrete.mem_of_mem_parts hc
    rw [hsplit, List.append_cons] at hmem
    rcases List.mem_append.mp hmem with hmem | hmem
    · exact hclear c hmem
    · exact absurd hc (hafter c hmem)

/-- The new attribute goes behind the last attribute of its tag, or behind the name when there is
none. With ranges in order, whatever stands before that in the tag ends before the insertion, and so
do all attributes; whatever follows begins behind it. So the insertion is behind every part of the
tag where no part follows the last attribute, or the name. -/
theorem stamped_behind_lastPart (source : String) (root : Concrete) (hroot : root.Ranged)
    (call : TagCall) (henabled : call.enabled = true) (output : String)
    (h : (tagConcrete source root call.path call.settings).result = .ok output) :
    ∃ stamps : List Stamp, stamps.map Stamp.number = takers source root call ∧
      Splice.apply source (stamps.map fun stamp =>
        ⟨.int stamp.offset, writtenAttribute (call.name, call.display)⟩) = .ok output ∧
      ∀ stamp ∈ stamps, ∃ tag last before after, stamp.Cuts source root tag last before after := by
  obtain ⟨stamps, hnumbers, happly, hfits⟩ := exists_stamps henabled h
  exact ⟨stamps, hnumbers, happly, fun stamp hstamp => (hfits stamp hstamp).exists_cuts hroot⟩

theorem stamped_behind_choiceTags :
    choiceProgram.Ranged ∧ ∃ (output : String) (stamps : List Stamp),
      (tagConcrete choiceSource choiceProgram choiceCall.path choiceCall.settings).result =
        .ok output ∧
      Splice.apply choiceSource (stamps.map fun stamp =>
        ⟨.int stamp.offset, " data-path=\"src/&quot;A&quot;.tsx\""⟩) = .ok output ∧
      stamps.map Stamp.number = [9, 14, 17] ∧
      ∀ stamp ∈ stamps, ∃ tag last before after, stamp.Cuts choiceSource choiceProgram tag last
        before after := by
  have hranged : choiceProgram.Ranged := by decide +kernel
  have hok : (tagConcrete choiceSource choiceProgram choiceCall.path
      choiceCall.settings).result.isOk = true := by decide +kernel
  have htakers : takers choiceSource choiceProgram choiceCall = [9, 14, 17] := by decide +kernel
  have htext : writtenAttribute (choiceCall.name, choiceCall.display) =
      " data-path=\"src/&quot;A&quot;.tsx\"" := by decide +kernel
  cases hresult : (tagConcrete choiceSource choiceProgram choiceCall.path
      choiceCall.settings).result with
  | error e =>
    rw [hresult] at hok
    cases hok
  | ok output =>
    obtain ⟨stamps, hnumbers, happly, hcuts⟩ := stamped_behind_lastPart choiceSource choiceProgram
      hranged choiceCall rfl output hresult
    rw [htext] at happly
    exact ⟨hranged, output, stamps, rfl, happly, hnumbers.trans htakers, hcuts⟩

/-- A component that returns one element, which has no attributes but type arguments. -/
def genericSource : String := "const A = () => <Foo<string> />;"

def genericTag : Concrete :=
  .node ⟨"jsx_self_closing_element", 16, 31, true, some "body", false, false⟩
    [.node ⟨"<", 16, 17, false, none, false, false⟩ [],
      .node ⟨"identifier", 17, 20, true, some "name", false, false⟩ [],
      .node ⟨"type_arguments", 20, 28, true, some "type_arguments", false, false⟩
        [.node ⟨"predefined_type", 21, 27, true, none, false, false⟩ []],
      .node ⟨"/>", 29, 31, false, none, false, false⟩ []]

/-- The new attribute of a tag without attributes comes between its name and its type arguments. -/
theorem stamped_before_typeArguments :
    (soleComponent 31 genericTag).Ranged ∧
      takers genericSource (soleComponent 31 genericTag) (plainCall "__file-path") = [7] ∧
      (soleComponent 31 genericTag).nodes[7]? = some genericTag ∧
      (∃ c ∈ genericTag.parts, c.kind = "type_arguments" ∧ c.head.start = 20 ∧ c.head.stop = 28) ∧
      (tagConcrete genericSource (soleComponent 31 genericTag) (plainCall "__file-path").path
        (plainCall "__file-path").settings).result.toOption =
          some "const A = () => <Foo __file-path=\"src/A.tsx\"<string> />;" := by
  refine ⟨by decide +kernel, by decide +kernel, rfl, ?_, by decide +kernel⟩
  exact ⟨_, List.mem_cons_of_mem _ List.mem_cons_self, rfl, rfl, rfl⟩

end TopTag
