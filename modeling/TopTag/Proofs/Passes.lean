import TopTag.Proofs.Injected
import TopTag.Proofs.Nesting
import TopTag.Tagging

/-!
# Sequences of passes

A tree may be tagged over and over, under different paths and settings. Each pass finds the tags
that the first one found, since added attributes are not seen by the search. So after any number of
passes every topmost tag has one attribute for each name used, from the first pass that used it.
-/

namespace TopTag

open Spot Marking

/-- One call: the file's path and the settings. -/
structure TagCall where
  path : PathInput
  settings : Settings

namespace TagCall

def enabled (call : TagCall) : Bool := call.settings.enabled

def name (call : TagCall) : String := call.settings.attributeName

/-- The text that the call writes. -/
def display (call : TagCall) : String :=
  (displayPathOrUnknown call.path call.settings.rootMarker).1

def run (call : TagCall) (t : Tree) : Tagged := tagTree t call.path call.settings

end TagCall

/-- What each of some calls leaves, every one made on the tree that the one before left. -/
def tagEach (t : Tree) : List TagCall → List Tagged
  | [] => []
  | call :: rest => call.run t :: tagEach (call.run t).tree rest

/-- The tree after some calls. -/
def tagAll (t : Tree) (calls : List TagCall) : Tree :=
  calls.foldl (fun t call => (call.run t).tree) t

/-- Takes down what a call writes, unless it is disabled or its name was used before. -/
def addUse (uses : List (String × String)) (call : TagCall) : List (String × String) :=
  if call.enabled && !uses.any (·.1 == call.name) then uses ++ [(call.name, call.display)] else uses

/-- The attribute names of the enabled calls in the order of their first use, each with the text of
the call that used it first. -/
def firstUses (calls : List TagCall) : List (String × String) := calls.foldl addUse []

/-! ## The uses of names -/

/-- The first enabled call that uses a name. -/
def firstUse? (calls : List TagCall) (name : String) : Option TagCall :=
  calls.find? fun call => call.enabled && call.name == name

theorem firstUse?_cons (call : TagCall) (rest : List TagCall) (name : String) :
    firstUse? (call :: rest) name =
      if call.enabled && call.name == name then some call else firstUse? rest name := by
  rw [firstUse?, List.find?_cons]
  split <;> simp_all [firstUse?]

theorem any_name_iff {uses : List (String × String)} {name : String} :
    uses.any (·.1 == name) = true ↔ name ∈ uses.map Prod.fst := by
  simp [List.any_eq_true]

theorem addUse_of_disabled {call : TagCall} (h : call.enabled = false)
    (uses : List (String × String)) : addUse uses call = uses := by
  rw [addUse, h, Bool.false_and, if_neg Bool.false_ne_true]

theorem addUse_of_used {call : TagCall} {uses : List (String × String)}
    (h : call.name ∈ uses.map Prod.fst) : addUse uses call = uses := by
  rw [addUse, any_name_iff.mpr h, Bool.not_true, Bool.and_false, if_neg Bool.false_ne_true]

theorem addUse_of_new {call : TagCall} (h : call.enabled = true) {uses : List (String × String)}
    (hnew : call.name ∉ uses.map Prod.fst) :
    addUse uses call = uses ++ [(call.name, call.display)] := by
  have hunused : uses.any (·.1 == call.name) = false :=
    Bool.eq_false_iff.mpr fun hused => hnew (any_name_iff.mp hused)
  rw [addUse, h, hunused, Bool.not_false, Bool.and_self, if_pos rfl]

theorem nodup_addUse {uses : List (String × String)} (h : (uses.map Prod.fst).Nodup)
    (call : TagCall) : ((addUse uses call).map Prod.fst).Nodup := by
  cases henabled : call.enabled with
  | false => rwa [addUse_of_disabled henabled]
  | true =>
    by_cases hused : call.name ∈ uses.map Prod.fst
    · rwa [addUse_of_used hused]
    · rw [addUse_of_new henabled hused, List.map_append]
      refine List.nodup_append.mpr ⟨h, by simp, ?_⟩
      rintro name hname _ hcall rfl
      rw [List.mem_singleton.mp hcall] at hname
      exact hused hname

theorem nodup_firstUses (calls : List TagCall) : ((firstUses calls).map Prod.fst).Nodup := by
  have hfold (uses : List (String × String)) (h : (uses.map Prod.fst).Nodup) :
      ((calls.foldl addUse uses).map Prod.fst).Nodup := by
    induction calls generalizing uses with
    | nil => exact h
    | cons call rest ih => exact ih _ (nodup_addUse h call)
  exact hfold [] .nil

/-- The uses after some more calls: those before, and the first use of each name that was not used
before. -/
theorem mem_foldl_addUse {calls : List TagCall} {uses : List (String × String)}
    {name value : String} :
    (name, value) ∈ calls.foldl addUse uses ↔ (name, value) ∈ uses ∨
      name ∉ uses.map Prod.fst ∧ (firstUse? calls name).map TagCall.display = some value := by
  induction calls generalizing uses with
  | nil => simp [firstUse?]
  | cons call rest ih =>
    rw [List.foldl_cons, ih, firstUse?_cons]
    cases henabled : call.enabled with
    | false => simp [addUse_of_disabled henabled]
    | true =>
      by_cases hused : call.name ∈ uses.map Prod.fst
      · rw [addUse_of_used hused]
        by_cases hname : call.name = name
        · subst hname
          simp [hused]
        · simp [hname]
      · rw [addUse_of_new henabled hused]
        by_cases hname : call.name = name
        · subst hname
          simp [hused, eq_comm]
        · simp [hname, Ne.symm hname]

theorem mem_firstUses {calls : List TagCall} {name value : String} :
    (name, value) ∈ firstUses calls ↔
      (firstUse? calls name).map TagCall.display = some value := by
  rw [firstUses, mem_foldl_addUse]
  simp

/-! ## Attributes of a tag -/

namespace Tree

/-- The places of the opening tags that a search of the tree marks; the path plays no part. -/
def topmostTags (t : Tree) : List Place :=
  ((locateTopmost (.root t) ⟨"", []⟩).2.markedPlaces t).filter fun p =>
    (t.at? p).any (·.isA "JSXOpeningElement")

/-- The uses of names that a tag has no plain attribute of. -/
def lacking (tag : Tree) (uses : List (String × String)) : List (String × String) :=
  uses.filter fun a => !tag.carries a.1

/-- The attributes that a tree's topmost tags lack. -/
def lackingAt (t : Tree) (uses : List (String × String)) : Additions := fun p =>
  if p ∈ t.topmostTags then ((t.at? p).getD .null).lacking uses else []

section

variable (added : Additions) (place : Place)

theorem isName_withAttributes (t : Tree) (name : Option String) :
    (t.withAttributes added place).isName name = t.isName name := by
  cases t <;> cases name <;> rfl

theorem isName_attributeName_withAttributes (t : Tree) (name : Option String) :
    (t.withAttributes added place).attributeName.isName name = t.attributeName.isName name := by
  rw [attributeName, isA_withAttributes, get_withAttributes added place t (by decide),
    isA_withAttributes, get_withAttributes _ _ _ (by decide), attributeName]
  split
  · rw [isName_withAttributes]
  · rfl

theorem any_withAttributesItems {f : Tree → Bool} (h : ∀ p t, f (withAttributes added p t) = f t)
    (i : Nat) (items : List Tree) :
    (withAttributesItems added place i items).any f = items.any f := by
  induction items generalizing i with
  | nil => rfl
  | cons t rest ih => rw [withAttributesItems, List.any_cons, List.any_cons, ih, h]

theorem any_nodes (name : String) :
    ((added.nodes place).any fun a => a.attributeName.isName (some name)) =
      (added place).any (·.1 == name) := by
  rw [Additions.nodes, List.any_map]
  rfl

variable {added place}

/-- A tag that can take attributes has those it had and the added ones. -/
theorem attributeItems_withAttributes {tag : Tree} (htag : tag.isA "JSXOpeningElement" = true)
    (happ : tag.isAppendable = true) :
    (tag.withAttributes added place).isAppendable = true ∧
      (tag.withAttributes added place).attributeItems =
        withAttributesItems added (place ++ [.field "attributes"]) 0 tag.attributeItems
          ++ added.nodes place := by
  obtain ⟨fields, rfl⟩ := isObject_of_isA htag
  have hlookup := lookup_withAttributesFields added place "attributes" fields
  rw [withAttributes, if_pos htag]
  rcases isAppendable_iff.mp happ with hattr | ⟨items, hattr⟩
  · change fields.lookup "attributes" = none at hattr
    rw [hattr, Option.map_none] at hlookup
    by_cases hnil : added.nodes place = []
    · simp [isAppendable, attributeItems, field?, hattr, hnil, hlookup, withAttributesItems]
    · simp [isAppendable, attributeItems, field?, hattr, appendAttributes_of_missing hnil hlookup,
        List.lookup_append, hlookup, withAttributesItems]
  · change fields.lookup "attributes" = some (.list items) at hattr
    rw [hattr, Option.map_some, withAttributes] at hlookup
    simp [isAppendable, attributeItems, field?, hattr, appendAttributes_of_list hlookup,
      lookup_updateField_self, hlookup]

/-- A tag carries the names it carried and those that were added. -/
theorem carries_withAttributes {tag : Tree} (htag : tag.isA "JSXOpeningElement" = true)
    (happ : tag.isAppendable = true) (name : String) :
    (tag.withAttributes added place).carries name =
      (tag.carries name || (added place).any (·.1 == name)) := by
  rw [carries, (attributeItems_withAttributes htag happ).2, List.any_append, any_nodes,
    any_withAttributesItems added _ fun p t => isName_attributeName_withAttributes added p t _,
    carries]

end

end Tree

/-! ## The marked tags -/

/-- The context of a pass that found the entries of a log. -/
def FileContext.ofLog (display : String) (log : List Identity) : FileContext :=
  (⟨display, []⟩ : FileContext).markAll log

theorem FileContext.isMarked_ofLog {display : String} {log : List Identity} {i : Identity} :
    (ofLog display log).isMarked i = true ↔ i ∈ log := by
  simp [isMarked, ofLog, mem_marked_markAll]

@[simp] theorem FileContext.filePath_ofLog (display : String) (log : List Identity) :
    (ofLog display log).filePath = display := by
  rw [ofLog, filePath_markAll]

section

variable {t : Tree} {n : Nat} {log : List Identity}

/-- A search that goes through reports the elements and leaves the entries of its log. -/
theorem locateTopmost_eq (hloc : (locate (.root t)).Leaves (.ok n) log) (display : String) :
    locateTopmost (.root t) ⟨display, []⟩ =
      (.ok (Log.located (FileContext.ofLog display log).size n display), .ofLog display log) := by
  rw [locateTopmost, hloc, ← FileContext.ofLog]
  simp only [FileContext.filePath_ofLog]

theorem mem_topmostTags (hloc : (locate (.root t)).Leaves (.ok n) log) {p : Place} :
    p ∈ t.topmostTags ↔
      .place p ∈ log ∧ ∃ tag, t.at? p = some tag ∧ tag.isA "JSXOpeningElement" = true := by
  rw [Tree.topmostTags, locateTopmost_eq hloc, List.mem_filter, FileContext.markedPlaces,
    List.mem_filterMap, Option.any_eq_true]
  constructor
  · rintro ⟨⟨i, hi, hplace⟩, htag⟩
    refine ⟨?_, htag⟩
    split at hplace <;> try cases hplace
    split at hplace <;> cases hplace
    simpa [FileContext.ofLog, FileContext.mem_marked_markAll] using hi
  · rintro ⟨hp, tag, hat, htag⟩
    obtain ⟨fields, rfl⟩ := Tree.isObject_of_isA htag
    refine ⟨⟨.place p, ?_, by simp [hat, Tree.isObject]⟩, _, hat, htag⟩
    simpa [FileContext.ofLog, FileContext.mem_marked_markAll] using hp

/-- A marked place is where an element has its opening tag. -/
theorem exists_element_of_mem_log (ht : t.hasDistinctKeys = true)
    (hloc : (locate (.root t)).Leaves (.ok n) log) {p : Place} (hp : .place p ∈ log) :
    ∃ x tag, Within (.root t) x ∧ x.tree.isObject = true ∧
      p = x.place ++ [.field "openingElement"] ∧
      x.tree.field? "openingElement" = some tag ∧ t.at? p = some tag := by
  obtain ⟨htag, hmarks⟩ := locate_exec (hloc ⟨"", []⟩)
  have hmem := (hmarks (.place p)).mp (FileContext.mem_marked_markAll.mpr (.inr hp))
  obtain ⟨x, hx, hid⟩ := by simpa using hmem
  obtain ⟨tag, hfield⟩ := Option.isSome_iff_exists.mp (htag x hx)
  have hplace : x.place ++ [.field "openingElement"] = p := place_of_identity hid
  have hat : t.at? x.place = some x.tree := (at_root t).within ht hx.within
  obtain ⟨fields, hobject⟩ := Tree.isObject_of_isA hx.isElement
  refine ⟨x, tag, hx.within, by rw [hobject]; rfl, hplace.symm, hfield, ?_⟩
  rw [← hplace, Tree.at?_append, hat, Option.bind_some, Tree.at?_field, hfield, Option.bind_some,
    Tree.at?_nil]

theorem at?_withAttributes_of_mem_log (ht : t.hasDistinctKeys = true)
    (hloc : (locate (.root t)).Leaves (.ok n) log) {p : Place} (hp : .place p ∈ log)
    (added : Additions) :
    ∃ tag, t.at? p = some tag ∧
      (t.withAttributes added []).at? p = some (tag.withAttributes added p) := by
  obtain ⟨x, tag, hx, hobject, rfl, hfield, hat⟩ := exists_element_of_mem_log ht hloc hp
  refine ⟨tag, hat, ?_⟩
  have hx' := Tree.at?_withAttributes added [] ((at_root t).within ht hx) hobject
  rw [Tree.at?_append, hx', Option.bind_some, Tree.at?_field,
    Tree.field?_withAttributes _ _ _ (by decide), hfield, Option.map_some, Option.bind_some,
    Tree.at?_nil, List.nil_append]

theorem locate_leaves_withAttributes (hloc : (locate (.root t)).Leaves (.ok n) log)
    (added : Additions) : (locate (.root (t.withAttributes added []))).Leaves (.ok n) log := by
  have h := locate_withAttributes added (.root t)
  rw [Spot.withAttributes] at h
  exact h ▸ hloc

/-- The marked tags that a pass meets in the tree with attributes added are the topmost tags of the
tree itself. -/
theorem isMarkedTag_iff (ht : t.hasDistinctKeys = true)
    (hloc : (locate (.root t)).Leaves (.ok n) log) (added : Additions) (display : String)
    {s : Spot} (hs : Within (.root (t.withAttributes added [])) s) :
    s.isMarkedTag (.ofLog display log) = true ↔
      s.place ∈ t.topmostTags ∧
        ∃ tag, t.at? s.place = some tag ∧ s.tree = tag.withAttributes added s.place := by
  have hat : (t.withAttributes added []).at? s.place = some s.tree :=
    (at_root _).within (Tree.hasDistinctKeys_withAttributes _ _ ht) hs
  rw [isMarkedTag, Bool.and_eq_true, FileContext.isMarked_ofLog, mem_topmostTags hloc]
  constructor
  · rintro ⟨htag, hmark⟩
    obtain ⟨fields, hobject⟩ := Tree.isObject_of_isA htag
    rw [identity_of_isObject (by rw [hobject]; rfl)] at hmark
    obtain ⟨tag, htag', hat'⟩ := at?_withAttributes_of_mem_log ht hloc hmark added
    have htree : s.tree = tag.withAttributes added s.place := Option.some.inj (hat.symm.trans hat')
    rw [htree, Tree.isA_withAttributes] at htag
    exact ⟨⟨hmark, tag, htag', htag⟩, tag, htag', htree⟩
  · rintro ⟨⟨hmark, tag, htag, hkind⟩, _, htag', htree⟩
    cases htag.symm.trans htag'
    rw [← Tree.isA_withAttributes added s.place, ← htree] at hkind
    obtain ⟨fields, hobject⟩ := Tree.isObject_of_isA hkind
    exact ⟨hkind, by rwa [identity_of_isObject (by rw [hobject]; rfl)]⟩

/-- Every topmost tag is met in the tree with attributes added. -/
theorem exists_within_of_mem_topmostTags (ht : t.hasDistinctKeys = true)
    (hloc : (locate (.root t)).Leaves (.ok n) log) (added : Additions) {p : Place} {tag : Tree}
    (hp : p ∈ t.topmostTags) (hat : t.at? p = some tag) :
    Within (.root (t.withAttributes added [])) ⟨p, tag.withAttributes added p⟩ := by
  obtain ⟨hmark, _, hat', hkind⟩ := (mem_topmostTags hloc).mp hp
  cases hat.symm.trans hat'
  obtain ⟨fields, hobject⟩ := Tree.isObject_of_isA hkind
  have hnew := Tree.at?_withAttributes added [] hat (by rw [hobject]; rfl)
  obtain ⟨x, tag', hx, -, hplace, hfield, hold⟩ := exists_element_of_mem_log
    (Tree.hasDistinctKeys_withAttributes added [] ht) (locate_leaves_withAttributes hloc added)
    hmark
  have htag : x.get "openingElement" = ⟨p, tag.withAttributes added p⟩ := by
    rw [Spot.get, Tree.get, hfield, ← hold, hnew, Option.getD_some, List.nil_append, hplace]
  rw [← htag]
  refine hx.tail (child_get (by decide) ?_)
  rw [htag, Tree.isNode_withAttributes]
  exact Tree.isNode_of_isA hkind

end

/-! ## One pass -/

/-- Tagging the tree meets no fault: the search goes through and finds the entries of the log, and
each topmost tag can take an attribute. -/
structure Taggable (t : Tree) (n : Nat) (log : List Identity) : Prop where
  keys : t.hasDistinctKeys = true
  node : t.isNode = true
  located : (locate (.root t)).Leaves (.ok n) log
  appendable : ∀ p ∈ t.topmostTags, ∀ tag, t.at? p = some tag → tag.isAppendable = true

theorem run_of_disabled {call : TagCall} (h : call.enabled = false) (t : Tree) :
    (call.run t).tree = t ∧ (call.run t).fault = none := by
  rw [TagCall.run, tagTree, tagAt, if_neg (by simpa [TagCall.enabled] using h)]
  exact ⟨rfl, rfl⟩

/-- An enabled pass whose search goes through does what its injection does. -/
theorem run_of_enabled {call : TagCall} (h : call.enabled = true) {t : Tree} {n : Nat}
    {log : List Identity} (hloc : (locate (.root t)).Leaves (.ok n) log) :
    (call.run t).tree = (inject (.ofLog call.display log) call.name t []).1.tree ∧
      (call.run t).fault = (inject (.ofLog call.display log) call.name t []).2 := by
  have hfind := locateTopmost_eq hloc call.display
  rw [TagCall.display] at hfind ⊢
  simp only [TagCall.run, tagTree, tagAt, if_pos (show call.settings.enabled = true from h),
    Tree.at?_nil, Option.getD_some]
  rw [Spot.root] at hfind
  rw [hfind]
  simp only [TagCall.name]
  split
  · rename_i heq
    rw [heq]
    exact ⟨rfl, rfl⟩
  · rename_i heq
    rw [heq]
    exact ⟨rfl, rfl⟩

theorem taggable_of_run {t : Tree} (ht : t.hasDistinctKeys = true) {call : TagCall}
    (henabled : call.enabled = true) (h : (call.run t).fault = none) :
    ∃ n log, Taggable t n log := by
  obtain ⟨r, log, hleaves, -, -⟩ := locate_marks (.root t)
  cases r with
  | error fault =>
    have hfault : (call.run t).fault = some fault := by
      simp only [TagCall.run, tagTree, tagAt,
        if_pos (show call.settings.enabled = true from henabled), Tree.at?_nil, Option.getD_some]
      rw [locateTopmost, ← Spot.root, hleaves]
    rw [h] at hfault
    cases hfault
  | ok n =>
    obtain ⟨-, hfault⟩ := run_of_enabled henabled hleaves
    have hspots := isAppendable_of_inject (hfault.symm.trans h)
    refine ⟨n, log, ht, (hspots _ .refl).1, hleaves, fun p hp tag htag => ?_⟩
    -- a topmost tag of the tree is a marked tag that the pass came across
    have hwithin := exists_within_of_mem_topmostTags ht hleaves (fun _ => []) hp htag
    have hmark := (isMarkedTag_iff ht hleaves (fun _ => []) call.display hwithin).mpr
      ⟨hp, tag, htag, rfl⟩
    rw [Tree.withAttributes_nil, Tree.withAttributes_nil] at hwithin
    rw [Tree.withAttributes_nil] at hmark
    exact (hspots _ hwithin).2 hmark

/-- What a tag lacks after one more use: what it lacked before, and the new name unless it is there
or among what was lacking. -/
theorem Tree.lacking_addUse (tag : Tree) {call : TagCall} (henabled : call.enabled = true)
    (uses : List (String × String)) :
    tag.lacking (addUse uses call) = tag.lacking uses ++
      if (tag.carries call.name || (tag.lacking uses).any (·.1 == call.name)) = false
      then [(call.name, call.display)] else [] := by
  by_cases hused : call.name ∈ uses.map Prod.fst
  · have hcarry : (tag.carries call.name || (tag.lacking uses).any (·.1 == call.name)) = true := by
      cases hc : tag.carries call.name with
      | true => rfl
      | false =>
        obtain ⟨a, ha, hname⟩ := List.mem_map.mp hused
        have hlacked : a ∈ tag.lacking uses := List.mem_filter.mpr ⟨ha, by simp [hname, hc]⟩
        exact any_name_iff.mpr (List.mem_map.mpr ⟨a, hlacked, hname⟩)
    rw [addUse_of_used hused, hcarry]
    simp
  · have hlacking : (tag.lacking uses).any (·.1 == call.name) = false := by
      refine Bool.eq_false_iff.mpr fun hany => hused ?_
      obtain ⟨a, ha, hname⟩ := List.mem_map.mp (any_name_iff.mp hany)
      exact List.mem_map.mpr ⟨a, (List.mem_filter.mp ha).1, hname⟩
    rw [addUse_of_new henabled hused, hlacking, Bool.or_false]
    cases hc : tag.carries call.name <;> simp [lacking, hc]

namespace Taggable

variable {t : Tree} {n : Nat} {log : List Identity} (h : Taggable t n log)
include h

/-- The targets of a pass are the topmost tags that carry its name neither from the start nor from
the passes before. -/
theorem mem_targetPlaces_iff (added : Additions) (display name : String) {p : Place} {tag : Tree}
    (hp : p ∈ t.topmostTags) (hat : t.at? p = some tag) :
    p ∈ targetPlaces (.ofLog display log) name (t.withAttributes added []) ↔
      (tag.carries name || (added p).any (·.1 == name)) = false := by
  obtain ⟨-, _, hat', hkind⟩ := (mem_topmostTags h.located).mp hp
  cases hat.symm.trans hat'
  rw [mem_targetPlaces, ← Tree.carries_withAttributes hkind (h.appendable p hp tag hat)]
  constructor
  · rintro ⟨s, hs, htarget, rfl⟩
    obtain ⟨hmark, hcarry⟩ := Bool.and_eq_true_iff.mp htarget
    obtain ⟨-, _, hat', htree⟩ := (isMarkedTag_iff h.keys h.located added display hs).mp hmark
    cases hat.symm.trans hat'
    rw [← htree]
    simpa using hcarry
  · intro hcarry
    have hwithin := exists_within_of_mem_topmostTags h.keys h.located added hp hat
    refine ⟨_, hwithin, Bool.and_eq_true_iff.mpr ⟨?_, by simp [hcarry]⟩, rfl⟩
    exact (isMarkedTag_iff h.keys h.located added display hwithin).mpr ⟨hp, tag, hat, rfl⟩

/-- A pass adds its attribute where the name is lacking still. -/
theorem run_eq {call : TagCall} (henabled : call.enabled = true) (uses : List (String × String)) :
    (call.run (t.withAttributes (t.lackingAt uses) [])).tree =
        t.withAttributes (t.lackingAt (addUse uses call)) [] ∧
      (call.run (t.withAttributes (t.lackingAt uses) [])).fault = none := by
  have hkeys := Tree.hasDistinctKeys_withAttributes (t.lackingAt uses) [] h.keys
  have hnode : (t.withAttributes (t.lackingAt uses) []).isNode = true := by
    rw [Tree.isNode_withAttributes, h.node]
  have happ : ∀ s, Within (.root (t.withAttributes (t.lackingAt uses) [])) s →
      s.isMarkedTag (.ofLog call.display log) = true → s.tree.isAppendable = true := by
    intro s hs hmark
    obtain ⟨hp, tag, hat, htree⟩ := (isMarkedTag_iff h.keys h.located _ _ hs).mp hmark
    rw [htree]
    obtain ⟨-, _, hat', hkind⟩ := (mem_topmostTags h.located).mp hp
    cases hat.symm.trans hat'
    exact (Tree.attributeItems_withAttributes hkind (h.appendable _ hp _ hat)).1
  have hinject := inject_eq call.name hkeys hnode happ
  obtain ⟨htree, hfault⟩ := run_of_enabled henabled
    (locate_leaves_withAttributes h.located (t.lackingAt uses))
  rw [htree, hfault, hinject]
  refine ⟨?_, rfl⟩
  rw [Tree.withAttributes_withAttributes, FileContext.filePath_ofLog]
  refine Tree.withAttributes_congr fun p _ => ?_
  by_cases hp : p ∈ t.topmostTags
  · obtain ⟨-, tag, hat, -⟩ := (mem_topmostTags h.located).mp hp
    have hlacking (uses : List (String × String)) : t.lackingAt uses p = tag.lacking uses := by
      rw [Tree.lackingAt, if_pos hp, hat, Option.getD_some]
    have htarget := h.mem_targetPlaces_iff (t.lackingAt uses) call.display call.name hp hat
    rw [hlacking] at htarget
    simp only [hlacking, Tree.lacking_addUse tag henabled, Additions.across, htarget]
  · have htarget : p ∉ targetPlaces (.ofLog call.display log) call.name
        (t.withAttributes (t.lackingAt uses) []) := by
      intro hmem
      obtain ⟨s, hs, htarget, rfl⟩ := mem_targetPlaces.mp hmem
      have hmark := (Bool.and_eq_true_iff.mp htarget).1
      exact hp ((isMarkedTag_iff h.keys h.located _ _ hs).mp hmark).1
    simp only [Tree.lackingAt, if_neg hp, Additions.across, if_neg htarget, List.append_nil]

/-- What one pass does, enabled or not. -/
theorem run_step (call : TagCall) (uses : List (String × String)) :
    (call.run (t.withAttributes (t.lackingAt uses) [])).tree =
        t.withAttributes (t.lackingAt (addUse uses call)) [] ∧
      (call.run (t.withAttributes (t.lackingAt uses) [])).fault = none := by
  cases henabled : call.enabled with
  | true => exact h.run_eq henabled uses
  | false =>
    rw [addUse_of_disabled henabled]
    exact run_of_disabled henabled _

/-- What a sequence of passes does. -/
theorem tagAll_eq (calls : List TagCall) (uses : List (String × String)) :
    (∀ r ∈ tagEach (t.withAttributes (t.lackingAt uses) []) calls, r.fault = none) ∧
      tagAll (t.withAttributes (t.lackingAt uses) []) calls =
        t.withAttributes (t.lackingAt (calls.foldl addUse uses)) [] := by
  induction calls generalizing uses with
  | nil => exact ⟨by simp [tagEach], rfl⟩
  | cons call rest ih =>
    obtain ⟨htree, hfault⟩ := h.run_step call uses
    obtain ⟨hfaults, hrest⟩ := ih (addUse uses call)
    rw [tagEach, tagAll, List.foldl_cons, List.foldl_cons, htree]
    refine ⟨fun r hr => ?_, hrest⟩
    rcases List.mem_cons.mp hr with rfl | hr
    · exact hfault
    · exact hfaults r hr

end Taggable

theorem Tree.withAttributes_lackingAt_nil (t : Tree) :
    t.withAttributes (t.lackingAt []) [] = t := by
  refine withAttributes_of_nil fun p _ => ?_
  rw [lackingAt]
  split <;> rfl

/-- Disabled calls change nothing. -/
theorem tagAll_of_disabled {t : Tree} {calls : List TagCall}
    (h : ∀ call ∈ calls, call.enabled = false) :
    (∀ r ∈ tagEach t calls, r.fault = none) ∧ tagAll t calls = t ∧ firstUses calls = [] := by
  induction calls with
  | nil => exact ⟨by simp [tagEach], rfl, rfl⟩
  | cons call rest ih =>
    have hcall := h call List.mem_cons_self
    obtain ⟨htree, hfault⟩ := run_of_disabled hcall t
    obtain ⟨hfaults, hrest, huses⟩ := ih fun c hc => h c (List.mem_cons_of_mem _ hc)
    rw [tagEach, tagAll, List.foldl_cons, htree, firstUses, List.foldl_cons,
      addUse_of_disabled hcall]
    refine ⟨fun r hr => ?_, hrest, huses⟩
    rcases List.mem_cons.mp hr with rfl | hr
    · exact hfault
    · exact hfaults r hr

/-- Tagging a tree over and over. When the first enabled call meets no fault, none does, and the
tree at the end is the tree with attributes added to its topmost tags: to each, in the order of
first use, one for every name used that the tag had no plain attribute of, with the text of the
first enabled call of that name. A further call that is disabled or uses one of these names leaves
that tree as it is. -/
theorem tagAll_eq_withAttributes (t : Tree) (ht : t.hasDistinctKeys = true)
    (calls : List TagCall)
    (hfirst : ∀ call, calls.find? (·.enabled) = some call → (call.run t).fault = none) :
    (∀ r ∈ tagEach t calls, r.fault = none) ∧
      tagAll t calls = t.withAttributes (t.lackingAt (firstUses calls)) [] ∧
      ((firstUses calls).map Prod.fst).Nodup ∧
      (∀ name value, (name, value) ∈ firstUses calls ↔
        (firstUse? calls name).map TagCall.display = some value) ∧
      ∀ call : TagCall, (call.enabled = true → call.name ∈ (firstUses calls).map Prod.fst) →
        (call.run (tagAll t calls)).tree = tagAll t calls ∧
          (call.run (tagAll t calls)).fault = none := by
  cases hfind : calls.find? (·.enabled) with
  | none =>
    have hdisabled : ∀ call ∈ calls, call.enabled = false :=
      fun call hcall => by simpa using List.find?_eq_none.mp hfind call hcall
    obtain ⟨hfaults, htree, huses⟩ := tagAll_of_disabled (t := t) hdisabled
    refine ⟨hfaults, ?_, nodup_firstUses calls, fun _ _ => mem_firstUses, fun call hcall => ?_⟩
    · rw [htree, huses, Tree.withAttributes_lackingAt_nil]
    · refine run_of_disabled (Bool.eq_false_iff.mpr fun henabled => ?_) _
      simpa [huses] using hcall henabled
  | some first =>
    obtain ⟨n, log, h⟩ :=
      taggable_of_run ht (List.find?_some hfind) (hfirst first hfind)
    obtain ⟨hfaults, htree⟩ := h.tagAll_eq calls []
    rw [Tree.withAttributes_lackingAt_nil, ← firstUses] at htree
    rw [Tree.withAttributes_lackingAt_nil] at hfaults
    refine ⟨hfaults, htree, nodup_firstUses calls, fun _ _ => mem_firstUses, fun call hcall => ?_⟩
    have hstep := h.run_step call (firstUses calls)
    have huses : addUse (firstUses calls) call = firstUses calls := by
      cases henabled : call.enabled with
      | false => exact addUse_of_disabled henabled _
      | true => exact addUse_of_used (hcall henabled)
    rwa [huses, ← htree] at hstep

/-- A disabled call, two names with the empty one among them, and the first name once more. -/
def repeatedCalls : List TagCall :=
  [⟨.text "src/Old.tsx", ⟨"src/", "data-old", false⟩⟩,
    ⟨.text "home/src/App.tsx", ⟨"src/", "data-path", true⟩⟩,
    ⟨.text "App.tsx", ⟨"src/", "", true⟩⟩,
    ⟨.text "src/Copy.tsx", ⟨"src/", "data-path", true⟩⟩]

theorem tagAll_guardedComponent :
    guardedComponent.topmostTags.length = 2 ∧
      firstUses repeatedCalls = [("data-path", "src/App.tsx"), ("", "App.tsx")] ∧
      (∀ r ∈ tagEach guardedComponent repeatedCalls, r.fault = none) ∧
      tagAll guardedComponent repeatedCalls = guardedComponent.withAttributes
        (guardedComponent.lackingAt [("data-path", "src/App.tsx"), ("", "App.tsx")]) [] := by
  have huses : firstUses repeatedCalls = [("data-path", "src/App.tsx"), ("", "App.tsx")] := by
    decide +kernel
  have hfirst : ∀ call, repeatedCalls.find? (·.enabled) = some call →
      (call.run guardedComponent).fault = none := by
    intro call hcall
    cases hcall
    exact Option.isNone_iff_eq_none.mp (by decide +kernel)
  obtain ⟨hfaults, htree, -⟩ :=
    tagAll_eq_withAttributes guardedComponent (by decide +kernel) repeatedCalls hfirst
  exact ⟨by decide +kernel, huses, hfaults, huses ▸ htree⟩

end TopTag
