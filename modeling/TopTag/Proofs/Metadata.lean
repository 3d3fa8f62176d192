import Mathlib.Data.List.TakeWhile
import TopTag.Proofs.Blanked
import TopTag.Proofs.Faults

/-!
# Metadata does not interfere

Two trees that are the same when blanked are tagged alike: the runs leave the same records, end with
the same fault or both without one, and append the same attribute at the same places. No place at or
below metadata is written to. A run that is cut off is no exception; what it has appended until then
is said by `appendedPlaces`.
-/

namespace TopTag

open Spot

/-! ## One visit -/

namespace Tree

variable (t : Tree)

theorem isName_attributeName_blanked (name : Option String) :
    t.blanked.attributeName.isName name = t.attributeName.isName name := by
  have hname (u : Tree) : u.blanked.isName name = u.isName name := by
    cases u <;> cases name <;> rfl
  rw [attributeName, isA_blanked, get_blanked t (by decide), isA_blanked,
    get_blanked _ (by decide), attributeName]
  split
  · exact hname _
  · rfl

theorem any_blanked (name : Option String) (items : List Tree) :
    ((items.map blanked).any fun a => a.attributeName.isName name) =
      items.any fun a => a.attributeName.isName name := by
  simp only [List.any_map, Function.comp_def, isName_attributeName_blanked]

theorem carries_blanked (name : String) : t.blanked.carries name = t.carries name := by
  have hitems : t.blanked.attributeItems = t.attributeItems.map blanked := by
    unfold attributeItems
    rw [field?_blanked t (by decide)]
    cases t.field? "attributes" with
    | none => rfl
    | some u =>
      cases u with
      | list items => exact blankedItems_eq_map items
      | _ => rfl
  rw [carries, hitems, any_blanked, carries]

theorem isAppendable_blanked : t.blanked.isAppendable = t.isAppendable := by
  unfold isAppendable
  rw [field?_blanked t (by decide)]
  cases t.field? "attributes" with
  | none => rfl
  | some u => cases u <;> rfl

end Tree

theorem hasAttribute_blanked (t : Tree) (name : Option String) :
    hasAttribute t.blanked name = hasAttribute t name := by
  unfold hasAttribute
  rw [Tree.consult_blanked t (by decide)]
  cases t.consult "attributes" with
  | error fault => rfl
  | ok attributes =>
    change attributes.blanked.entries >>= _ = attributes.entries >>= _
    rw [Tree.entries_blanked]
    cases attributes.entries with
    | error fault => rfl
    | ok entries => exact congrArg Except.ok (Tree.any_blanked name entries)

/-- Appending fails in the blanked tree just when it fails in the tree, for the same reason. -/
theorem appendAttribute_blanked (t added : Tree) :
    (appendAttribute t.blanked added).map (fun _ => ()) =
      (appendAttribute t added).map fun _ => () := by
  cases t with
  | object fields =>
    have hlookup := Tree.lookup_blankedFields (by decide : "attributes" ∉ metadataKeys) fields
    rw [Tree.blanked, appendAttribute, appendAttribute, hlookup]
    cases fields.lookup "attributes" with
    | none => rfl
    | some u => cases u <;> rfl
  | _ => rfl

section

variable {c : FileContext} {name : String}

theorem isMarkedTag_blanked (s : Spot) : s.blanked.isMarkedTag c = s.isMarkedTag c := by
  rw [isMarkedTag, identity_blanked, tree_blanked, Tree.isA_blanked, isMarkedTag]

theorem isTarget_blanked (s : Spot) : s.blanked.isTarget c name = s.isTarget c name := by
  rw [isTarget, isMarkedTag_blanked, tree_blanked, Tree.carries_blanked, isTarget]

/-- A visit changes the tag in both trees or in neither, or it fails in both for the same reason. -/
theorem tagged?_blanked (s : Spot) :
    (tagged? c name s.blanked).map Option.isSome = (tagged? c name s).map Option.isSome := by
  by_cases hn : s.tree.isNode = true
  · have happend := appendAttribute_blanked s.tree (.stringAttribute name c.filePath)
    rw [tagged?_eq hn, tagged?_eq (s := s.blanked) (by simpa using hn), isMarkedTag_blanked,
      tree_blanked, hasAttribute_blanked]
    split
    · cases hasAttribute s.tree (some name) with
      | error fault => rfl
      | ok found =>
        cases found with
        | true => rfl
        | false =>
          change ((appendAttribute s.tree.blanked _).map some).map Option.isSome =
            ((appendAttribute s.tree _).map some).map Option.isSome
          revert happend
          generalize appendAttribute s.tree.blanked _ = r'
          generalize appendAttribute s.tree _ = r
          intro happend
          cases r <;> cases r' <;> cases happend <;> rfl
    · rfl
  · have hfield : s.tree.field? "type" = none := by simpa [Tree.isNode] using hn
    unfold tagged?
    rw [tree_blanked, Tree.require_blanked _ (by decide), Tree.require_eq, hfield]
    rfl

/-- The visits of a pass end alike in both trees and change as many tags. -/
theorem injectEach_blanked (spots : List Spot) {pass pass' : Pass}
    (h : pass'.added = pass.added) :
    (injectEach c name (spots.map Spot.blanked) pass').2 = (injectEach c name spots pass).2 ∧
      (injectEach c name (spots.map Spot.blanked) pass').1.added =
        (injectEach c name spots pass).1.added := by
  induction spots generalizing pass pass' with
  | nil => exact ⟨rfl, h⟩
  | cons s rest ih =>
    have hvisit : (tagged? c name s.blanked).map _ = (tagged? c name s).map _ := tagged?_blanked s
    rw [List.map_cons, injectEach, injectEach]
    revert hvisit
    generalize tagged? c name s.blanked = r'
    generalize tagged? c name s = r
    intro hvisit
    -- both fail, both leave the tag alone, or both change it
    rcases r with fault | _ | tag <;> rcases r' with fault' | _ | tag' <;> cases hvisit
    · exact ⟨rfl, h⟩
    · exact ih h
    · exact ih (congrArg (· + 1) h)

theorem root_blanked (t : Tree) : (root t).blanked = root t.blanked := rfl

theorem spots_blanked (t : Tree) : (walk (.root t.blanked)).map Visit.spot =
    ((walk (.root t)).map Visit.spot).map Spot.blanked := by
  rw [← root_blanked, walk_blanked, List.map_map, List.map_map]
  rfl

theorem inject_blanked (c : FileContext) (name : String) (t : Tree) :
    (inject c name t.blanked []).2 = (inject c name t []).2 ∧
      (inject c name t.blanked []).1.added = (inject c name t []).1.added := by
  rw [inject_eq_injectEach, inject_eq_injectEach, spots_blanked]
  exact injectEach_blanked _ rfl

end

/-! ## Where a run appends -/

namespace Spot

/-- A visit of the spot meets no fault: it is no marked tag, or one that can take an attribute. -/
def accepts (c : FileContext) (s : Spot) : Bool := !s.isMarkedTag c || s.tree.isAppendable

theorem accepts_eq_true {c : FileContext} {s : Spot} :
    s.accepts c = true ↔ (s.isMarkedTag c = true → s.tree.isAppendable = true) := by
  unfold accepts
  cases s.isMarkedTag c <;> simp

end Spot

/-- The places where a pass over a tree appends until it is through or a tag refuses. -/
def appendedPlaces (c : FileContext) (name : String) (t : Tree) : List Place :=
  ((((walk (.root t)).map Visit.spot).takeWhile (·.accepts c)).filter (·.isTarget c name)).map
    Spot.place

section

variable {c : FileContext} {name : String} {t : Tree}

theorem appendedPlaces_blanked : appendedPlaces c name t.blanked = appendedPlaces c name t := by
  have haccepts : (Spot.accepts c) ∘ Spot.blanked = Spot.accepts c := by
    funext s
    simp [Spot.accepts, isMarkedTag_blanked, Tree.isAppendable_blanked]
  have htarget : (Spot.isTarget c name) ∘ Spot.blanked = Spot.isTarget c name := by
    funext s
    exact isTarget_blanked s
  unfold appendedPlaces
  rw [spots_blanked, List.takeWhile_map, List.filter_map, haccepts, htarget, List.map_map]
  rfl

theorem nodup_appendedPlaces (ht : t.hasDistinctKeys = true) :
    (appendedPlaces c name t).Nodup := by
  refine (nodup_targetPlaces ht).sublist (List.Sublist.map _ (List.Sublist.filter _ ?_))
  exact List.takeWhile_sublist _

/-- The pass appends to targets only, and each of them can take the attribute. -/
theorem exists_of_mem_appendedPlaces {p : Place} (h : p ∈ appendedPlaces c name t) :
    ∃ s, Within (.root t) s ∧ s.place = p ∧ s.tree.isA "JSXOpeningElement" = true ∧
      s.tree.isAppendable = true := by
  obtain ⟨s, hs, rfl⟩ := List.mem_map.mp h
  obtain ⟨hs, htarget⟩ := List.mem_filter.mp hs
  have hmarked : s.isMarkedTag c = true := (Bool.and_eq_true_iff.mp htarget).1
  refine ⟨s, mem_map_walk.mp ((List.takeWhile_sublist _).subset hs), rfl,
    (Bool.and_eq_true_iff.mp hmarked).1, accepts_eq_true.mp ?_ hmarked⟩
  exact List.mem_takeWhile_imp hs

/-- A pass leaves the tree with its attribute appended at these places, whether it gets through or
not. -/
theorem tree_inject (ht : t.hasDistinctKeys = true) (hnode : t.isNode = true) :
    (inject c name t []).1.tree = t.appendAt (name, c.filePath) (appendedPlaces c name t) := by
  have hplaces : (inject c name t []).1.tree =
      t.withAttributes (.across (appendedPlaces c name t) (name, c.filePath)) [] := by
    rcases inject_cases c name ht hnode with
      ⟨happ, -⟩ | ⟨before, bad, after, hspots, ⟨hbad, hrefuses⟩, hbefore, -, htree⟩
    · have hall : ((walk (.root t)).map Visit.spot).takeWhile (·.accepts c) =
          (walk (.root t)).map Visit.spot := by
        refine List.takeWhile_eq_self_iff.mpr fun s hs => accepts_eq_true.mpr ?_
        exact happ s (mem_map_walk.mp hs)
      rw [inject_eq name ht hnode happ, appendedPlaces, hall, targetPlaces]
    · have hfront : (before ++ bad :: after).takeWhile (·.accepts c) = before := by
        have hstop : bad.accepts c = false := by simp [accepts, hbad, hrefuses]
        rw [List.takeWhile_append_of_pos fun s hs => accepts_eq_true.mpr (hbefore s hs),
          List.takeWhile_cons_of_neg (by simp [hstop]), List.append_nil]
      rw [htree, appendedPlaces, hspots, hfront]
  rw [hplaces, Tree.appendAt_eq_withAttributes ht (nodup_appendedPlaces ht)]
  intro p hp
  obtain ⟨s, hs, rfl, hkind, -⟩ := exists_of_mem_appendedPlaces hp
  exact ⟨s.tree, (at_root t).within ht hs, hkind⟩

end

/-- The places where a run appends. -/
def TagCall.appendedPlaces (call : TagCall) (t : Tree) : List Place :=
  if call.enabled then
    match locateTopmost (.root t) ⟨call.display, []⟩ with
    | (.ok _, c) => TopTag.appendedPlaces c call.name t
    | (.error _, _) => []
  else []

theorem locateTopmost_blanked (t : Tree) (c : FileContext) :
    locateTopmost (.root t.blanked) c = locateTopmost (.root t) c := by
  rw [locateTopmost, locateTopmost, ← root_blanked, locate_blanked]

theorem TagCall.appendedPlaces_blanked (call : TagCall) (t : Tree) :
    call.appendedPlaces t.blanked = call.appendedPlaces t := by
  unfold TagCall.appendedPlaces
  simp only [locateTopmost_blanked, TopTag.appendedPlaces_blanked]

/-- A run on the blanked tree ends as the run on the tree does and leaves the same records. -/
theorem run_blanked (call : TagCall) (t : Tree) :
    (call.run t.blanked).fault = (call.run t).fault ∧
      (call.run t.blanked).logs = (call.run t).logs := by
  have hsearch := locateTopmost_blanked t
  unfold Spot.root at hsearch
  simp only [TagCall.run, tagTree, tagAt, Tree.at?_nil, Option.getD_some, hsearch]
  split
  · split
    · exact ⟨rfl, rfl⟩
    · rename_i c _
      obtain ⟨hfault, hadded⟩ := inject_blanked c call.settings.attributeName t
      revert hfault hadded
      generalize inject c call.settings.attributeName t.blanked [] = r'
      generalize inject c call.settings.attributeName t [] = r
      intro hfault hadded
      obtain ⟨pass, fault⟩ := r
      obtain ⟨pass', fault'⟩ := r'
      obtain rfl : fault' = fault := hfault
      simp only at hadded
      cases fault' with
      | none => simp [hadded]
      | some fault => exact ⟨rfl, rfl⟩
  · exact ⟨rfl, rfl⟩

/-- What a run leaves of the tree. -/
theorem tree_run {t : Tree} (ht : t.hasDistinctKeys = true) (call : TagCall) :
    (call.run t).tree = t.appendAt (call.name, call.display) (call.appendedPlaces t) := by
  cases hon : call.enabled with
  | false =>
    rw [(run_of_disabled hon t).1, TagCall.appendedPlaces, hon]
    rfl
  | true =>
    obtain ⟨r, log, hleaves, hok, -⟩ := locate_marks (.root t)
    unfold TagCall.appendedPlaces
    rw [if_pos hon]
    cases r with
    | error fault =>
      rw [(run_of_stopped hon hleaves).1, locateTopmost, hleaves]
      rfl
    | ok k =>
      have hnode : t.isNode = true := ((hok.mp ⟨k, rfl⟩).1 _ .refl).1.1
      rw [(run_of_enabled hon hleaves).1, locateTopmost_eq hleaves, tree_inject ht hnode,
        FileContext.filePath_ofLog]

/-! ## Metadata is left alone -/

/-- The place is at or below the value of a metadata key. -/
def Hidden (p : Place) : Prop := ∃ key ∈ metadataKeys, Step.field key ∈ p

theorem not_hidden_of_within {t : Tree} {s : Spot} (h : Within (.root t) s) : ¬ Hidden s.place := by
  induction h with
  | refl =>
    rintro ⟨key, -, hmem⟩
    cases hmem
  | tail _ hchild ih =>
    obtain ⟨key, hc⟩ := hchild
    obtain ⟨_, _, _, _, hkey, hnode⟩ := mem_children.mp hc
    rintro ⟨hidden, hhidden, hmem⟩
    -- the last steps go through a key that is no metadata, perhaps into a list
    have hlast : Step.field hidden ∈ [Step.field key] → False := by
      intro hstep
      obtain rfl : hidden = key := by simpa using hstep
      exact hkey hhidden
    obtain ⟨_, rfl | ⟨_, i, _, _, hp⟩⟩ := mem_fieldNodes.mp hnode
    · rcases List.mem_append.mp hmem with hmem | hmem
      · exact ih ⟨hidden, hhidden, hmem⟩
      · exact hlast hmem
    · rw [hp] at hmem
      rcases List.mem_append.mp hmem with hmem | hmem
      · exact ih ⟨hidden, hhidden, hmem⟩
      · exact hlast (by simpa using hmem)

theorem Hidden.of_le {p q : Place} (hq : Hidden q) (h : q <+: p) : Hidden p := by
  obtain ⟨key, hkey, hmem⟩ := hq
  exact ⟨key, hkey, h.subset hmem⟩

/-- A list of attributes is below metadata only if its tag is. -/
theorem Hidden.of_attributes {p : Place} (h : Hidden (p ++ [.field "attributes"])) : Hidden p := by
  obtain ⟨key, hkey, hmem⟩ := h
  rcases List.mem_append.mp hmem with hmem | hmem
  · exact ⟨key, hkey, hmem⟩
  · obtain rfl : key = "attributes" := by simpa using hmem
    exact absurd hkey (by decide)

namespace TagCall

/-- What a run does to a tree, in terms of the places where it appends. -/
structure AppendsAt (call : TagCall) (t : Tree) (places : List Place) : Prop where
  tree : (call.run t).tree = t.appendAt (call.name, call.display) places
  tags : ∀ p ∈ places, ∃ tag, t.at? p = some tag ∧ tag.isA "JSXOpeningElement" = true ∧
    tag.isAppendable = true
  metadata : ∀ q u, Hidden q → t.at? q = some u → (call.run t).tree.at? q = some u

variable {t : Tree}

theorem exists_of_mem_appendedPlaces {call : TagCall} {p : Place}
    (h : p ∈ call.appendedPlaces t) :
    ∃ s, Within (.root t) s ∧ s.place = p ∧ s.tree.isA "JSXOpeningElement" = true ∧
      s.tree.isAppendable = true := by
  unfold TagCall.appendedPlaces at h
  split at h
  · split at h
    · exact TopTag.exists_of_mem_appendedPlaces h
    · cases h
  · cases h

theorem nodup_appendedPlaces (ht : t.hasDistinctKeys = true) (call : TagCall) :
    (call.appendedPlaces t).Nodup := by
  unfold TagCall.appendedPlaces
  split
  · split
    · exact TopTag.nodup_appendedPlaces ht
    · exact List.nodup_nil
  · exact List.nodup_nil

theorem not_hidden_of_mem_appendedPlaces {call : TagCall} {p : Place}
    (h : p ∈ call.appendedPlaces t) : ¬ Hidden p := by
  obtain ⟨s, hs, rfl, -⟩ := exists_of_mem_appendedPlaces h
  exact not_hidden_of_within hs

theorem appendsAt_appendedPlaces (ht : t.hasDistinctKeys = true) (call : TagCall) :
    call.AppendsAt t (call.appendedPlaces t) := by
  have htags : ∀ p ∈ call.appendedPlaces t, ∃ tag, t.at? p = some tag ∧
      tag.isA "JSXOpeningElement" = true ∧ tag.isAppendable = true := by
    intro p hp
    obtain ⟨s, hs, rfl, hkind, happ⟩ := exists_of_mem_appendedPlaces hp
    exact ⟨s.tree, (at_root t).within ht hs, hkind, happ⟩
  refine ⟨tree_run ht call, htags, ?_⟩
  intro q u hq hu
  have hopen : ∀ p, Hidden p → Additions.across (call.appendedPlaces t)
      (call.name, call.display) p = [] := by
    intro p hp
    exact if_neg fun hmem => not_hidden_of_mem_appendedPlaces hmem hp
  rw [tree_run ht call, Tree.appendAt_eq_withAttributes ht (nodup_appendedPlaces ht call)
    fun p hp => (htags p hp).imp fun _ h => ⟨h.1, h.2.1⟩]
  refine Tree.at?_withAttributes_of_apart hu (fun p hp => hopen p (hq.of_le hp)) fun p hp => ?_
  subst hp
  exact hopen p hq.of_attributes

end TagCall

/-- Trees that are the same when blanked are tagged alike, and what is below metadata stays. -/
theorem run_of_blanked_eq {t t' : Tree} (ht : t.hasDistinctKeys = true)
    (ht' : t'.hasDistinctKeys = true) (h : t.blanked = t'.blanked) (call : TagCall) :
    (call.run t).fault = (call.run t').fault ∧ (call.run t).logs = (call.run t').logs ∧
      ∃ places : List Place, places.Nodup ∧ (∀ p ∈ places, ¬ Hidden p) ∧
        call.AppendsAt t places ∧ call.AppendsAt t' places := by
  obtain ⟨hfault, hlogs⟩ := run_blanked call t
  obtain ⟨hfault', hlogs'⟩ := run_blanked call t'
  have hplaces : call.appendedPlaces t = call.appendedPlaces t' := by
    rw [← call.appendedPlaces_blanked t, h, call.appendedPlaces_blanked]
  refine ⟨by rw [← hfault, h, hfault'], by rw [← hlogs, h, hlogs'], call.appendedPlaces t,
    TagCall.nodup_appendedPlaces ht call,
    fun p hp => TagCall.not_hidden_of_mem_appendedPlaces hp,
    TagCall.appendsAt_appendedPlaces ht call, ?_⟩
  rw [hplaces]
  exact TagCall.appendsAt_appendedPlaces ht' call

/-- A component with the given comments behind it and inside its element. -/
def commented (comments : Tree) : Tree :=
  .object [("type", .text "FunctionDeclaration"),
    ("body", .object [("type", .text "BlockStatement"),
      ("body", .list [.object [("type", .text "ReturnStatement"),
        ("argument", .object [("type", .text "JSXElement"), ("innerComments", comments),
          ("openingElement", .object [("type", .text "JSXOpeningElement")])])]])]),
    ("trailingComments", comments)]

/-- The comments of the one tree are components themselves. -/
theorem run_of_commented :
    (commented guardedComponent).blanked = (commented .null).blanked ∧
      (choiceCall.run (commented .null)).fault = none ∧
      ((choiceCall.run (commented .null)).tree.at? [.field "body", .field "body", .item 0,
        .field "argument", .field "openingElement", .field "attributes", .item 0]).isSome = true ∧
      (choiceCall.run (commented guardedComponent)).fault = none ∧
      (choiceCall.run (commented guardedComponent)).logs =
        (choiceCall.run (commented .null)).logs ∧
      ∃ places : List Place, places.Nodup ∧ (∀ p ∈ places, ¬ Hidden p) ∧
        choiceCall.AppendsAt (commented guardedComponent) places ∧
        choiceCall.AppendsAt (commented .null) places := by
  have hsame : (commented guardedComponent).blanked = (commented .null).blanked := rfl
  have hnull : (choiceCall.run (commented .null)).fault = none := by decide +kernel
  obtain ⟨hfault, hlogs, hplaces⟩ := run_of_blanked_eq (t := commented guardedComponent)
    (by decide +kernel) (by decide +kernel) hsame choiceCall
  exact ⟨hsame, hnull, by decide +kernel, hfault.trans hnull, hlogs, hplaces⟩

end TopTag
