import Mathlib.Data.Finset.Card
import TopTag.Proofs.Injected
import TopTag.Session

/-!
# The marks of a session

The commands of a session share one context and one tree, and some of them add attributes while
others look for elements. Still the marks at the end do not depend on the order of the commands: no
command that marks reads the marks, and none sees the attributes added before it. So each command
leaves the marks that it leaves on the tree as it was at first, with a context of its own.
-/

namespace TopTag

/-! ## Attributes added at any place -/

section

variable {c : FileContext} {name : String} {t : Tree}

/-- What a visit changes is a tag. -/
theorem isOpening_of_tagged?_some {s : Spot} {tag : Tree}
    (h : tagged? c name s = .ok (some tag)) : s.tree.isA "JSXOpeningElement" = true := by
  obtain ⟨kind, hkind, hopening, -⟩ := exists_of_tagged?_some h
  rw [Tree.isA, Tree.require_eq_ok.mp hkind, Option.any_some, hopening]

/-- Whether or not a pass meets a fault, the tree it leaves is the old one with attributes added. -/
theorem exists_tree_injectEach (c : FileContext) (name : String) (ht : t.hasDistinctKeys = true)
    {spots : List Spot} (hat : ∀ s ∈ spots, Spot.At t s)
    (horder : spots.Pairwise fun s s' => ¬ s'.place <+: s.place) (places : List Place)
    (hfresh : ∀ s ∈ spots, ∀ p ∈ places, ¬ s.place <+: p) (n : Nat) :
    ∃ added, (injectEach c name spots
      ⟨t.withAttributes (.across places (name, c.filePath)) [], n⟩).1.tree
        = t.withAttributes added [] := by
  induction spots generalizing places n with
  | nil => exact ⟨_, rfl⟩
  | cons s rest ih =>
    obtain ⟨hs, horder⟩ := List.pairwise_cons.mp horder
    have hat' : ∀ s' ∈ rest, Spot.At t s' := fun s' h => hat s' (List.mem_cons_of_mem _ h)
    rw [injectEach]
    split
    · exact ⟨_, rfl⟩
    · exact ih hat' horder _ (fun s' h => hfresh s' (List.mem_cons_of_mem _ h)) n
    · rename_i tag htag
      obtain ⟨fields, htree, rfl⟩ := eq_of_tagged?_some htag
      have hopening := isOpening_of_tagged?_some htag
      rw [update_withAttributes_across ht (hat s List.mem_cons_self) htree hopening
        (name, c.filePath) (hfresh s List.mem_cons_self)]
      refine ih hat' horder _ (fun s' h p hp => ?_) (n + 1)
      rcases List.mem_append.mp hp with hp | hp
      · exact hfresh s' (List.mem_cons_of_mem _ h) p hp
      · rw [List.mem_singleton.mp hp]
        exact hs s' h

theorem exists_tree_inject (c : FileContext) (name : String) (ht : t.hasDistinctKeys = true)
    {place : Place} {u : Tree} (hu : t.at? place = some u) :
    ∃ added, (inject c name t place).1.tree = t.withAttributes added [] := by
  have hat : Spot.At t ⟨place, u⟩ := hu
  have hspots : ∀ s ∈ (walk ⟨place, u⟩).map Visit.spot, Spot.At t s := fun s hs =>
    hat.within ht (exists_mem_walk.mp (List.mem_map.mp hs))
  have horder : (walk ⟨place, u⟩).Pairwise fun v w => ¬ w.spot.place <+: v.spot.place := by
    refine walkFrom_pairwise ht ?_ (List.pairwise_singleton ..)
    intro v hv
    rw [List.mem_singleton.mp hv]
    exact hat
  have hstart : t.withAttributes (.across [] (name, c.filePath)) [] = t :=
    Tree.withAttributes_of_nil fun _ _ => rfl
  have hloop := exists_tree_injectEach c name ht hspots (List.pairwise_map.mpr horder) []
    (by simp) 0
  rw [hstart] at hloop
  rw [inject_at_eq_injectEach hu]
  exact hloop

theorem exists_tree_tagAt (path : PathInput) (settings : Settings) (ht : t.hasDistinctKeys = true)
    {place : Place} {u : Tree} (hu : t.at? place = some u) :
    ∃ added, (tagAt t place path settings).tree = t.withAttributes added [] := by
  have hsame : t = t.withAttributes (fun _ => []) [] := (Tree.withAttributes_nil [] t).symm
  rw [tagAt]
  split
  · dsimp only
    split
    · exact ⟨_, hsame⟩
    · rename_i d _
      obtain ⟨added, hadded⟩ := exists_tree_inject d settings.attributeName ht hu
      split
      · rename_i hpass
        rw [hpass] at hadded
        exact ⟨added, hadded⟩
      · rename_i hpass
        rw [hpass] at hadded
        exact ⟨added, hadded⟩
  · exact ⟨_, hsame⟩

end

namespace FileContext

theorem nodup_marked_mark {c : FileContext} (h : c.marked.Nodup) (i : Identity) :
    (c.mark i).marked.Nodup := by
  rw [mark]
  split
  · exact h
  · rename_i hi
    have hfresh : i ∉ c.marked := by simpa [isMarked] using hi
    exact List.nodup_append.mpr ⟨h, by simp, by grind⟩

theorem nodup_marked_markAll {c : FileContext} {is : List Identity} (h : c.marked.Nodup) :
    (c.markAll is).marked.Nodup := by
  induction is generalizing c with
  | nil => exact h
  | cons i is ih => exact ih (nodup_marked_mark h i)

end FileContext

namespace Session

/-! ## What a command marks -/

/-- The commands that look for elements, and the one that marks what it is given. -/
def Action.isMarking : Action → Bool
  | .scanComponents | .resolveReturnSites | .resolveAttributeValues | .markReturned
  | .markFragmentChildren | .markEmbedded | .locateTopmost | .mark => true
  | _ => false

/-- The part of a command that marks. -/
def Action.marking (s : Spot) : Action → Marking Unit
  | .scanComponents => TopTag.scanComponents s >>= fun _ => pure ()
  | .resolveReturnSites => TopTag.resolveReturnSites s
  | .resolveAttributeValues => TopTag.resolveAttributeValues s
  | .markReturned => TopTag.markReturned s
  | .markFragmentChildren => TopTag.markFragmentChildren s
  | .markEmbedded => TopTag.markEmbedded s
  | .locateTopmost => TopTag.locate s >>= fun _ => pure ()
  | .mark => Marking.mark s
  | _ => pure ()

theorem exec_bind_pure {α : Type} (m : Marking α) (c : FileContext) :
    ((m >>= fun _ => pure ()).exec c).2 = (m.exec c).2 := by
  cases h : m.exec c with
  | mk r d =>
    cases r with
    | ok a => rw [Marking.exec_bind_ok h]; rfl
    | error fault => rw [Marking.exec_bind_error h]

theorem locateTopmost_snd (s : Spot) (c : FileContext) :
    (TopTag.locateTopmost s c).2 = ((TopTag.locate s).exec c).2 := by
  rw [TopTag.locateTopmost]
  split <;> rename_i h <;> rw [h]

/-- A command that opens no new context leaves the marks of its part that marks. -/
theorem context_run (s : State) {command : Command}
    (h : ∀ path, command.action ≠ .newContext path) :
    (s.run command).2.context =
      ((command.action.marking (s.spot command.place)).exec s.context).2 := by
  obtain ⟨action, place⟩ := command
  cases action with
  | newContext path => exact absurd rfl (h path)
  | scanComponents => exact (exec_bind_pure ..).symm
  | locateTopmost =>
    rw [State.run, Action.marking, exec_bind_pure, ← locateTopmost_snd]
    dsimp only
    split <;> rename_i hrun <;> rw [hrun]
  | inject name =>
    rw [State.run]
    dsimp only
    split <;> rfl
  | tag path settings =>
    rw [State.run]
    dsimp only
    split <;> rfl
  | _ => rfl

/-- No command reads the marks. -/
theorem Action.exists_leaves (a : Action) (s : Spot) : ∃ r log, (a.marking s).Leaves r log := by
  have hpure {α : Type} {m : Marking α} {ok : Prop} {P : Identity → Prop} (h : m.Marks ok P) :
      ∃ r log, (m >>= fun _ => pure ()).Leaves r log := by
    obtain ⟨r, log, hm, -⟩ := h.bind fun _ => Marking.Marks.pure ()
    exact ⟨r, log, hm⟩
  have hself {m : Marking Unit} {ok : Prop} {P : Identity → Prop} (h : m.Marks ok P) :
      ∃ r log, m.Leaves r log := by
    obtain ⟨r, log, hm, -⟩ := h
    exact ⟨r, log, hm⟩
  cases a with
  | scanComponents => exact hpure (scanComponents_marks s)
  | resolveReturnSites => exact hself (resolveReturnSites_marks s)
  | resolveAttributeValues => exact hself (resolveAttributeValues_marks s)
  | markReturned => exact hself (markReturned_marks s)
  | markFragmentChildren => exact hself (markFragmentChildren_marks s)
  | markEmbedded => exact hself (markEmbedded_marks s)
  | locateTopmost => exact hpure (locate_marks s)
  | mark => exact hself (Marking.Marks.mark s)
  | _ => exact hself (Marking.Marks.pure ())

/-- No command sees the attributes that were added. -/
theorem Action.marking_withAttributes (added : Additions) (a : Action) (s : Spot) :
    a.marking (s.withAttributes added) = a.marking s := by
  cases a with
  | scanComponents => rw [marking, scanComponents_withAttributes, marking]
  | resolveReturnSites => exact resolveReturnSites_withAttributes added s
  | resolveAttributeValues => exact resolveAttributeValues_withAttributes added s
  | markReturned => exact markReturned_withAttributes added s
  | markFragmentChildren => exact markFragmentChildren_withAttributes added s
  | markEmbedded => exact markEmbedded_withAttributes added s
  | locateTopmost => rw [marking, locate_withAttributes, marking]
  | mark => exact mark_withAttributes added s
  | _ => rfl

theorem walk_list (place : Place) (items : List Tree) :
    walk ⟨place, .list items⟩ = [⟨⟨place, .list items⟩, none, none⟩] := by
  rw [walk_eq_cons, show (Spot.mk place (.list items)).visits = [] from rfl, walkFrom]

/-- No command looks into a list that it is given. -/
theorem Action.marking_list (a : Action) (place : Place) (items items' : List Tree) :
    a.marking ⟨place, .list items⟩ = a.marking ⟨place, .list items'⟩ := by
  have hunwrap (xs : List Tree) :
      (Spot.mk place (.list xs)).unwrapParentheses = ⟨place, .list xs⟩ := by
    rw [Spot.unwrapParentheses, dif_neg (by simp [Tree.isParenthesized, Tree.isA, Tree.field?])]
  have hnormal (xs : List Tree) : (Spot.mk place (.list xs)).normalized = ⟨place, .list xs⟩ := by
    rw [Spot.normalized, hunwrap, Spot.unwrapConjunction,
      dif_neg (by simp [Tree.isConjunction, Tree.isA, Tree.field?])]
  have hreturned (xs : List Tree) : TopTag.markReturned ⟨place, .list xs⟩ = pure () := by
    rw [TopTag.markReturned, markReturnedAll, hnormal, markReturnedAll]
    rfl
  have hscan (xs : List Tree) : TopTag.scanComponents ⟨place, .list xs⟩ =
      (TopTag.scanVisit 0 ⟨⟨place, .list xs⟩, none, none⟩ >>= pure) := by
    rw [TopTag.scanComponents, walk_list]
    rfl
  cases a with
  | scanComponents =>
    rw [marking, marking, hscan, hscan]
    rfl
  | resolveAttributeValues =>
    rw [marking, marking, TopTag.resolveAttributeValues, TopTag.resolveAttributeValues, walk_list,
      walk_list]
    rfl
  | markReturned => rw [marking, marking, hreturned, hreturned]
  | markEmbedded =>
    rw [marking, marking, TopTag.markEmbedded, TopTag.markEmbedded, hunwrap, hunwrap]
    rfl
  | locateTopmost =>
    rw [marking, marking, TopTag.locate, TopTag.locate, hscan, hscan]
    rfl
  | _ => rfl

/-! ## One command -/

/-- The command keeps the context and is about a value of the tree. -/
structure Command.Addresses (command : Command) (t : Tree) : Prop where
  keeps : ∀ path, command.action ≠ .newContext path
  exists_value : ∃ u, t.at? command.place = some u

variable {t : Tree} {command : Command}

/-- A command marks alike on a tree and on the tree with attributes added. -/
theorem marking_spot (h : command.Addresses t) (added : Additions) (a : Action)
    (c d : FileContext) :
    a.marking (State.spot ⟨t.withAttributes added [], c⟩ command.place) =
      a.marking (State.spot ⟨t, d⟩ command.place) := by
  obtain ⟨u, hu⟩ := h.exists_value
  simp only [State.spot, hu, Option.getD_some]
  rcases Tree.at?_withAttributes_cases added [] hu with hat | ⟨items, items', rfl, hat⟩
  · rw [hat, List.nil_append, Option.getD_some]
    exact a.marking_withAttributes added ⟨command.place, u⟩
  · rw [hat, Option.getD_some]
    exact a.marking_list command.place items' items

/-- The marks after a command are those before it and those that it leaves on the tree without the
added attributes in an empty context. -/
theorem mem_marked_run (h : command.Addresses t) (added : Additions) (c : FileContext)
    (path : String) {i : Identity} :
    i ∈ (State.run ⟨t.withAttributes added [], c⟩ command).2.context.marked ↔
      i ∈ c.marked ∨ i ∈ (State.run ⟨t, ⟨path, []⟩⟩ command).2.context.marked := by
  obtain ⟨r, log, hlog⟩ := command.action.exists_leaves (State.spot ⟨t, c⟩ command.place)
  rw [context_run _ h.keeps, context_run _ h.keeps, marking_spot h added command.action c c,
    show State.spot ⟨t, ⟨path, []⟩⟩ = State.spot ⟨t, c⟩ from rfl, hlog, hlog,
    FileContext.mem_marked_markAll, FileContext.mem_marked_markAll]
  simp

/-- Only a command that is made to mark leaves a mark. -/
theorem isMarking_of_mem_marked_run (h : command.Addresses t) {path : String} {i : Identity}
    (hi : i ∈ (State.run ⟨t, ⟨path, []⟩⟩ command).2.context.marked) :
    command.action.isMarking = true := by
  rw [context_run _ h.keeps] at hi
  obtain ⟨action, place⟩ := command
  cases action with
  | isMarked | newContext _ | inject _ | hasAttribute _ | tag _ _ | render _ => cases hi
  | _ => rfl

/-- A command leaves the tree as it was, or with attributes added. -/
theorem exists_tree_run (ht : t.hasDistinctKeys = true) (h : command.Addresses t)
    (added : Additions) (c : FileContext) :
    ∃ added', (State.run ⟨t.withAttributes added [], c⟩ command).2.tree
      = t.withAttributes added' [] := by
  obtain ⟨u, hu⟩ := h.exists_value
  obtain ⟨u', hu'⟩ : ∃ u', (t.withAttributes added []).at? command.place = some u' := by
    rcases Tree.at?_withAttributes_cases added [] hu with hat | ⟨_, _, _, hat⟩ <;> exact ⟨_, hat⟩
  have ht' := Tree.hasDistinctKeys_withAttributes added [] ht
  have hadd {u : Tree} (hmore : ∃ more, u = (t.withAttributes added []).withAttributes more []) :
      ∃ added', u = t.withAttributes added' [] := by
    obtain ⟨more, rfl⟩ := hmore
    exact ⟨_, Tree.withAttributes_withAttributes added more [] t⟩
  obtain ⟨action, place⟩ := command
  cases action with
  | inject name =>
    refine hadd ?_
    obtain ⟨more, hmore⟩ := exists_tree_inject c name ht' hu'
    refine ⟨more, ?_⟩
    rw [State.run]
    dsimp only
    split <;> rename_i hpass <;> rw [hpass] at hmore <;> exact hmore
  | tag path settings =>
    refine hadd ?_
    obtain ⟨more, hmore⟩ := exists_tree_tagAt path settings ht' hu'
    refine ⟨more, ?_⟩
    rw [State.run]
    dsimp only
    split <;> rename_i hpass <;> rw [hpass] at hmore <;> exact hmore
  | locateTopmost =>
    refine ⟨added, ?_⟩
    rw [State.run]
    dsimp only
    split <;> rfl
  | newContext path => exact absurd rfl (h.keeps path)
  | _ => exact ⟨added, rfl⟩

theorem nodup_marked_run (s : State) (h : command.Addresses t)
    (hnodup : s.context.marked.Nodup) : (s.run command).2.context.marked.Nodup := by
  obtain ⟨r, log, hlog⟩ := command.action.exists_leaves (s.spot command.place)
  rw [context_run _ h.keeps, hlog]
  exact FileContext.nodup_marked_markAll hnodup

/-! ## A whole session -/

/-- The state after a run of commands. -/
def State.runAll (s : State) (commands : List Command) : State :=
  commands.foldl (fun s command => (s.run command).2) s

theorem State.runAll_cons (s : State) (command : Command) (commands : List Command) :
    s.runAll (command :: commands) = (s.run command).2.runAll commands := rfl

theorem mem_marked_runAll_of_additions (ht : t.hasDistinctKeys = true) {commands : List Command}
    (h : ∀ command ∈ commands, command.Addresses t) (added : Additions) (c : FileContext)
    (path : String) {i : Identity} :
    i ∈ (State.runAll ⟨t.withAttributes added [], c⟩ commands).context.marked ↔
      i ∈ c.marked ∨ ∃ command ∈ commands,
        i ∈ (State.run ⟨t, ⟨path, []⟩⟩ command).2.context.marked := by
  induction commands generalizing added c with
  | nil => simp [State.runAll]
  | cons command rest ih =>
    have hcommand := h command List.mem_cons_self
    obtain ⟨added', hadded⟩ := exists_tree_run ht hcommand added c
    have hstate : (State.run ⟨t.withAttributes added [], c⟩ command).2 =
        ⟨t.withAttributes added' [],
          (State.run ⟨t.withAttributes added [], c⟩ command).2.context⟩ := by
      rw [← hadded]
    rw [State.runAll_cons, hstate, ih fun d hd => h d (List.mem_cons_of_mem _ hd),
      mem_marked_run hcommand added c path]
    simp [or_assoc]

theorem nodup_marked_runAll {commands : List Command}
    (h : ∀ command ∈ commands, command.Addresses t) {s : State}
    (hnodup : s.context.marked.Nodup) : (s.runAll commands).context.marked.Nodup := by
  induction commands generalizing s with
  | nil => exact hnodup
  | cons command rest ih =>
    rw [State.runAll_cons]
    exact ih (fun d hd => h d (List.mem_cons_of_mem _ hd))
      (nodup_marked_run s (h command List.mem_cons_self) hnodup)

/-- A session that starts with an empty context ends with the marks that its commands leave on the
tree as it was at first, each of them alone in an empty context. So marks only come to the context,
commands in another order or repeated give the same marks, and the size of the context is the number
of identities in it. -/
theorem marked_runAll (t : Tree) (ht : t.hasDistinctKeys = true) (path : String)
    (commands : List Command) (h : ∀ command ∈ commands, command.Addresses t) :
    let marks (commands : List Command) :=
      (State.runAll ⟨t, ⟨path, []⟩⟩ commands).context.marked.toFinset
    (∀ i, i ∈ marks commands ↔ ∃ command ∈ commands, command.action.isMarking = true ∧
      i ∈ (State.run ⟨t, ⟨path, []⟩⟩ command).2.context.marked) ∧
    (∀ before after, before ++ after = commands → marks before ⊆ marks commands) ∧
    (∀ others, (∀ command, command ∈ others ↔ command ∈ commands) →
      marks others = marks commands) ∧
    (State.runAll ⟨t, ⟨path, []⟩⟩ commands).context.size = (marks commands).card := by
  intro marks
  have hmarks {commands : List Command} (h : ∀ command ∈ commands, command.Addresses t)
      (i : Identity) : i ∈ marks commands ↔ ∃ command ∈ commands,
        i ∈ (State.run ⟨t, ⟨path, []⟩⟩ command).2.context.marked := by
    have hall := mem_marked_runAll_of_additions ht h (fun _ => []) ⟨path, []⟩ path (i := i)
    rw [Tree.withAttributes_nil] at hall
    rw [List.mem_toFinset, hall]
    simp
  refine ⟨fun i => ?_, fun before after hsplit i hi => ?_, fun others hsame => ?_, ?_⟩
  · rw [hmarks h]
    constructor
    · rintro ⟨command, hmem, hi⟩
      exact ⟨command, hmem, isMarking_of_mem_marked_run (h command hmem) hi, hi⟩
    · rintro ⟨command, hmem, -, hi⟩
      exact ⟨command, hmem, hi⟩
  · subst hsplit
    rw [hmarks fun d hd => h d (List.mem_append_left _ hd)] at hi
    rw [hmarks h]
    obtain ⟨command, hmem, hi⟩ := hi
    exact ⟨command, List.mem_append_left _ hmem, hi⟩
  · ext i
    rw [hmarks h, hmarks fun d hd => h d ((hsame d).mp hd)]
    simp only [hsame]
  · exact (List.toFinset_card_of_nodup (nodup_marked_runAll h List.nodup_nil)).symm

/-- A session with a command that fails, one that marks a list, and attributes added while other
commands mark. -/
def mixedSession : List Command :=
  [⟨.scanComponents, [.field "body", .field "body"]⟩, ⟨.resolveReturnSites, []⟩,
    ⟨.inject "data-path", []⟩, ⟨.mark, [.field "body", .field "body"]⟩,
    ⟨.tag (.text "/app/src/App.tsx") {}, [.field "body"]⟩, ⟨.resolveAttributeValues, []⟩,
    ⟨.locateTopmost, []⟩]

theorem marked_mixedSession :
    (∀ command ∈ mixedSession, command.Addresses guardedComponent) ∧
    guardedComponent.hasDistinctKeys = true ∧
    (State.runAll ⟨guardedComponent, ⟨"src/App.tsx", []⟩⟩ mixedSession).context.size = 3 ∧
    (State.runAll ⟨guardedComponent, ⟨"src/App.tsx", []⟩⟩ mixedSession).context.marked.toFinset =
      (State.runAll ⟨guardedComponent, ⟨"src/App.tsx", []⟩⟩
        mixedSession.reverse).context.marked.toFinset := by
  have hkeeps : ∀ command ∈ mixedSession, ∀ path, command.action ≠ .newContext path := by
    simp [mixedSession]
  have hvalues : ∀ command ∈ mixedSession, (guardedComponent.at? command.place).isSome = true := by
    decide +kernel
  have haddresses : ∀ command ∈ mixedSession, command.Addresses guardedComponent :=
    fun command hmem => ⟨hkeeps command hmem, Option.isSome_iff_exists.mp (hvalues command hmem)⟩
  have hkeys : guardedComponent.hasDistinctKeys = true := by decide +kernel
  obtain ⟨-, -, hothers, -⟩ :=
    marked_runAll guardedComponent hkeys "src/App.tsx" mixedSession haddresses
  exact ⟨haddresses, hkeys, by decide +kernel, (hothers mixedSession.reverse (by simp)).symm⟩

end Session

end TopTag
