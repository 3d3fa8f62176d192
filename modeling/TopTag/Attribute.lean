import TopTag.FileContext
import TopTag.Markup
import TopTag.Tree.Walk

/-!
# Adding an attribute to marked tags

`inject` walks a tree and appends a string attribute to each marked opening tag that has no plain
attribute of that name. The walk goes on into a tag after it was changed. A fault ends it, and what
was appended before stays.
-/

namespace TopTag

/-- A name value equals a name; no name at all equals `null`. -/
def Tree.isName (t : Tree) (name : Option String) : Bool :=
  match t, name with
  | .null, none => true
  | .text value, some s => value == s
  | _, _ => false

/-- A tag has an attribute of the given plain name. -/
def hasAttribute (t : Tree) (name : Option String) : Except Fault Bool := do
  let attributes ← t.consult "attributes"
  let entries ← attributes.entries
  return entries.any fun a => a.attributeName.isName name

/-- Appends to a tag's attributes, which are created when they are missing. -/
def appendAttribute (t : Tree) (added : Tree) : Except Fault Tree :=
  match t with
  | .object fields =>
    match fields.lookup "attributes" with
    | none => .ok (.object (fields ++ [("attributes", .list [added])]))
    | some (.list items) =>
      .ok (.object (Tree.updateField (fun _ => .list (items ++ [added])) "attributes" fields))
    | some _ => .error .notAppendable
  | _ => .error .notObject

/-- The tag as it is after its visit, or `none` when the visit leaves it alone. -/
def tagged? (c : FileContext) (name : String) (s : Spot) : Except Fault (Option Tree) := do
  let kind ← s.tree.require "type"
  if kind.isText "JSXOpeningElement" && c.isMarked s.identity then
    if ← hasAttribute s.tree (some name) then return none
    else
      let tag ← appendAttribute s.tree (.stringAttribute name c.filePath)
      return some tag
  else return none

namespace Tree

mutual

/-- A bound on the visits that a walk makes below a tree while it adds attributes: every opening
tag counts three more, for the nodes of one new attribute. -/
def load : Tree → Nat
  | .list items => loadItems items
  | .object fields =>
    loadFields fields + (if (fields.lookup "type").any (·.isText "JSXOpeningElement") then 4 else 1)
  | _ => 0

def loadItems : List Tree → Nat
  | [] => 0
  | t :: rest => load t + loadItems rest

def loadFields : List (String × Tree) → Nat
  | [] => 0
  | (_, t) :: rest => load t + loadFields rest

end

theorem loadItems_append (as bs : List Tree) :
    loadItems (as ++ bs) = loadItems as + loadItems bs := by
  induction as with
  | nil => simp [loadItems]
  | cons a as ih => simp only [List.cons_append, loadItems, ih]; omega

theorem loadFields_append (as bs : List (String × Tree)) :
    loadFields (as ++ bs) = loadFields as + loadFields bs := by
  induction as with
  | nil => simp [loadFields]
  | cons a as ih =>
    obtain ⟨key, t⟩ := a
    simp only [List.cons_append, loadFields, ih]
    omega

theorem loadFields_updateField (fields : List (String × Tree)) (new : Tree) {key : String}
    {old : Tree} (h : fields.lookup key = some old) :
    loadFields (updateField (fun _ => new) key fields) + old.load
      = loadFields fields + new.load := by
  induction fields with
  | nil => simp at h
  | cons f rest ih =>
    obtain ⟨k, t⟩ := f
    rw [List.lookup_cons] at h
    by_cases hk : k = key
    · subst hk
      simp only [beq_self_eq_true, Option.some.injEq] at h
      simp only [updateField, beq_self_eq_true, if_true, loadFields, h]
      omega
    · have h1 : (key == k) = false := by simpa using fun e => hk e.symm
      have h2 : (k == key) = false := by simpa using hk
      simp only [h1] at h
      have := ih h
      simp only [updateField, h2, loadFields]
      simp only [Bool.false_eq_true, if_false, loadFields]
      omega

theorem load_stringAttribute (name value : String) : (stringAttribute name value).load = 3 := by
  simp [stringAttribute, load, loadFields, isText]

end Tree

theorem load_nodeItems_le (i : Nat) (items : List Tree) :
    total (fun p => p.2.load) (nodeItems i items) ≤ Tree.loadItems items := by
  induction items generalizing i with
  | nil => simp [nodeItems, Tree.loadItems]
  | cons t rest ih =>
    have := ih (i + 1)
    rw [nodeItems, Tree.loadItems]
    split
    · simp only [total_cons]
      omega
    · omega

theorem load_fieldNodes_le (place : Place) (key : String) (value : Tree) :
    total (fun s => s.tree.load) (fieldNodes place key value) ≤ value.load := by
  cases value with
  | object fields =>
    rw [fieldNodes]
    split <;> simp
  | list items =>
    have := load_nodeItems_le 0 items
    simp only [fieldNodes, total_map, Tree.load]
    omega
  | _ => simp [fieldNodes]

theorem load_fieldsNodes_le (place : Place) (fields : List (String × Tree)) :
    total (fun p => p.1.tree.load) (fieldsNodes place fields) ≤ Tree.loadFields fields := by
  induction fields with
  | nil => simp [fieldsNodes, Tree.loadFields]
  | cons f rest ih =>
    obtain ⟨key, value⟩ := f
    have := load_fieldNodes_le place key value
    rw [fieldsNodes, Tree.loadFields]
    split
    · omega
    · simp only [total_append, total_map]
      omega

def Spot.childSpots (s : Spot) : List Spot := s.children.map Prod.fst

def pendingLoad (pending : List Spot) : Nat := total (fun s => s.tree.load) pending

theorem pendingLoad_append (as bs : List Spot) :
    pendingLoad (as ++ bs) = pendingLoad as + pendingLoad bs := by
  simp [pendingLoad]

theorem pendingLoad_cons (s : Spot) (pending : List Spot) :
    pendingLoad (s :: pending) = s.tree.load + pendingLoad pending := by
  simp [pendingLoad]

theorem pendingLoad_childSpots (s : Spot) :
    pendingLoad s.childSpots = total (fun p => p.1.tree.load) s.children := by
  simp only [pendingLoad, Spot.childSpots, total_map]

/-- An object's children carry less load than it, and less by four when it is an opening tag. -/
theorem pendingLoad_childSpots_le (place : Place) (fields : List (String × Tree)) :
    pendingLoad (Spot.mk place (.object fields)).childSpots ≤ Tree.loadFields fields := by
  rw [pendingLoad_childSpots]
  exact load_fieldsNodes_le place fields

theorem isObject_of_require {t value : Tree} {key : String} (h : t.require key = .ok value) :
    ∃ fields, t = .object fields ∧ fields.lookup key = some value := by
  cases t <;> simp only [Tree.require] at h <;> try contradiction
  rename_i fields
  refine ⟨fields, rfl, ?_⟩
  split at h <;> simp_all

/-- What a visit that changes nothing found out about its value. -/
theorem isObject_of_tagged? {c : FileContext} {name : String} {s : Spot} {r : Option Tree}
    (h : tagged? c name s = .ok r) : ∃ fields, s.tree = .object fields := by
  unfold tagged? at h
  cases hk : s.tree.require "type" with
  | error f => simp [hk, bind, Except.bind] at h
  | ok kind =>
    obtain ⟨fields, hf, _⟩ := isObject_of_require hk
    exact ⟨fields, hf⟩

/-- What a visit that changes its value found out: the value is an opening tag, which takes the
attribute. -/
theorem exists_of_tagged?_some {c : FileContext} {name : String} {s : Spot} {tag : Tree}
    (h : tagged? c name s = .ok (some tag)) :
    ∃ kind, s.tree.require "type" = .ok kind ∧ kind.isText "JSXOpeningElement" = true ∧
      appendAttribute s.tree (.stringAttribute name c.filePath) = .ok tag := by
  obtain ⟨kind, hkind, h⟩ := exists_of_bind_ok h
  split at h
  · rename_i hmarked
    obtain ⟨found, -, h⟩ := exists_of_bind_ok h
    cases found with
    | true => cases h
    | false =>
      obtain ⟨_, happend, h⟩ := exists_of_bind_ok h
      cases h
      exact ⟨kind, hkind, (Bool.and_eq_true_iff.mp hmarked).1, happend⟩
  · cases h

/-- A tag that takes an attribute takes its load. -/
theorem loadFields_of_appendAttribute {fields : List (String × Tree)} {added tag : Tree}
    (h : appendAttribute (.object fields) added = .ok tag) :
    ∃ fields', tag = .object fields' ∧
      Tree.loadFields fields' = Tree.loadFields fields + added.load := by
  rw [appendAttribute] at h
  split at h
  · cases h
    refine ⟨_, rfl, ?_⟩
    simp only [Tree.loadFields_append, Tree.loadFields, Tree.load, Tree.loadItems]
    omega
  · rename_i items hattributes
    cases h
    refine ⟨_, rfl, ?_⟩
    have hupdate := Tree.loadFields_updateField fields (.list (items ++ [added])) hattributes
    simp only [Tree.load, Tree.loadItems_append, Tree.loadItems] at hupdate
    omega
  · cases h

/-- The children of a changed tag carry less load than the tag did. -/
theorem load_tagged?_lt {c : FileContext} {name : String} {s : Spot} {tag : Tree}
    (h : tagged? c name s = .ok (some tag)) :
    pendingLoad (Spot.mk s.place tag).childSpots < s.tree.load := by
  obtain ⟨kind, hkind, hopening, happend⟩ := exists_of_tagged?_some h
  obtain ⟨fields, hfields, htype⟩ := isObject_of_require hkind
  rw [hfields] at happend
  obtain ⟨fields', rfl, hadded⟩ := loadFields_of_appendAttribute happend
  have hload : s.tree.load = Tree.loadFields fields + 4 := by
    rw [hfields, Tree.load, htype, Option.any_some, if_pos hopening]
  have hbelow := pendingLoad_childSpots_le s.place fields'
  have hattribute := Tree.load_stringAttribute name c.filePath
  omega

/-- A tree in the course of a pass, and the number of attributes appended so far. -/
structure Pass where
  tree : Tree
  added : Nat

/-- Makes the pending visits, the first one first. A changed tag is put back into the tree, and its
children are visited as they are after the change. -/
def injectFrom (c : FileContext) (name : String) (pending : List Spot) (pass : Pass) :
    Pass × Option Fault :=
  match pending with
  | [] => (pass, none)
  | s :: rest =>
    match _h : tagged? c name s with
    | .error fault => (pass, some fault)
    | .ok none => injectFrom c name (s.childSpots ++ rest) pass
    | .ok (some tag) =>
      injectFrom c name ((Spot.mk s.place tag).childSpots ++ rest)
        ⟨pass.tree.update (fun _ => tag) s.place, pass.added + 1⟩
termination_by pendingLoad pending
decreasing_by
  · rw [pendingLoad_append, pendingLoad_cons]
    obtain ⟨fields, hf⟩ := isObject_of_tagged? _h
    obtain ⟨place, tree⟩ := s
    simp only at hf
    subst hf
    have hc := pendingLoad_childSpots_le place fields
    have hl : Tree.loadFields fields < (Tree.object fields).load := by
      simp only [Tree.load]
      split <;> omega
    simp only
    omega
  · rw [pendingLoad_append, pendingLoad_cons]
    have := load_tagged?_lt _h
    omega

/-- Appends the attribute to every marked opening tag below a place that lacks it. -/
def inject (c : FileContext) (name : String) (root : Tree) (place : Place) : Pass × Option Fault :=
  injectFrom c name [⟨place, (root.at? place).getD .null⟩] ⟨root, 0⟩

end TopTag
