import TopTag.Proofs.Numbering

/-!
# Outlines

The outline of a concrete tree is its shape: kinds, flags and fields, without offsets and error
marks. Outlines commute with everything that is read off a node. Trees of one outline correspond
(`Bridge.outline`), and numbering a tree keeps its outline (`outline_numbered`).
-/

namespace TopTag

namespace Concrete

mutual

/-- The tree without its offsets and error marks. -/
def outline : Concrete → Concrete
  | .node h cs =>
    .node { h with start := 0, stop := 0, missing := false, hasError := false } (outlineAll cs)

def outlineAll : List Concrete → List Concrete
  | [] => []
  | c :: rest => outline c :: outlineAll rest

end

theorem outlineAll_eq_map (cs : List Concrete) : outlineAll cs = cs.map outline := by
  induction cs with
  | nil => rfl
  | cons c rest ih => rw [outlineAll, List.map_cons, ih]

@[simp] theorem children_outline (n : Concrete) : n.outline.children = n.children.map outline := by
  cases n with
  | node h cs => exact outlineAll_eq_map cs

@[simp] theorem kind_outline (n : Concrete) : n.outline.kind = n.kind := by
  cases n
  rfl

@[simp] theorem named_outline (n : Concrete) : n.outline.head.named = n.head.named := by
  cases n
  rfl

@[simp] theorem field_outline (n : Concrete) : n.outline.head.field = n.head.field := by
  cases n
  rfl

@[simp] theorem parts_outline (n : Concrete) : n.outline.parts = n.parts.map outline := by
  rw [parts, parts, children_outline, List.filter_map]
  simp only [Function.comp_def, named_outline, kind_outline]

@[simp] theorem child?_outline (n : Concrete) (field : String) :
    n.outline.child? field = (n.child? field).map outline := by
  rw [child?, child?, children_outline, List.find?_map]
  simp only [Function.comp_def, field_outline]

mutual

theorem nodes_outline (n : Concrete) : n.outline.nodes = n.nodes.map outline := by
  cases n with
  | node h cs =>
    rw [outline, nodes, nodes, List.map_cons, nodesAll_outlineAll cs, outline]

theorem nodesAll_outlineAll (cs : List Concrete) :
    nodesAll (outlineAll cs) = (nodesAll cs).map outline := by
  cases cs with
  | nil => rfl
  | cons c rest =>
    rw [outlineAll, nodesAll, nodesAll, List.map_append, nodes_outline c, nodesAll_outlineAll rest]

end

mutual

theorem outline_numbered (k : Nat) (n : Concrete) : (n.numbered k).outline = n.outline := by
  cases n with
  | node h cs => rw [numbered, outline, outline, outlineAll_numberedAll (k + 1) cs]

theorem outlineAll_numberedAll (k : Nat) (cs : List Concrete) :
    outlineAll (numberedAll k cs) = outlineAll cs := by
  cases cs with
  | nil => rfl
  | cons c rest =>
    rw [numberedAll, outlineAll, outlineAll, outline_numbered k c, outlineAll_numberedAll _ rest]

end

end Concrete

/-- Trees of one outline correspond, wherever their nodes stand in the text. -/
theorem Bridge.outline :
    Bridge (fun _ n n' => n'.outline = n.outline) fun _ => False := by
  have halike {n n' : Concrete} (h : n'.outline = n.outline) :
      n'.kind = n.kind ∧ n'.head.named = n.head.named ∧ n'.head.field = n.head.field := by
    rw [← n.kind_outline, ← n.named_outline, ← n.field_outline, ← h]
    simp
  have hchildren {n n' : Concrete} (h : n'.outline = n.outline) :
      List.Forall₂ (fun c c' => c'.outline = c.outline) n.children n'.children := by
    have hmap := congrArg Concrete.children h
    rw [Concrete.children_outline, Concrete.children_outline] at hmap
    have hsame : List.Forall₂ (fun a b => b = a) (n.children.map Concrete.outline)
        (n'.children.map Concrete.outline) := by
      rw [hmap]
      exact List.forall₂_refl _
    rwa [List.forall₂_map_left_iff, List.forall₂_map_right_iff] at hsame
  exact .of_children halike hchildren

end TopTag
