import Mathlib.Data.List.TakeWhile
import TopTag.Concrete.Conversion
import TopTag.Proofs.Layout

/-!
# Malformed sources

A concrete tree tells of malformed text by nodes that are errors, and by flags that lead to them. In
a tree whose flags are consistent the search that follows the flags, down one branch and without
turning back, ends at the first error of the whole tree (`find?_nodes`). So a file is refused
exactly when its tree has an error, and the position that is reported is where the first one starts.
-/

namespace TopTag

namespace Concrete

/-- The flag of one node is set just when the node is an error or the flag of a child is set. -/
def Flagged (n : Concrete) : Prop :=
  n.head.hasError = true ↔ n.isError = true ∨ ∃ c ∈ n.children, c.head.hasError = true

instance (n : Concrete) : Decidable n.Flagged := inferInstanceAs (Decidable (_ ↔ _))

/-- The flags of all nodes of a tree are set so. -/
def Consistent (root : Concrete) : Prop := ∀ n ∈ root.nodes, n.Flagged

instance (root : Concrete) : Decidable root.Consistent :=
  inferInstanceAs (Decidable (∀ n ∈ root.nodes, n.Flagged))

/-- Of all nodes of the tree, parents before children and children in their order, `e` is the first
that is an error. -/
def FirstError (root e : Concrete) : Prop :=
  e.isError = true ∧
    ∃ before after, root.nodes = before ++ e :: after ∧ ∀ m ∈ before, m.isError = false

theorem firstError_iff {root e : Concrete} :
    FirstError root e ↔ root.nodes.find? isError = some e := by
  simp [FirstError, List.find?_eq_some_iff_append]

theorem isError_iff {n : Concrete} :
    n.isError = true ↔ n.kind = "ERROR" ∨ n.head.missing = true := by
  simp [isError]

theorem Flagged.hasError_of_missing {n : Concrete} (h : n.Flagged) (hm : n.head.missing = true) :
    n.head.hasError = true :=
  h.mpr (.inl (isError_iff.mpr (.inr hm)))

mutual

/-- In a consistent tree the flags lead to the first error there is. -/
theorem find?_nodes (n : Concrete) (h : ∀ m ∈ n.nodes, m.Flagged) :
    n.nodes.find? isError = if n.head.hasError then some n.firstError else none := by
  have hn : n.Flagged := h n n.mem_nodes_self
  cases n with
  | node head cs =>
    have hcs := find?_nodesAll head cs cs fun m hm => h m (List.mem_cons_of_mem _ hm)
    unfold Flagged at hn
    rw [nodes, List.find?_cons, firstError, hcs]
    by_cases herror : (Concrete.node head cs).isError = true
    · have hflag : (Concrete.node head cs).head.hasError = true := hn.mpr (.inl herror)
      simp [herror, hflag]
    · -- the node is no error, so its flag comes from its children
      have hchildren : (Concrete.node head cs).head.hasError = true ↔
          ∃ c ∈ cs, c.head.hasError = true := hn.trans (or_iff_right herror)
      simp [herror, hchildren]

/-- The same for the children of a node, from one of them on. -/
theorem find?_nodesAll (head : Head) (all cs : List Concrete) (h : ∀ m ∈ nodesAll cs, m.Flagged) :
    (nodesAll cs).find? isError =
      if ∃ c ∈ cs, c.head.hasError = true then some (firstErrorAmong head all cs) else none := by
  cases cs with
  | nil => simp [nodesAll]
  | cons c rest =>
    rw [nodesAll] at h ⊢
    have hc := find?_nodes c fun m hm => h m (List.mem_append_left _ hm)
    have hrest := find?_nodesAll head all rest fun m hm => h m (List.mem_append_right _ hm)
    have hmissing := (h c (List.mem_append_left _ c.mem_nodes_self)).hasError_of_missing
    rw [List.find?_append, hc, hrest, firstErrorAmong]
    by_cases hflag : c.head.hasError = true
    · simp [hflag]
    · have hwhole : c.head.missing = false := by grind
      simp [hflag, hwhole]

end

/-- The flag of the root of a consistent tree is set just when there is an error in the tree. -/
theorem Consistent.hasError_iff {root : Concrete} (h : root.Consistent) :
    root.head.hasError = true ↔ ∃ m ∈ root.nodes, m.isError = true := by
  rw [← List.find?_isSome, find?_nodes root h]
  split <;> simp_all

theorem Consistent.firstError {root : Concrete} (h : root.Consistent)
    (hflag : root.head.hasError = true) : FirstError root root.firstError := by
  rw [firstError_iff, find?_nodes root h, if_pos hflag]

theorem FirstError.unique {root e e' : Concrete} (h : FirstError root e) (h' : FirstError root e') :
    e = e' := by
  rw [firstError_iff] at h h'
  exact Option.some.inj (h.symm.trans h')

end Concrete

namespace SourceText

/-- Before the byte stand `row` whole lines of the source, and `column` bytes of the next one. -/
def StartPoint (source : String) (byte row column : Nat) : Prop :=
  ∃ lines line : List UInt8, (Text.Utf8.encode source.toList).take byte = lines ++ line ∧
    lines.count 10 = row ∧ (lines = [] ∨ lines.getLast? = some 10) ∧
    10 ∉ line ∧ line.length = column

/-- Cutting bytes behind their last newline. -/
theorem takeWhile_reverse_eq {lines line : List UInt8}
    (hlines : lines = [] ∨ lines.getLast? = some 10) (hline : 10 ∉ line) :
    (lines ++ line).reverse.takeWhile (· != 10) = line.reverse := by
  have hstop : lines.reverse.takeWhile (· != 10) = [] := by
    rcases hlines with rfl | hlast
    · rfl
    · rw [← List.head?_reverse] at hlast
      obtain ⟨rest, hrest⟩ := List.head?_eq_some_iff.mp hlast
      simp [hrest]
  have hall : ∀ b ∈ line.reverse, (b != 10) = true := by
    intro b hb
    have hne : b ≠ 10 := by grind
    simpa using hne
  rw [List.reverse_append, List.takeWhile_append_of_pos hall, hstop, List.append_nil]

theorem exists_lines (bytes : List UInt8) : ∃ lines line : List UInt8, bytes = lines ++ line ∧
    (lines = [] ∨ lines.getLast? = some 10) ∧ 10 ∉ line := by
  refine ⟨(bytes.reverse.dropWhile (· != 10)).reverse, (bytes.reverse.takeWhile (· != 10)).reverse,
    ?_, ?_, ?_⟩
  · rw [← List.reverse_append, List.takeWhile_append_dropWhile, List.reverse_reverse]
  · rw [List.getLast?_reverse, List.reverse_eq_nil_iff]
    cases hrest : bytes.reverse.dropWhile (· != 10) with
    | nil => exact .inl rfl
    | cons b rest =>
      have hb := List.head_dropWhile_not (· != (10 : UInt8)) (l := bytes.reverse) (by simp [hrest])
      simp only [hrest, List.head_cons] at hb
      exact .inr (by simpa using hb)
  · intro hmem
    have hne := List.mem_takeWhile_imp (List.mem_reverse.mp hmem)
    simp at hne

/-- The position of a byte says where it stands, with the lines counted from one. -/
theorem position_eq_iff {source : String} {byte line column : Nat} :
    (ofString source).position byte = (line, column) ↔
      ∃ row, StartPoint source byte row column ∧ line = row + 1 := by
  have hbytes : ((ofString source).bytes.extract 0 byte).toList =
      (Text.Utf8.encode source.toList).take byte := by
    simp [ofString]
  have hposition {lines last : List UInt8}
      (htake : (Text.Utf8.encode source.toList).take byte = lines ++ last)
      (hlines : lines = [] ∨ lines.getLast? = some 10) (hlast : 10 ∉ last) :
      (ofString source).position byte = (lines.count 10 + 1, last.length) := by
    unfold position
    simp only [hbytes, htake]
    rw [takeWhile_reverse_eq hlines hlast, List.count_append, List.count_eq_zero.mpr hlast]
    simp
  constructor
  · intro h
    obtain ⟨lines, last, htake, hlines, hlast⟩ :=
      exists_lines ((Text.Utf8.encode source.toList).take byte)
    rw [hposition htake hlines hlast, Prod.mk.injEq] at h
    exact ⟨lines.count 10, ⟨lines, last, htake, rfl, hlines, hlast, h.2⟩, h.1.symm⟩
  · rintro ⟨row, ⟨lines, last, htake, rfl, hlines, hlast, rfl⟩, rfl⟩
    exact hposition htake hlines hlast

end SourceText

theorem fileOfConcrete_eq_syntaxError_iff {source : String} {root : Concrete}
    {line column : Nat} : fileOfConcrete source root = .error (.syntaxError line column) ↔
      root.head.hasError = true ∧
        (SourceText.ofString source).position root.firstError.head.start = (line, column) := by
  unfold fileOfConcrete
  cases root.head.hasError with
  | true => simp [Prod.ext_iff]
  | false =>
    simp only [Bool.false_eq_true, if_false, false_and, iff_false]
    split <;> simp

open SourceText in
/-- In a tree with consistent flags, a file is refused as malformed exactly when some node is an
error or missing, and the position reported is where the first such node starts. -/
theorem syntaxError_iff_firstError (source : String) (root : Concrete) (h : root.Consistent) :
    ((∃ line column, fileOfConcrete source root = .error (.syntaxError line column)) ↔
      ∃ m ∈ root.nodes, m.kind = "ERROR" ∨ m.head.missing = true) ∧
    ∀ line column, fileOfConcrete source root = .error (.syntaxError line column) ↔
      ∃ e row, root.FirstError e ∧ StartPoint source e.head.start row column ∧ line = row + 1 := by
  simp only [fileOfConcrete_eq_syntaxError_iff, ← Concrete.isError_iff, ← h.hasError_iff]
  constructor
  · constructor
    · rintro ⟨line, column, hflag, -⟩
      exact hflag
    · intro hflag
      exact ⟨_, _, hflag, rfl⟩
  · intro line column
    constructor
    · rintro ⟨hflag, hposition⟩
      obtain ⟨row, hpoint, hline⟩ := position_eq_iff.mp hposition
      exact ⟨_, row, h.firstError hflag, hpoint, hline⟩
    · rintro ⟨e, row, he, hpoint, hline⟩
      have hflag : root.head.hasError = true := by
        obtain ⟨herror, before, after, hnodes, -⟩ := he
        exact h.hasError_iff.mpr ⟨e, by simp [hnodes], herror⟩
      rw [(h.firstError hflag).unique he]
      exact ⟨hflag, position_eq_iff.mpr ⟨row, hpoint, hline⟩⟩

/-- A semicolon that is missing on the second line. -/
def missingSemicolon : Concrete :=
  .node { kind := ";", start := 3, stop := 3, named := false, missing := true, hasError := true } []

/-- A program of two lines: a sound statement, one without its semicolon, and an error behind it. -/
def brokenProgram : Concrete :=
  .node { kind := "program", start := 0, stop := 5, hasError := true }
    [.node { kind := "expression_statement", start := 0, stop := 1 }
        [.node { kind := "identifier", start := 0, stop := 1 } []],
      .node { kind := "expression_statement", start := 2, stop := 3, hasError := true }
        [.node { kind := "identifier", start := 2, stop := 3 } [], missingSemicolon],
      .node { kind := "ERROR", start := 4, stop := 5, hasError := true } []]

theorem syntaxError_brokenProgram :
    brokenProgram.Consistent ∧ brokenProgram.FirstError missingSemicolon ∧
      fileOfConcrete "a\nb c" brokenProgram = .error (.syntaxError 2 1) := by
  have hconsistent : brokenProgram.Consistent := by decide
  have hfirst : brokenProgram.FirstError missingSemicolon :=
    ⟨rfl, brokenProgram.nodes.take 5, brokenProgram.nodes.drop 6, rfl, by decide⟩
  refine ⟨hconsistent, hfirst, ?_⟩
  apply ((syntaxError_iff_firstError "a\nb c" brokenProgram hconsistent).2 2 1).mpr
  exact ⟨missingSemicolon, 1, hfirst,
    ⟨[97, 10], [98], by decide, rfl, .inr rfl, by decide, rfl⟩, rfl⟩

end TopTag
