import Mathlib.Data.List.Infix
import TopTag.Proofs.Rendered
import TopTag.Splice

/-!
# Quotes in attribute values

An attribute is written with its value between double quotes, so a quote in the value is written as
a reference. `unescape` reads references back. What is written has no quote of its own
(`quote_not_mem_escapeList`), and reading it back is the same as reading the value itself
(`unescapeList_escapeList`). So a value comes back exactly when it holds no reference to begin with,
and values of that sort are told apart by what is written for them.
-/

namespace TopTag

/-- The attribute has a name and a string literal, whose content is the value. -/
structure Tree.Writes (a : Tree) (name value : String) : Prop where
  named : a.attributeName ≠ .null
  name : a.attributeName.shown = .ok name
  literal : (a.get "value").isA "StringLiteral" = true
  content : (((a.get "value").field? "value").getD (.text "")).shown = .ok value

namespace Splice

/-- What is written for a double quote. -/
def quoteReference : List Char := ['&', 'q', 'u', 'o', 't', ';']

/-- The references, found from the left and without overlap, become double quotes. -/
def unescapeList : List Char → List Char
  | '&' :: 'q' :: 'u' :: 'o' :: 't' :: ';' :: rest => '"' :: unescapeList rest
  | c :: rest => c :: unescapeList rest
  | [] => []

def unescape (s : String) : String := String.ofList (unescapeList s.toList)

theorem quote_not_mem_escapeList (cs : List Char) : '"' ∉ escapeList cs := by
  induction cs with
  | nil => simp [escapeList]
  | cons c rest ih =>
    unfold escapeList
    split
    · simpa using ih
    · rename_i hc
      simpa using ⟨Ne.symm hc, ih⟩

/-- A piece without quotes and ampersands begins what is written for a text exactly when it begins
the text. -/
theorem prefix_escapeList_iff {p : List Char} (hquote : '"' ∉ p) (hamp : '&' ∉ p) (cs : List Char) :
    p <+: escapeList cs ↔ p <+: cs := by
  induction p generalizing cs with
  | nil => simp
  | cons x p ih =>
    have hp := ih (List.not_mem_of_not_mem_cons hquote) (List.not_mem_of_not_mem_cons hamp)
    cases cs with
    | nil => simp [escapeList]
    | cons c rest =>
      unfold escapeList
      split
      · -- a quote is written as a piece that begins with `&`
        rename_i hc
        subst hc
        have hx : x ≠ '&' := by grind
        have hx' : x ≠ '"' := by grind
        simp [hx, hx']
      · rw [List.cons_prefix_cons, List.cons_prefix_cons, hp]

/-- A character that stays as it is begins a reference after escaping only if it did before. -/
theorem quoteReference_prefix_cons_escapeList (c : Char) (rest : List Char) :
    quoteReference <+: c :: escapeList rest ↔ quoteReference <+: c :: rest := by
  have htail := prefix_escapeList_iff (p := ['q', 'u', 'o', 't', ';']) (by decide) (by decide) rest
  exact List.cons_prefix_cons.trans ((and_congr_right' htail).trans List.cons_prefix_cons.symm)

theorem unescapeList_append (rest : List Char) :
    unescapeList (quoteReference ++ rest) = '"' :: unescapeList rest := rfl

theorem quoteReference_prefix_iff {cs : List Char} :
    quoteReference <+: cs ↔ ∃ rest, cs = '&' :: 'q' :: 'u' :: 'o' :: 't' :: ';' :: rest := by
  constructor
  · rintro ⟨rest, rfl⟩
    exact ⟨rest, rfl⟩
  · rintro ⟨rest, rfl⟩
    exact List.prefix_append quoteReference rest

theorem not_quoteReference_prefix {c : Char} {rest : List Char}
    (h : ∀ rest', c = '&' → rest = 'q' :: 'u' :: 'o' :: 't' :: ';' :: rest' → False) :
    ¬ quoteReference <+: c :: rest := by
  rw [quoteReference_prefix_iff]
  grind

theorem unescapeList_cons {c : Char} {rest : List Char} (h : ¬ quoteReference <+: c :: rest) :
    unescapeList (c :: rest) = c :: unescapeList rest := by
  rw [quoteReference_prefix_iff] at h
  conv_lhs => unfold unescapeList
  split
  · rename_i rest' heq
    exact absurd ⟨rest', heq⟩ h
  · rename_i heq
    cases heq
    rfl
  · contradiction

/-- Reading back what is written for a text is reading the text. -/
theorem unescapeList_escapeList (cs : List Char) :
    unescapeList (escapeList cs) = unescapeList cs := by
  fun_induction unescapeList cs with
  | case1 rest ih =>
    have hescape : escapeList (quoteReference ++ rest) = quoteReference ++ escapeList rest := rfl
    exact (congrArg unescapeList hescape).trans (congrArg _ ih)
  | case2 c rest hno ih =>
    unfold escapeList
    split
    · rename_i hc
      rw [hc, ← ih]
      exact unescapeList_append _
    · rw [unescapeList_cons, ih]
      rw [quoteReference_prefix_cons_escapeList]
      exact not_quoteReference_prefix hno
  | case3 => rfl

/-- Reading back never lengthens a text. -/
theorem length_unescapeList_le (cs : List Char) : (unescapeList cs).length ≤ cs.length := by
  fun_induction unescapeList cs with
  | case1 rest ih =>
    simp only [List.length_cons]
    omega
  | case2 c rest hno ih =>
    simp only [List.length_cons]
    omega
  | case3 => exact Nat.le_refl _

/-- Reading back leaves exactly the texts without a reference as they are. -/
theorem unescapeList_eq_self_iff (cs : List Char) :
    unescapeList cs = cs ↔ ¬ quoteReference <:+: cs := by
  fun_induction unescapeList cs with
  | case1 rest ih =>
    have hinfix : quoteReference <:+: quoteReference ++ rest := (List.prefix_append _ _).isInfix
    have hlonger : '"' :: unescapeList rest ≠ quoteReference ++ rest := by
      intro heq
      have hlength := congrArg List.length heq
      have hle := length_unescapeList_le rest
      simp [quoteReference] at hlength
      omega
    exact iff_of_false hlonger (not_not_intro hinfix)
  | case2 c rest hno ih =>
    have hprefix := not_quoteReference_prefix hno
    rw [List.infix_cons_iff, or_iff_right hprefix, ← ih, List.cons.injEq, and_iff_right rfl]
  | case3 => decide

theorem unescape_escape_eq_iff (v : String) :
    unescape (escape v) = v ↔ ¬ quoteReference <:+: v.toList := by
  rw [unescape, escape, String.toList_ofList, unescapeList_escapeList,
    ← unescapeList_eq_self_iff, ← String.toList_inj, String.toList_ofList]

/-- Texts without a reference are told apart by what is written for them. -/
theorem eq_of_escape_eq {v w : String} (hv : ¬ quoteReference <:+: v.toList)
    (hw : ¬ quoteReference <:+: w.toList) (h : escape v = escape w) : v = w := by
  rw [← (unescape_escape_eq_iff v).mpr hv, h, (unescape_escape_eq_iff w).mpr hw]

theorem attributeText_of_writes {a : Tree} {name value : String} (h : a.Writes name value) :
    attributeText a = .ok (name ++ "=\"" ++ escape value ++ "\"") := by
  obtain ⟨hnamed, hname, hliteral, hcontent⟩ := h
  obtain ⟨fields, hfields⟩ := Tree.isObject_of_isA hliteral
  unfold attributeText
  split
  · contradiction
  · split
    · rename_i hnull
      rw [hnull] at hliteral
      contradiction
    · have hconsult : (a.get "value").consult "type" = .ok ((a.get "value").get "type") := by
        simp [Tree.consult, hfields, Tree.isObject]
      have hkind := (Tree.kind_isText (a.get "value") "StringLiteral").trans hliteral
      rw [hconsult]
      change (if ((a.get "value").kind.isText "StringLiteral") = true then _ else _) = _
      rw [if_pos hkind, hcontent, hname]
      rfl

/-- The value that is written for an attribute has no double quote in it, and reading its references
back gives the attribute's value exactly when that value holds no reference itself. So attributes of
one name with different values are written differently, unless a value holds a reference. -/
theorem unescape_written_iff {a : Tree} {name v : String} (h : a.Writes name v) :
    ∃ written, attributeText a = .ok (name ++ "=\"" ++ written ++ "\"") ∧
      '"' ∉ written.toList ∧
      (unescape written = v ↔ ¬ quoteReference <:+: v.toList) ∧
      ∀ b w, b.Writes name w → ¬ quoteReference <:+: v.toList → ¬ quoteReference <:+: w.toList →
        v ≠ w → attributeText b ≠ attributeText a := by
  refine ⟨escape v, attributeText_of_writes h, ?_, unescape_escape_eq_iff v, ?_⟩
  · rw [escape, String.toList_ofList]
    exact quote_not_mem_escapeList v.toList
  · intro b w hb hv hw hne hsame
    rw [attributeText_of_writes hb, attributeText_of_writes h, Except.ok.injEq] at hsame
    have hescape : escape w = escape v := by
      simpa [← String.toList_inj] using hsame
    exact hne (eq_of_escape_eq hw hv hescape).symm

theorem writes_stringAttribute (name value : String) :
    (Tree.stringAttribute name value).Writes name value where
  named := by
    change Tree.text name ≠ .null
    simp
  name := rfl
  literal := rfl
  content := rfl

/-- An ampersand before a quote and the rest of a reference behind it: what is written for the quote
makes no reference with either. -/
theorem unescape_written_split_reference :
    ∃ written, attributeText (.stringAttribute "title" "&\"quot;")
        = .ok ("title" ++ "=\"" ++ written ++ "\"") ∧
      '"' ∉ written.toList ∧ unescape written = "&\"quot;" ∧
      attributeText (.stringAttribute "title" "&\"\"")
        ≠ attributeText (.stringAttribute "title" "&\"quot;") := by
  obtain ⟨written, htext, hquote, hback, hothers⟩ :=
    unescape_written_iff (writes_stringAttribute "title" "&\"quot;")
  refine ⟨written, htext, hquote, hback.mpr (by decide), ?_⟩
  exact hothers _ _ (writes_stringAttribute _ _) (by decide) (by decide) (by decide)

/-- A value that holds a reference is written like the value with a quote in its place. -/
example : escape "&quot;" = escape "\"" := by decide

end Splice

end TopTag
