import Mathlib.Logic.Basic
import TopTag.FileContext

/-!
# Computations that mark

No computation that marks ever looks at the marks already made: it acts alike in every context. So
each one has a log of the identities it marks and a result, and what it does to a context is to
mark the entries of its log in turn.
-/

namespace TopTag

namespace FileContext

/-- Marks some identities in turn. -/
def markAll (c : FileContext) (is : List Identity) : FileContext := is.foldl mark c

@[simp] theorem markAll_nil (c : FileContext) : c.markAll [] = c := rfl

@[simp] theorem markAll_cons (c : FileContext) (i : Identity) (is : List Identity) :
    c.markAll (i :: is) = (c.mark i).markAll is := rfl

theorem markAll_append (c : FileContext) (is js : List Identity) :
    c.markAll (is ++ js) = (c.markAll is).markAll js := by
  simp [markAll, List.foldl_append]

@[simp] theorem filePath_mark (c : FileContext) (i : Identity) :
    (c.mark i).filePath = c.filePath := by
  rw [mark]
  split <;> rfl

@[simp] theorem filePath_markAll (c : FileContext) (is : List Identity) :
    (c.markAll is).filePath = c.filePath := by
  induction is generalizing c with
  | nil => rfl
  | cons i is ih => rw [markAll_cons, ih, filePath_mark]

theorem mem_marked_mark {c : FileContext} {i j : Identity} :
    j ∈ (c.mark i).marked ↔ j ∈ c.marked ∨ j = i := by
  rw [mark]
  split
  · rename_i h
    have hi : i ∈ c.marked := by simpa [isMarked] using h
    constructor
    · exact .inl
    · rintro (hj | rfl)
      · exact hj
      · exact hi
  · simp

theorem mem_marked_markAll {c : FileContext} {is : List Identity} {j : Identity} :
    j ∈ (c.markAll is).marked ↔ j ∈ c.marked ∨ j ∈ is := by
  induction is generalizing c with
  | nil => simp
  | cons i is ih => rw [markAll_cons, ih, mem_marked_mark, List.mem_cons, or_assoc]

end FileContext

namespace Marking

variable {α β : Type}

theorem exec_bind_ok {m : Marking α} {f : α → Marking β} {c d : FileContext} {a : α}
    (h : m.exec c = (.ok a, d)) : (m >>= f).exec c = (f a).exec d := by
  simp only [exec, ExceptT.run_bind, StateT.run_bind] at h ⊢
  rw [h]
  rfl

theorem exec_bind_error {m : Marking α} {f : α → Marking β} {c d : FileContext} {fault : Fault}
    (h : m.exec c = (.error fault, d)) : (m >>= f).exec c = (.error fault, d) := by
  simp only [exec, ExceptT.run_bind, StateT.run_bind] at h ⊢
  rw [h]
  rfl

/-- In every context alike the computation ends with `r` and marks the entries of `log`. -/
def Leaves (m : Marking α) (r : Except Fault α) (log : List Identity) : Prop :=
  ∀ c, m.exec c = (r, c.markAll log)

/-- The computation acts alike in every context. It ends without fault exactly when `ok` holds, and
the identities it then marks are those that satisfy `P`. -/
def Marks (m : Marking α) (ok : Prop) (P : Identity → Prop) : Prop :=
  ∃ r log, m.Leaves r log ∧ ((∃ a, r = .ok a) ↔ ok) ∧ (ok → ∀ i, i ∈ log ↔ P i)

theorem Leaves.bind_ok {m : Marking α} {f : α → Marking β} {a : α} {r : Except Fault β}
    {log log' : List Identity} (hm : m.Leaves (.ok a) log) (hf : (f a).Leaves r log') :
    (m >>= f).Leaves r (log ++ log') := by
  intro c
  rw [exec_bind_ok (hm c), hf, FileContext.markAll_append]

theorem Leaves.bind_error {m : Marking α} {f : α → Marking β} {fault : Fault}
    {log : List Identity} (hm : m.Leaves (.error fault) log) :
    (m >>= f).Leaves (.error fault) log := fun c => exec_bind_error (hm c)

namespace Marks

variable {ok ok' : Prop} {P Q : Identity → Prop}

theorem congr {m : Marking α} (h : Marks m ok P) (hok : ok ↔ ok') (hPQ : ok → ∀ i, P i ↔ Q i) :
    Marks m ok' Q := by
  obtain ⟨r, log, hm, hr, hlog⟩ := h
  refine ⟨r, log, hm, hr.trans hok, fun h i => ?_⟩
  exact (hlog (hok.mpr h) i).trans (hPQ (hok.mpr h) i)

theorem pure (a : α) : Marks (Pure.pure a : Marking α) True fun _ => False :=
  ⟨.ok a, [], fun _ => rfl, by simp, by simp⟩

theorem bind {m : Marking α} {f : α → Marking β} (hm : Marks m ok P)
    (hf : ∀ a, Marks (f a) ok' Q) : Marks (m >>= f) (ok ∧ ok') fun i => P i ∨ Q i := by
  obtain ⟨r, log, hm, hr, hlog⟩ := hm
  cases r with
  | error fault =>
    have hno : ¬ok := fun h => by simpa using hr.mpr h
    exact ⟨.error fault, log, hm.bind_error, by simp [hno], fun h => absurd h.1 hno⟩
  | ok a =>
    have hyes : ok := hr.mp ⟨a, rfl⟩
    obtain ⟨r', log', hf, hr', hlog'⟩ := hf a
    refine ⟨r', log ++ log', hm.bind_ok hf, by simpa [hyes] using hr', fun h i => ?_⟩
    rw [List.mem_append, hlog hyes, hlog' h.2]

/-- A look at a tree marks nothing; what comes after may rely on what was seen. -/
theorem bind_lift {e : Except Fault α} {f : α → Marking β}
    (hf : ∀ a, e = .ok a → Marks (f a) ok P) (he : ∀ fault, e = .error fault → ¬ok) :
    Marks ((e : Marking α) >>= f) ok P := by
  cases e with
  | error fault =>
    have hno := he fault rfl
    exact ⟨.error fault, [], fun _ => rfl, by simp [hno], fun h => absurd h hno⟩
  | ok a =>
    obtain ⟨r, log, hf, hlog⟩ := hf a rfl
    exact ⟨r, log, hf, hlog⟩

theorem mark (s : Spot) : Marks (Marking.mark s) True fun i => s.identity = i :=
  ⟨.ok (), [s.identity], fun _ => rfl, by simp, by simp [eq_comm]⟩

theorem forM {l : List α} {f : α → Marking Unit} {ok : α → Prop} {P : α → Identity → Prop}
    (h : ∀ x ∈ l, Marks (f x) (ok x) (P x)) :
    Marks (l.forM f) (∀ x ∈ l, ok x) fun i => ∃ x ∈ l, P x i := by
  induction l with
  | nil => exact (pure ()).congr (by simp) (by simp)
  | cons x l ih =>
    have hrest := ih fun y hy => h y (List.mem_cons_of_mem _ hy)
    exact ((h x List.mem_cons_self).bind fun _ => hrest).congr (by simp) (by simp)

theorem foldlM {l : List α} {f : β → α → Marking β} {ok : α → Prop} {P : α → Identity → Prop}
    (b : β) (h : ∀ x ∈ l, ∀ b, Marks (f b x) (ok x) (P x)) :
    Marks (l.foldlM f b) (∀ x ∈ l, ok x) fun i => ∃ x ∈ l, P x i := by
  induction l generalizing b with
  | nil => exact (pure b).congr (by simp) (by simp)
  | cons x l ih =>
    have hrest := fun b => ih b fun y hy => h y (List.mem_cons_of_mem _ hy)
    exact ((h x List.mem_cons_self b).bind hrest).congr (by simp) (by simp)

/-- What a run without fault tells: its condition held, and the marks after it are those before it
and those of the computation. -/
theorem of_exec {m : Marking α} (h : Marks m ok P) {c d : FileContext} {a : α}
    (hrun : m.exec c = (.ok a, d)) : ok ∧ ∀ i, i ∈ d.marked ↔ i ∈ c.marked ∨ P i := by
  obtain ⟨r, log, hm, hr, hlog⟩ := h
  have heq := (hm c).symm.trans hrun
  simp only [Prod.mk.injEq] at heq
  have hok : ok := hr.mp ⟨a, heq.1⟩
  refine ⟨hok, fun i => ?_⟩
  rw [← heq.2, FileContext.mem_marked_markAll, hlog hok]

end Marks

end Marking

end TopTag
