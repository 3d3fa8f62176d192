/-!
# Measures of lists

The total of a measure over a list bounds the work that the list's entries stand for. Loops over
pending work end because such a total goes down.
-/

namespace TopTag

/-- The sum of a measure over the entries of a list. -/
def total {α : Type} (measure : α → Nat) : List α → Nat
  | [] => 0
  | a :: as => measure a + total measure as

@[simp] theorem total_nil {α : Type} (measure : α → Nat) : total measure [] = 0 := rfl

@[simp] theorem total_cons {α : Type} (measure : α → Nat) (a : α) (as : List α) :
    total measure (a :: as) = measure a + total measure as := rfl

@[simp] theorem total_append {α : Type} (measure : α → Nat) (as bs : List α) :
    total measure (as ++ bs) = total measure as + total measure bs := by
  induction as with
  | nil => simp
  | cons a as ih => simp only [List.cons_append, total_cons, ih, Nat.add_assoc]

theorem total_map {α β : Type} (measure : β → Nat) (f : α → β) (as : List α) :
    total measure (as.map f) = total (fun a => measure (f a)) as := by
  induction as with
  | nil => rfl
  | cons a as ih => simp only [List.map_cons, total_cons, ih]

theorem le_total_of_mem {α : Type} (measure : α → Nat) {a : α} {as : List α} (h : a ∈ as) :
    measure a ≤ total measure as := by
  induction as with
  | nil => cases h
  | cons b as ih =>
    rw [total_cons]
    rcases List.mem_cons.mp h with rfl | h
    · omega
    · have := ih h
      omega

end TopTag
