import TopTag.Splice

/-!
# Splicing as weaving

`weave` puts texts between the characters of a source, all at once. To insert one text after another
into the changing source gives the same when the insertions are made from the rear to the front:
what stands before the next one is the source itself.
-/

namespace TopTag.Splice

/-- The source with a text before each of its characters and one at its end. The texts are given by
offsets, the first character's being `i`. -/
def weave (texts : Nat → List Char) : Nat → List Char → List Char
  | i, [] => texts i
  | i, c :: rest => texts i ++ c :: weave texts (i + 1) rest

theorem weave_congr {f g : Nat → List Char} {i : Nat} {source : List Char}
    (h : ∀ j, i ≤ j → f j = g j) : weave f i source = weave g i source := by
  induction source generalizing i with
  | nil => rw [weave, weave, h i (Nat.le_refl i)]
  | cons c rest ih => rw [weave, weave, h i (Nat.le_refl i), ih fun j hj => h j (by omega)]

/-- Where no text is put in, the source stands as it is. -/
theorem weave_eq_take_append {texts : Nat → List Char} {i n : Nat} {source : List Char}
    (hn : n ≤ source.length) (h : ∀ j, i ≤ j → j < i + n → texts j = []) :
    weave texts i source = source.take n ++ weave texts (i + n) (source.drop n) := by
  induction n generalizing i source with
  | zero => simp
  | succ n ih =>
    cases source with
    | nil => cases hn
    | cons c rest =>
      have hrest := ih (i := i + 1) (Nat.le_of_succ_le_succ hn)
        fun j hj hlt => h j (by omega) (by omega)
      rw [weave, h i (Nat.le_refl i) (by omega), hrest, List.take_succ_cons, List.drop_succ_cons,
        List.nil_append, List.cons_append, Nat.add_right_comm, Nat.add_assoc]

theorem weave_nil (i : Nat) (source : List Char) : weave (fun _ => []) i source = source := by
  have h := weave_eq_take_append (i := i) (Nat.le_refl source.length) fun _ _ _ => rfl
  rw [h, List.take_length, List.drop_length, weave, List.append_nil]

theorem length_le_weave (texts : Nat → List Char) (i : Nat) (source : List Char) :
    source.length ≤ (weave texts i source).length := by
  induction source generalizing i with
  | nil => exact Nat.zero_le _
  | cons c rest ih =>
    have hrest := ih (i + 1)
    rw [weave, List.length_append, List.length_cons, List.length_cons]
    omega

/-- One more text in front of the others at its offset. -/
def addText (n : Nat) (text : List Char) (texts : Nat → List Char) : Nat → List Char :=
  fun j => if j = n then text ++ texts j else texts j

theorem weave_addText (n : Nat) (text : List Char) (texts : Nat → List Char) (source : List Char) :
    weave (addText n text texts) n source = text ++ weave texts n source := by
  have hlater : ∀ j, n + 1 ≤ j → addText n text texts j = texts j := by
    intro j hj
    rw [addText, if_neg (by omega)]
  cases source with
  | nil => rw [weave, weave, addText, if_pos rfl]
  | cons c rest => rw [weave, weave, weave_congr hlater, addText, if_pos rfl, List.append_assoc]

/-- An insertion in front of all others is a text more. -/
theorem insertAt_weave {texts : Nat → List Char} {n : Nat} {source : List Char}
    (hn : n ≤ source.length) (h : ∀ j < n, texts j = []) (text : List Char) :
    insertAt (weave texts 0 source) n text = weave (addText n text texts) 0 source := by
  have hclamp : clamp (weave texts 0 source).length n = n := by
    have hlen := length_le_weave texts 0 source
    rw [clamp, if_neg (by omega), Int.toNat_natCast]
    omega
  have htake : (source.take n).length = n := by rw [List.length_take]; omega
  have hnew : ∀ j, 0 ≤ j → j < 0 + n → addText n text texts j = [] := by
    intro j _ hj
    rw [addText, if_neg (by omega), h j (by omega)]
  rw [insertAt, hclamp, weave_eq_take_append hn fun j _ hj => h j (by omega),
    weave_eq_take_append hn hnew, Nat.zero_add, weave_addText]
  rw [List.take_left' htake, List.drop_left' htake, List.append_assoc]

/-- The texts of the insertions at an offset, the last one first. -/
def textsAt (is : List (Int × String)) (j : Nat) : List Char :=
  (is.filter fun i => i.1 == (j : Int)).reverse.flatMap fun i => i.2.toList

theorem textsAt_cons (i : Int × String) (is : List (Int × String)) (j : Nat) :
    textsAt (i :: is) j = textsAt is j ++ if i.1 = (j : Int) then i.2.toList else [] := by
  by_cases h : i.1 = (j : Int)
  · simp [textsAt, h]
  · simp [textsAt, h]

/-- Insertions from the rear to the front, into a source that has texts behind them only. -/
theorem applyAll_weave {source : List Char} {is : List (Int × String)}
    (hsorted : is.Pairwise fun a b => b.1 ≤ a.1)
    (hrange : ∀ i ∈ is, 0 ≤ i.1 ∧ i.1 ≤ source.length) {texts : Nat → List Char}
    (hfree : ∀ i ∈ is, ∀ j : Nat, (j : Int) < i.1 → texts j = []) :
    applyAll (weave texts 0 source) is = weave (fun j => textsAt is j ++ texts j) 0 source := by
  induction is generalizing texts with
  | nil => rfl
  | cons i rest ih =>
    obtain ⟨hi, hsorted⟩ := List.pairwise_cons.mp hsorted
    obtain ⟨h0, hlen⟩ := hrange i List.mem_cons_self
    obtain ⟨n, hn⟩ := Int.eq_ofNat_of_zero_le h0
    have hfree' : ∀ i' ∈ rest, ∀ j : Nat, (j : Int) < i'.1 → addText n i.2.toList texts j = [] := by
      intro i' hi' j hj
      have hle := hi i' hi'
      rw [addText, if_neg (by omega)]
      exact hfree i List.mem_cons_self j (by omega)
    have hstep : insertAt (weave texts 0 source) i.1 i.2.toList =
        weave (addText n i.2.toList texts) 0 source := by
      rw [hn]
      exact insertAt_weave (by omega) (fun j hj => hfree i List.mem_cons_self j (by omega)) _
    have hrest := ih hsorted (fun i' hi' => hrange i' (List.mem_cons_of_mem _ hi')) hfree'
    rw [applyAll, List.foldl_cons, hstep, ← applyAll, hrest]
    refine weave_congr fun j _ => ?_
    rw [textsAt_cons, addText, hn]
    by_cases hj : j = n
    · subst hj
      simp
    · have hne : ¬ (n : Int) = j := by omega
      rw [if_neg hj, if_neg hne, List.append_nil]

theorem rear_trans (a b c : Int × String) (hab : decide (b.1 ≤ a.1) = true)
    (hbc : decide (c.1 ≤ b.1) = true) : decide (c.1 ≤ a.1) = true := by
  simp only [decide_eq_true_eq] at hab hbc ⊢
  omega

theorem rear_total (a b : Int × String) :
    (decide (b.1 ≤ a.1) || decide (a.1 ≤ b.1)) = true := by
  simp only [Bool.or_eq_true, decide_eq_true_eq]
  omega

theorem rearFirst_pairwise (is : List (Int × String)) :
    (rearFirst is).Pairwise fun a b => b.1 ≤ a.1 :=
  (List.pairwise_mergeSort rear_trans rear_total is).imp of_decide_eq_true

/-- Insertions at one offset keep their order. -/
theorem textsAt_rearFirst (is : List (Int × String)) (j : Nat) :
    textsAt (rearFirst is) j = textsAt is j := by
  have hsame : (is.filter fun i => i.1 == (j : Int)).Pairwise
      fun a b => decide (b.1 ≤ a.1) = true := by
    refine List.pairwise_filter.mpr (List.pairwise_of_forall fun a b ha hb => ?_)
    rw [beq_iff_eq.mp ha, beq_iff_eq.mp hb]
    simp
  have hsub := (List.sublist_mergeSort rear_trans rear_total hsame List.filter_sublist).filter
    fun i => i.1 == (j : Int)
  rw [List.filter_filter, ← rearFirst] at hsub
  have heq : (is.filter fun i => i.1 == (j : Int)) =
      (rearFirst is).filter fun i => i.1 == (j : Int) := by
    refine List.Sublist.eq_of_length (by simpa using hsub) ?_
    exact ((List.mergeSort_perm is _).filter _).length_eq.symm
  rw [textsAt, ← heq, textsAt]

/-- Splicing is weaving: each offset gets its texts, the last one first, whatever is put in
elsewhere. -/
theorem applyAll_rearFirst {source : List Char} {is : List (Int × String)}
    (hrange : ∀ i ∈ is, 0 ≤ i.1 ∧ i.1 ≤ source.length) :
    applyAll source (rearFirst is) = weave (textsAt is) 0 source := by
  have h : applyAll (weave (fun _ => []) 0 source) (rearFirst is) =
      weave (fun j => textsAt (rearFirst is) j ++ []) 0 source :=
    applyAll_weave (rearFirst_pairwise is) (fun i hi => hrange i (List.mem_mergeSort.mp hi))
      fun _ _ _ _ => rfl
  rw [weave_nil] at h
  rw [h]
  exact weave_congr fun j _ => by rw [List.append_nil, textsAt_rearFirst]

/-! ## One text at many offsets -/

theorem positioned_int (offsets : List Nat) (text : String) :
    positioned (offsets.map fun n : Nat => ⟨.int n, text⟩) =
      .ok (offsets.map fun n : Nat => ((n : Int), text)) := by
  induction offsets with
  | nil => rfl
  | cons n rest ih =>
    rw [List.map_cons, List.map_cons, positioned, ih]
    rfl

theorem textsAt_of_nodup {offsets : List Nat} (h : offsets.Nodup) (text : String) (j : Nat) :
    textsAt (offsets.map fun n : Nat => ((n : Int), text)) j =
      if j ∈ offsets then text.toList else [] := by
  induction offsets with
  | nil => rfl
  | cons n rest ih =>
    obtain ⟨hn, hrest⟩ := List.nodup_cons.mp h
    rw [List.map_cons, textsAt_cons, ih hrest]
    by_cases hj : n = j
    · subst hj
      simp [hn]
    · have hcast : ¬ (n : Int) = j := by omega
      rw [if_neg hcast, List.append_nil]
      simp [Ne.symm hj]

/-- One text spliced in at different offsets. -/
theorem apply_of_nodup {source : String} {offsets : List Nat} (hnodup : offsets.Nodup)
    (hrange : ∀ n ∈ offsets, n ≤ source.toList.length) (text : String) :
    apply source (offsets.map fun n : Nat => ⟨.int n, text⟩) = .ok (String.ofList
      (weave (fun j => if j ∈ offsets then text.toList else []) 0 source.toList)) := by
  have hrange' : ∀ i ∈ offsets.map fun n : Nat => ((n : Int), text),
      0 ≤ i.1 ∧ i.1 ≤ source.toList.length := by
    intro i hi
    obtain ⟨n, hn, rfl⟩ := List.mem_map.mp hi
    have hle := hrange n hn
    dsimp only
    omega
  rw [apply]
  · rw [positioned_int]
    change Except.ok (String.ofList (applyAll _ (rearFirst _))) = _
    rw [applyAll_rearFirst hrange', weave_congr fun j _ => textsAt_of_nodup hnodup text j]
  · intro text' heq
    obtain ⟨n, rest, -, hn, -⟩ := List.map_eq_cons_iff.mp heq
    cases hn

end TopTag.Splice
