import Mathlib.Data.List.Sort

/-!
# Sorting by a key

Insertion sort is stable: it keeps the elements of one key in the order they had.
-/

namespace List

variable {α : Type*} {κ : Type*} [LinearOrder κ] (key : α → κ)

theorem filter_orderedInsert (k : κ) (a : α) : ∀ l : List α,
    (l.orderedInsert (fun a b => key a ≤ key b) a).filter (fun b => key b = k) =
      (if key a = k then [a] else []) ++ l.filter fun b => key b = k
  | [] => by
      rw [orderedInsert_nil, filter_cons, filter_nil, append_nil]
      simp only [decide_eq_true_eq]
  | b :: l => by
      rw [orderedInsert_cons]
      split
      · rw [filter_cons]
        simp only [decide_eq_true_eq]
        split
        · rfl
        · rfl
      · rename_i hlt
        have ih := filter_orderedInsert k a l
        rw [filter_cons, filter_cons, ih]
        -- `b` stands before `a`, so the two do not have the same key
        by_cases hb : key b = k
        · have ha : key a ≠ k := fun ha => hlt (by rw [ha, hb])
          simp [hb, ha]
        · simp [hb]

/-- **The elements of one key keep their order.** -/
theorem filter_insertionSort (k : κ) (l : List α) :
    (l.insertionSort fun a b => key a ≤ key b).filter (fun b => key b = k) =
      l.filter fun b => key b = k := by
  induction l with
  | nil => rfl
  | cons a l ih =>
      rw [insertionSort_cons, filter_orderedInsert key, ih, filter_cons]
      simp only [decide_eq_true_eq]
      split
      · rfl
      · rfl

theorem sorted_insertionSort (l : List α) :
    (l.insertionSort fun a b => key a ≤ key b).Pairwise fun a b => key a ≤ key b := by
  have : IsTrans α fun a b => key a ≤ key b := ⟨fun _ _ _ => le_trans⟩
  have : Std.Total fun a b : α => key a ≤ key b := ⟨fun a b => le_total (key a) (key b)⟩
  exact pairwise_insertionSort _ l

theorem filter_orderedInsert_of_sorted (p : α → Bool) (a : α) : ∀ {l : List α},
    l.Pairwise (fun a b => key a ≤ key b) →
      (l.orderedInsert (fun a b => key a ≤ key b) a).filter p =
        if p a then (l.filter p).orderedInsert (fun a b => key a ≤ key b) a else l.filter p
  | [], _ => by
      rw [orderedInsert_nil, filter_cons, filter_nil, orderedInsert_nil]
  | b :: l, h => by
      obtain ⟨hb, hl⟩ := pairwise_cons.mp h
      rw [orderedInsert_cons]
      split
      · rename_i hle
        -- whatever is left of the list, it starts beyond `a`
        have hhead : (l.filter p).orderedInsert (fun a b => key a ≤ key b) a = a :: l.filter p := by
          rcases hrest : l.filter p with _ | ⟨d, rest⟩
          · rfl
          · have hd : d ∈ l := (mem_filter.mp (hrest ▸ mem_cons_self)).1
            exact if_pos (hle.trans (hb d hd))
        rw [filter_cons, filter_cons]
        by_cases hp : p b = true
        · rw [if_pos hp, orderedInsert_cons, if_pos hle]
        · rw [if_neg hp, hhead]
      · rename_i hlt
        rw [filter_cons, filter_cons, filter_orderedInsert_of_sorted p a hl]
        by_cases hp : p b = true
        · rw [if_pos hp, if_pos hp, orderedInsert_cons, if_neg hlt]
          split
          · rfl
          · rfl
        · rw [if_neg hp, if_neg hp]

/-- **A part of a sorted list is that part, sorted.** -/
theorem insertionSort_filter (p : α → Bool) (l : List α) :
    (l.insertionSort fun a b => key a ≤ key b).filter p =
      (l.filter p).insertionSort fun a b => key a ≤ key b := by
  induction l with
  | nil => rfl
  | cons a l ih =>
      rw [insertionSort_cons, filter_orderedInsert_of_sorted key p a (sorted_insertionSort key l),
        ih, filter_cons]
      split
      · rfl
      · rfl

/-- A sorted list starts with the elements of its least key. -/
theorem filter_append_filter_of_sorted {k : κ} : ∀ {l : List α},
    l.Pairwise (fun a b => key a ≤ key b) → (∀ a ∈ l, k ≤ key a) →
      l.filter (fun a => key a = k) ++ l.filter (fun a => key a ≠ k) = l
  | [], _, _ => rfl
  | a :: l, hsorted, hle => by
      obtain ⟨ha, hl⟩ := pairwise_cons.mp hsorted
      obtain ⟨hka, hkl⟩ := forall_mem_cons.mp hle
      have ih := filter_append_filter_of_sorted hl hkl
      by_cases hk : key a = k
      · simp only [filter_cons, hk, decide_true, if_true, ne_eq, not_true, decide_false,
          Bool.false_eq_true, if_false, cons_append, ih]
      · have hlt : k < key a := lt_of_le_of_ne hka (Ne.symm hk)
        have hne : ∀ b ∈ l, key b ≠ k := fun b hb => ne_of_gt (lt_of_lt_of_le hlt (ha b hb))
        have hnone : l.filter (fun a => key a = k) = [] :=
          filter_eq_nil_iff.mpr fun b hb => by simpa using hne b hb
        have hall : l.filter (fun a => key a ≠ k) = l :=
          filter_eq_self.mpr fun b hb => by simpa using hne b hb
        rw [filter_cons, filter_cons, hnone, hall]
        simp [hk]

end List
