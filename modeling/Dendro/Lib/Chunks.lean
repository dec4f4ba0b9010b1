import Mathlib.Data.List.Basic

/-!
# A list in consecutive chunks

`chunksOf n l` cuts `l` into consecutive chunks of `n` elements, the last one possibly
shorter. The chunks tile the list: put back together they are the list.
-/

namespace List

variable {α : Type*}

/-- The chunks, with the list's length as a bound on their number. -/
def chunksAux (n : Nat) : Nat → List α → List (List α)
  | 0, _ => []
  | fuel + 1, l => if l.isEmpty then [] else l.take n :: chunksAux n fuel (l.drop n)

/-- Consecutive chunks of `n` elements. -/
def chunksOf (n : Nat) (l : List α) : List (List α) := chunksAux n l.length l

theorem flatten_chunksAux {n : Nat} (hn : 0 < n) (fuel : Nat) (l : List α)
    (h : l.length ≤ fuel) : (chunksAux n fuel l).flatten = l := by
  induction fuel generalizing l with
  | zero => simp_all [chunksAux]
  | succ fuel ih =>
      rcases l with _ | ⟨a, l⟩
      · simp [chunksAux]
      · have hlen : ((a :: l).drop n).length ≤ fuel := by
          simp only [List.length_drop, List.length_cons] at h ⊢; omega
        simp only [chunksAux, List.isEmpty_cons, Bool.false_eq_true, if_false,
          List.flatten_cons, ih _ hlen, List.take_append_drop]

/-- **The chunks tile the list.** -/
theorem flatten_chunksOf {n : Nat} (hn : 0 < n) (l : List α) : (chunksOf n l).flatten = l :=
  flatten_chunksAux hn l.length l (Nat.le_refl _)

theorem mem_chunksAux {n : Nat} (hn : 0 < n) {fuel : Nat} {l c : List α}
    (h : c ∈ chunksAux n fuel l) : c ≠ [] ∧ c.length ≤ n := by
  induction fuel generalizing l with
  | zero => simp [chunksAux] at h
  | succ fuel ih =>
      rcases l with _ | ⟨a, l⟩
      · simp [chunksAux] at h
      · simp only [chunksAux, List.isEmpty_cons, Bool.false_eq_true, if_false,
          List.mem_cons] at h
        rcases h with rfl | h
        · refine ⟨?_, by simp only [List.length_take]; omega⟩
          cases n with
          | zero => exact absurd hn (Nat.lt_irrefl 0)
          | succ n => simp
        · exact ih h

/-- A chunk is never empty and never longer than `n`. -/
theorem mem_chunksOf {n : Nat} (hn : 0 < n) {l c : List α} (h : c ∈ chunksOf n l) :
    c ≠ [] ∧ c.length ≤ n :=
  mem_chunksAux hn h

theorem length_of_mem_chunksAux {n : Nat} : ∀ (fuel : Nat) {l : List α} {i : Nat} {c : List α},
    (chunksAux n fuel l)[i]? = some c → i + 1 < (chunksAux n fuel l).length → c.length = n
  | 0, _, _, _, h, _ => absurd h (by simp [chunksAux])
  | fuel + 1, l, i, c, h, hi => by
      unfold chunksAux at h hi
      split at h
      · exact absurd h (by simp)
      · rename_i hne
        rw [if_neg hne, List.length_cons] at hi
        cases i with
        | zero =>
            -- a chunk follows, so there is something left to cut
            obtain rfl := Option.some.inj h
            rw [List.length_take]
            by_contra hlen
            have hnil : l.drop n = [] := List.drop_eq_nil_of_le (by omega)
            have haux : chunksAux n fuel (l.drop n) = [] := by
              rw [hnil]
              cases fuel <;> simp [chunksAux]
            rw [haux] at hi
            exact absurd hi (by simp)
        | succ i => exact length_of_mem_chunksAux fuel h (by omega)

/-- **Every chunk but the last has `n` elements.** -/
theorem length_of_mem_chunksOf {n : Nat} {l : List α} {i : Nat} {c : List α}
    (h : (chunksOf n l)[i]? = some c) (hi : i + 1 < (chunksOf n l).length) : c.length = n :=
  length_of_mem_chunksAux l.length h hi

end List
