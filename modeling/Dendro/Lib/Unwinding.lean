import Mathlib.Init

/-!
# Unwinding

A fold over a list of inputs is seen through a relation: `low s s'` says that an observer cannot
tell the two states apart. Some inputs are the observer's own. `Unwinds` is about one input: an
own one keeps states indistinguishable, and another's changes nothing that the observer sees.
Then the observer sees no more of a run than its own inputs in their order.
-/

universe u v

variable {σ : Type u} {α : Type v} {low : σ → σ → Prop} {own : α → Bool} {f : σ → α → σ}

/-- What one input does to what the observer sees. -/
structure Unwinds (low : σ → σ → Prop) (own : α → Bool) (f : σ → α → σ) : Prop where
  equivalence : Equivalence low
  respects : ∀ s s' a, own a = true → low s s' → low (f s a) (f s' a)
  hides : ∀ s a, own a = false → low (f s a) s

namespace Unwinds

/-- A run looks like the run of the observer's own inputs. -/
theorem foldl_filter (h : Unwinds low own f) : ∀ (as : List α) {s s' : σ}, low s s' →
    low (as.foldl f s) ((as.filter own).foldl f s')
  | [], _, _, hs => hs
  | a :: as, s, s', hs => by
      rw [List.foldl_cons]
      rcases hown : own a with _ | _
      · rw [List.filter_cons_of_neg (by simp [hown])]
        exact h.foldl_filter as (h.equivalence.trans (h.hides s a hown) hs)
      · rw [List.filter_cons_of_pos hown, List.foldl_cons]
        exact h.foldl_filter as (h.respects s s' a hown hs)

/-- **Two runs with the same own inputs look the same.** -/
theorem foldl_congr (h : Unwinds low own f) {as bs : List α} (hown : as.filter own = bs.filter own)
    {s s' : σ} (hs : low s s') : low (as.foldl f s) (bs.foldl f s') := by
  have has := h.foldl_filter as hs
  have hbs := h.foldl_filter bs (h.equivalence.refl s')
  rw [hown] at has
  exact h.equivalence.trans has (h.equivalence.symm hbs)

end Unwinds
