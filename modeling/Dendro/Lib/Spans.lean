import Mathlib.Data.List.MinMax
import Mathlib.Order.Basic

/-!
# Runs laid end to end, and what lies beyond them

A sequence of **runs** covers a timeline from the left: each run has a first and a last
point, and each ends before the next one starts. What lies beyond the newest point any run
reaches is the open **tail**. The two meet at one place, so a point is in a run's span or in
the tail and never in both.

`beyond_newest` is the fact everything rests on: being past the newest point of the runs is
being past every one of them. What adding, merging or dropping runs does to the tail
follows from what it does to that set of bounds.
-/

namespace Spans

variable {σ τ ρ : Type*} [LinearOrder τ]

/-- Each run is an interval, and each ends before the next one starts. -/
structure Laid (first last : σ → τ) (runs : List σ) : Prop where
  span : ∀ s ∈ runs, first s ≤ last s
  ordered : runs.Pairwise fun s t => last s < first t

/-- The newest point of any run. -/
def newest (last : σ → τ) (runs : List σ) : Option τ := (runs.map last).max?

/-- Whether a point is past a bound; with no bound every point is. -/
def beyond : Option τ → τ → Bool
  | none, _ => true
  | some w, t => w < t

variable {first last : σ → τ} {runs : List σ} {s : σ} {t w : τ}

@[simp] theorem beyond_none : beyond none t = true := rfl

@[simp] theorem beyond_some : beyond (some w) t = true ↔ w < t := by
  simp [beyond]

@[simp] theorem newest_nil : newest last ([] : List σ) = none := rfl

theorem newest_eq_none : newest last runs = none ↔ runs = [] := by
  simp [newest, List.max?_eq_none_iff]

theorem newest_eq_some :
    newest last runs = some w ↔ (∃ s ∈ runs, last s = w) ∧ ∀ s ∈ runs, last s ≤ w := by
  rw [newest, List.max?_eq_some_iff]
  simp

theorem le_newest (h : newest last runs = some w) (hs : s ∈ runs) : last s ≤ w :=
  (newest_eq_some.mp h).2 s hs

/-- Layouts whose runs reach equally far have the same newest point. -/
theorem newest_congr {runs' : List σ} (h : ∀ s ∈ runs, ∃ t ∈ runs', last s ≤ last t)
    (h' : ∀ t ∈ runs', ∃ s ∈ runs, last t ≤ last s) : newest last runs = newest last runs' := by
  rcases hw : newest last runs with _ | w
  · rw [newest_eq_none] at hw
    subst hw
    refine (newest_eq_none.mpr (List.eq_nil_iff_forall_not_mem.mpr fun t ht => ?_)).symm
    obtain ⟨s, hs, -⟩ := h' t ht
    exact absurd hs List.not_mem_nil
  · obtain ⟨⟨s, hs, rfl⟩, hle⟩ := newest_eq_some.mp hw
    obtain ⟨t, ht, hst⟩ := h s hs
    have hle' : ∀ t ∈ runs', last t ≤ last s := fun t ht => by
      obtain ⟨s', hs', hts⟩ := h' t ht
      exact hts.trans (hle s' hs')
    exact (newest_eq_some.mpr ⟨⟨t, ht, le_antisymm (hle' t ht) hst⟩, hle'⟩).symm

/-- **A point is past the newest run iff it is past every run.** -/
theorem beyond_newest : beyond (newest last runs) t = true ↔ ∀ s ∈ runs, last s < t := by
  rcases hw : newest last runs with _ | w
  · simp [newest_eq_none.mp hw]
  · obtain ⟨⟨s, hs, rfl⟩, hle⟩ := newest_eq_some.mp hw
    rw [beyond_some]
    exact ⟨fun h r hr => lt_of_le_of_lt (hle r hr) h, fun h => h s hs⟩

/-- Dropping the runs that end before a cutoff moves no point at or past it. -/
theorem beyond_newest_filter {cutoff : τ} (ht : cutoff ≤ t) :
    beyond (newest last (runs.filter fun s => !decide (last s < cutoff))) t =
      beyond (newest last runs) t := by
  rw [Bool.eq_iff_iff, beyond_newest, beyond_newest]
  constructor
  · intro h s hs
    by_cases hc : last s < cutoff
    · exact lt_of_lt_of_le hc ht
    · exact h s (List.mem_filter.mpr ⟨hs, by simpa using hc⟩)
  · exact fun h s hs => h s (List.mem_filter.mp hs).1

namespace Laid

theorem nil : Laid first last [] := ⟨by simp, .nil⟩

/-- Any part of a layout, in order, is laid out. -/
theorem sublist {runs' : List σ} (h : Laid first last runs) (hs : runs'.Sublist runs) :
    Laid first last runs' :=
  ⟨fun s hm => h.span s (hs.subset hm), h.ordered.sublist hs⟩

theorem append_iff {runs' : List σ} : Laid first last (runs ++ runs') ↔
    Laid first last runs ∧ Laid first last runs' ∧
      ∀ s ∈ runs, ∀ t ∈ runs', last s < first t := by
  constructor
  · intro h
    obtain ⟨h₁, h₂, h₁₂⟩ := List.pairwise_append.mp h.ordered
    exact ⟨⟨fun s hs => h.span s (by simp [hs]), h₁⟩, ⟨fun s hs => h.span s (by simp [hs]), h₂⟩,
      h₁₂⟩
  · rintro ⟨h₁, h₂, h₁₂⟩
    refine ⟨fun s hs => ?_, List.pairwise_append.mpr ⟨h₁.ordered, h₂.ordered, h₁₂⟩⟩
    exact (List.mem_append.mp hs).elim (h₁.span s) (h₂.span s)

theorem append {runs' : List σ} (h : Laid first last runs) (h' : Laid first last runs')
    (hb : ∀ s ∈ runs, ∀ t ∈ runs', last s < first t) : Laid first last (runs ++ runs') :=
  append_iff.mpr ⟨h, h', hb⟩

theorem singleton (h : first s ≤ last s) : Laid first last [s] :=
  ⟨by simpa using h, List.pairwise_singleton _ _⟩

/-- The newest point of a layout is its last run's. -/
theorem newest_concat (h : Laid first last (runs ++ [s])) :
    newest last (runs ++ [s]) = some (last s) := by
  obtain ⟨-, h₁, hb⟩ := append_iff.mp h
  refine newest_eq_some.mpr ⟨⟨s, by simp, rfl⟩, fun r hr => ?_⟩
  rcases List.mem_append.mp hr with hr | hr
  · exact le_of_lt (lt_of_lt_of_le (hb r hr s (by simp)) (h₁.span s (by simp)))
  · rw [List.mem_singleton.mp hr]

/-- The last run of a layout reaches at least as far as any. -/
theorem le_getLast (h : Laid first last runs) {e : σ} (he : runs.getLast? = some e)
    (hs : s ∈ runs) : last s ≤ last e := by
  rcases List.eq_nil_or_concat runs with rfl | ⟨init, a, rfl⟩
  · exact absurd hs List.not_mem_nil
  · rw [List.concat_eq_append] at h he hs
    rw [List.getLast?_concat] at he
    obtain rfl := Option.some.inj he
    exact le_newest h.newest_concat hs

/-- **A layout reads in order.** Rows that increase within each run, and lie in its span,
increase over the whole layout. -/
theorem rows_sorted (h : Laid first last runs) {rows : σ → List ρ} {key : ρ → τ}
    (hs : ∀ s ∈ runs, (rows s).Pairwise fun a b => key a < key b)
    (hb : ∀ s ∈ runs, ∀ r ∈ rows s, first s ≤ key r ∧ key r ≤ last s) :
    (runs.flatMap rows).Pairwise fun a b => key a < key b := by
  rw [List.flatMap_def, List.pairwise_flatten]
  refine ⟨by simpa using hs, ?_⟩
  rw [List.pairwise_map]
  refine h.ordered.imp_of_mem ?_
  intro s t hms hmt hlt a ha b hb'
  calc key a ≤ last s := (hb s hms a ha).2
    _ < first t := hlt
    _ ≤ key b := (hb t hmt b hb').1

end Laid

end Spans
