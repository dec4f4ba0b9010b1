import Mathlib.Algebra.Order.BigOperators.Group.List
import Dendro.Archive.Stream
import Dendro.Rewrite.ConcatProof

/-!
# A catalog whose runs were merged

`Merges n es es'` says that the catalog `es'` is `es` with `n` runs of adjacent segments
each replaced by its merge. A merge starts and ends where its run does, takes its first
`seq` and counts its rows, so the layout stands and the watermark does not move.
-/

namespace Dendro

open Spans

section

variable {Props Writer : Type} {pq : Parquet Props Writer} {policy : SchemaPolicy}

/-- The segment that replaces a run. -/
structure MergeOf (pq : Parquet Props Writer) (policy : SchemaPolicy)
    (run : List (Nat × SegmentCols)) (m : Nat × SegmentCols) : Prop where
  two : 2 ≤ run.length
  seq : run.head?.map Prod.fst = some m.1
  first_ts : run.head?.map (·.2.first) = some m.2.first
  last_ts : run.getLast?.map (·.2.last) = some m.2.last
  rows : m.2.seg_meta.rows = (run.map (·.2.seg_meta.rows)).sum
  /-- The rows of the run, where the library round-trips and column names are distinct. -/
  decoded : pq.RoundTrips → (∀ e ∈ run, DistinctColumns pq e.2.bytes) →
    List.Forall₂ (RowKept policy) (run.flatMap fun e => decodeRows pq e.2.bytes)
      (decodeRows pq m.2.bytes)

/-- A catalog with some of its runs replaced by their merges. -/
inductive Merges (pq : Parquet Props Writer) (policy : SchemaPolicy) :
    Nat → List (Nat × SegmentCols) → List (Nat × SegmentCols) → Prop where
  | nil : Merges pq policy 0 [] []
  | keep {n : Nat} {e : Nat × SegmentCols} {es es' : List (Nat × SegmentCols)} :
      Merges pq policy n es es' → Merges pq policy n (e :: es) (e :: es')
  | merge {n : Nat} {run : List (Nat × SegmentCols)} {m : Nat × SegmentCols}
      {es es' : List (Nat × SegmentCols)} : MergeOf pq policy run m →
      Merges pq policy n es es' → Merges pq policy (n + 1) (run ++ es) (m :: es')

variable {n n' : Nat} {es es' fs fs' : List (Nat × SegmentCols)}

theorem Merges.refl : ∀ es : List (Nat × SegmentCols), Merges pq policy 0 es es
  | [] => .nil
  | _ :: es => .keep (Merges.refl es)

theorem Merges.append (h : Merges pq policy n es es') (h' : Merges pq policy n' fs fs') :
    Merges pq policy (n + n') (es ++ fs) (es' ++ fs') := by
  induction h with
  | nil => simpa using h'
  | keep _ ih => exact .keep ih
  | merge hm _ ih =>
      rw [List.append_assoc, List.cons_append, Nat.add_right_comm]
      exact .merge hm ih

/-- **Every segment is an old one or the merge of a run of adjacent old ones.** -/
theorem Merges.mem (h : Merges pq policy n es es') {e : Nat × SegmentCols} (he : e ∈ es') :
    e ∈ es ∨ ∃ run, run <:+: es ∧ MergeOf pq policy run e := by
  induction h with
  | nil => exact absurd he List.not_mem_nil
  | keep _ ih =>
      rcases List.mem_cons.mp he with rfl | he
      · exact .inl (by simp)
      · refine (ih he).imp (List.mem_cons_of_mem _) ?_
        rintro ⟨run, hrun, hm⟩
        exact ⟨run, hrun.trans (List.suffix_cons _ _).isInfix, hm⟩
  | @merge _ run m _ _ hm _ ih =>
      rcases List.mem_cons.mp he with rfl | he
      · exact .inr ⟨run, (List.prefix_append _ _).isInfix, hm⟩
      · refine (ih he).imp (List.mem_append_right _) ?_
        rintro ⟨run', hrun, hm'⟩
        exact ⟨run', hrun.trans (List.suffix_append _ _).isInfix, hm'⟩

theorem MergeOf.head {run : List (Nat × SegmentCols)} {m : Nat × SegmentCols}
    (h : MergeOf pq policy run m) :
    ∃ e ∈ run, run.head? = some e ∧ e.1 = m.1 ∧ e.2.first = m.2.first := by
  obtain ⟨e, he, hseq⟩ := Option.map_eq_some_iff.mp h.seq
  have hfirst := h.first_ts
  rw [he] at hfirst
  exact ⟨e, List.mem_of_head? he, he, hseq, Option.some.inj hfirst⟩

theorem MergeOf.tail {run : List (Nat × SegmentCols)} {m : Nat × SegmentCols}
    (h : MergeOf pq policy run m) :
    ∃ e ∈ run, run.getLast? = some e ∧ e.2.last = m.2.last := by
  obtain ⟨e, he, hlast⟩ := Option.map_eq_some_iff.mp h.last_ts
  exact ⟨e, List.mem_of_getLast? he, he, hlast⟩

/-- Where a merged catalog's segments start and end, an old one does. -/
theorem Merges.ends (h : Merges pq policy n es es') {e' : Nat × SegmentCols} (he : e' ∈ es') :
    (∃ e ∈ es, e.2.first = e'.2.first) ∧ ∃ e ∈ es, e.2.last = e'.2.last := by
  rcases h.mem he with he | ⟨run, hrun, hm⟩
  · exact ⟨⟨e', he, rfl⟩, e', he, rfl⟩
  · obtain ⟨e, her, -, -, hfirst⟩ := hm.head
    obtain ⟨e₂, her₂, -, hlast⟩ := hm.tail
    exact ⟨⟨e, hrun.subset her, hfirst⟩, e₂, hrun.subset her₂, hlast⟩

/-- A catalog laid end to end. -/
abbrev LaidOut (es : List (Nat × SegmentCols)) : Prop :=
  Laid (fun e : Nat × SegmentCols => e.2.first) (fun e => e.2.last) es

/-- **Merging keeps a layout.** -/
theorem Merges.laid (h : Merges pq policy n es es') (hl : LaidOut es) : LaidOut es' := by
  induction h with
  | nil => exact .nil
  | @keep _ e es es' hrest ih =>
      obtain ⟨he, hes, hb⟩ := Laid.append_iff.mp (show LaidOut ([e] ++ es) from hl)
      refine Laid.append he (ih hes) fun s hs t ht => ?_
      obtain ⟨⟨t₀, ht₀, hfirst⟩, -⟩ := hrest.ends ht
      exact hfirst ▸ hb s hs t₀ ht₀
  | @merge _ run m es es' hm hrest ih =>
      obtain ⟨hrun, hes, hb⟩ := Laid.append_iff.mp hl
      obtain ⟨e, her, -, -, hfirst⟩ := hm.head
      obtain ⟨e₂, her₂, hlast?, hlast⟩ := hm.tail
      have hspan : m.2.first ≤ m.2.last := by
        calc m.2.first = e.2.first := hfirst.symm
          _ ≤ e.2.last := hrun.span e her
          _ ≤ e₂.2.last := hrun.le_getLast hlast? her
          _ = m.2.last := hlast
      refine Laid.append (.singleton hspan : LaidOut [m]) (ih hes) fun s hs t ht => ?_
      obtain rfl := List.mem_singleton.mp hs
      obtain ⟨⟨t₀, ht₀, htf⟩, -⟩ := hrest.ends ht
      rw [← hlast, ← htf]
      exact hb e₂ her₂ t₀ ht₀

/-- Every old segment ends at or before a stored one. -/
theorem Merges.reaches (h : Merges pq policy n es es') (hl : LaidOut es)
    {e : Nat × SegmentCols} (he : e ∈ es) : ∃ e' ∈ es', e.2.last ≤ e'.2.last := by
  induction h with
  | nil => exact absurd he List.not_mem_nil
  | @keep _ f es es' _ ih =>
      obtain ⟨-, hes, -⟩ := Laid.append_iff.mp (show LaidOut ([f] ++ es) from hl)
      rcases List.mem_cons.mp he with rfl | he
      · exact ⟨e, by simp, le_refl _⟩
      · obtain ⟨e', he', hle⟩ := ih hes he
        exact ⟨e', by simp [he'], hle⟩
  | @merge _ run m es es' hm _ ih =>
      obtain ⟨hrun, hes, -⟩ := Laid.append_iff.mp hl
      rcases List.mem_append.mp he with he | he
      · obtain ⟨e₂, -, hlast?, hlast⟩ := hm.tail
        exact ⟨m, by simp, hlast ▸ hrun.le_getLast hlast? he⟩
      · obtain ⟨e', he', hle⟩ := ih hes he
        exact ⟨e', by simp [he'], hle⟩

/-- **Merging does not move the watermark.** -/
theorem Merges.newest_eq {es es' : List (Nat × SegmentCols)} (h : Merges pq policy n es es')
    (hl : LaidOut es) :
    newest (fun e : Nat × SegmentCols => e.2.last) es' =
      newest (fun e : Nat × SegmentCols => e.2.last) es := by
  refine newest_congr (fun e' he' => ?_) fun e he => h.reaches hl he
  obtain ⟨-, e, he, hlast⟩ := h.ends he'
  exact ⟨e, he, le_of_eq hlast.symm⟩

/-! ## Rows -/

/-- How many rows a catalog counts. -/
def rowSum (es : List (Nat × SegmentCols)) : Nat :=
  (es.map fun e => e.2.seg_meta.rows.toNat).sum

theorem rowSum_append (es fs : List (Nat × SegmentCols)) :
    rowSum (es ++ fs) = rowSum es + rowSum fs := by
  simp [rowSum]

/-- A sum of row counts that fits in 64 bits is exact. -/
theorem toNat_sum {α : Type} (rows : α → UInt64) : ∀ xs : List α,
    (xs.map fun x => (rows x).toNat).sum < 2 ^ 64 →
      (xs.map rows).sum.toNat = (xs.map fun x => (rows x).toNat).sum
  | [], _ => rfl
  | x :: xs, h => by
      simp only [List.map_cons, List.sum_cons] at h ⊢
      rw [UInt64.toNat_add, toNat_sum rows xs (by omega), Nat.mod_eq_of_lt h]

theorem MergeOf.toNat_rows {run : List (Nat × SegmentCols)} {m : Nat × SegmentCols}
    (h : MergeOf pq policy run m) (hsum : rowSum run < 2 ^ 64) :
    m.2.seg_meta.rows.toNat = rowSum run := by
  rw [h.rows, toNat_sum _ run hsum]
  rfl

/-- **Merging counts the same rows, and at least one in each segment.** -/
theorem Merges.rows (h : Merges pq policy n es es') (hsum : rowSum es < 2 ^ 64)
    (hpos : ∀ e ∈ es, 1 ≤ e.2.seg_meta.rows.toNat) :
    rowSum es' = rowSum es ∧ ∀ e' ∈ es', 1 ≤ e'.2.seg_meta.rows.toNat := by
  induction h with
  | nil => exact ⟨rfl, hpos⟩
  | @keep _ e es es' _ ih =>
      have hcons : ∀ fs, rowSum (e :: fs) = e.2.seg_meta.rows.toNat + rowSum fs := by
        intro fs; simp [rowSum]
      rw [hcons] at hsum ⊢
      obtain ⟨heq, hpos'⟩ := ih (by omega) fun f hf => hpos f (by simp [hf])
      refine ⟨by rw [hcons, heq], fun f hf => ?_⟩
      rcases List.mem_cons.mp hf with rfl | hf
      · exact hpos f (by simp)
      · exact hpos' f hf
  | @merge _ run m es es' hm _ ih =>
      rw [rowSum_append] at hsum ⊢
      have hrows := hm.toNat_rows (by omega)
      obtain ⟨heq, hpos'⟩ := ih (by omega) fun f hf => hpos f (by simp [hf])
      refine ⟨by simp only [rowSum, List.map_cons, List.sum_cons] at heq ⊢; rw [heq, hrows]; rfl,
        fun f hf => ?_⟩
      rcases List.mem_cons.mp hf with rfl | hf
      · obtain ⟨e, her, -⟩ := hm.head
        have hmem : e.2.seg_meta.rows.toNat ∈ run.map fun e => e.2.seg_meta.rows.toNat :=
          List.mem_map.mpr ⟨e, her, rfl⟩
        have hle : e.2.seg_meta.rows.toNat ≤ rowSum run := List.le_sum_of_mem hmem
        rw [hrows]
        exact (hpos e (by simp [her])).trans hle
      · exact hpos' f hf

/-- **Merging keeps the rows**, in order, each as it was or widened with nulls. -/
theorem Merges.decoded (h : Merges pq policy n es es') (hpq : pq.RoundTrips)
    (hnd : ∀ e ∈ es, DistinctColumns pq e.2.bytes) :
    List.Forall₂ (RowKept policy) (es.flatMap fun e => decodeRows pq e.2.bytes)
      (es'.flatMap fun e => decodeRows pq e.2.bytes) := by
  induction h with
  | nil => exact .nil
  | keep _ ih =>
      rw [List.flatMap_cons, List.flatMap_cons]
      exact List.rel_append (List.forall₂_same.mpr fun r _ => rowKept_refl policy r)
        (ih fun f hf => hnd f (by simp [hf]))
  | merge hm _ ih =>
      rw [List.flatMap_append, List.flatMap_cons]
      exact List.rel_append (hm.decoded hpq fun f hf => hnd f (by simp [hf]))
        (ih fun f hf => hnd f (by simp [hf]))

end

end Dendro
