import Dendro.Replicate.Tail

/-!
# Which clock observations a publisher ships

A publisher follows the observations of a source by one high-water timestamp. What was recorded
since the last poll is shipped exactly if it is newer than everything that poll saw; streams seal
on their own schedules, so an archive does not keep to that.
-/

namespace Dendro.Replicate

open Dendro

/-- Every observation of the source was shipped, once. -/
def OffsetsOnce (db : Archive) (id : Int) (os : List (Int64 × Int64)) (_ : String → List CallerRow) :
    Prop :=
  ∀ o ∈ db.readClockOffsets id, os.count o = 1

instance (db : Archive) (id : Int) (os : List (Int64 × Int64)) (rows : String → List CallerRow) :
    Decidable (OffsetsOnce db id os rows) :=
  List.decidableBAll (fun o => os.count o = 1) (db.readClockOffsets id)

/-- The observations recorded since `polled` are newer than those it holds. -/
def OffsetsInOrder (polled db : Archive) (id : Int) : Prop :=
  ∀ o ∈ db.readClockOffsets id, o ∉ polled.readClockOffsets id →
    ∀ o' ∈ polled.readClockOffsets id, o'.1 < o.1

/-- What was shipped of the source is what the archive holds, and the cursor is at its end. -/
structure OffsetsKeptUp (db : Archive) (c : SourceCursor) (os : List (Int64 × Int64))
    (_ : String → List CallerRow) : Prop where
  shipped : os = db.readClockOffsets c.source_id
  clock_after : c.clock_after = newestOffset none os

theorem newestOffset_append (after : Option Int64) (os os' : List (Int64 × Int64)) :
    newestOffset (newestOffset after os) os' = newestOffset after (os ++ os') := by
  unfold newestOffset
  rw [List.getLast?_append, Option.map_or, Option.or_assoc]

/-- The end of ascending observations is their newest. -/
theorem any_newestOffset {os : List (Int64 × Int64)} (hsorted : os.Pairwise fun o o' => o.1 < o'.1)
    (ts : Int64) : (newestOffset none os).any (ts ≤ ·) = false ↔ ∀ o ∈ os, o.1 < ts := by
  rcases List.eq_nil_or_concat os with rfl | ⟨init, last, rfl⟩
  · exact ⟨fun _ o ho => absurd ho List.not_mem_nil, fun _ => rfl⟩
  · rw [List.concat_eq_append] at hsorted ⊢
    have hlast : newestOffset none (init ++ [last]) = some last.1 := by
      rw [newestOffset, List.getLast?_append, List.getLast?_singleton]
      rfl
    rw [hlast, Option.any_some, decide_eq_false_iff_not, Int64.not_le]
    constructor
    · intro hlt o ho
      rcases List.mem_append.mp ho with ho | ho
      · have hle := (List.pairwise_append.mp hsorted).2.2 o ho last (List.mem_singleton.mpr rfl)
        exact Int64.lt_trans hle hlt
      · rwa [List.mem_singleton.mp ho]
    · exact fun h => h last (List.mem_append_right _ (List.mem_singleton.mpr rfl))

theorem mem_unsentOffsets {os new : List (Int64 × Int64)}
    (hsorted : os.Pairwise fun o o' => o.1 < o'.1) {o : Int64 × Int64} :
    o ∈ unsentOffsets (newestOffset none os) new ↔ o ∈ new ∧ ∀ o' ∈ os, o'.1 < o.1 := by
  unfold unsentOffsets
  rw [List.mem_filter, Bool.not_eq_true', any_newestOffset hsorted]

theorem mem_readClockOffsets {db : Archive} {id : Int} {o : Int64 × Int64} :
    o ∈ db.readClockOffsets id ↔ db.clock_offsets.get? (toLex (id, o.1)) = some o.2 := by
  unfold Archive.readClockOffsets
  rw [← OrdMap.get?_eq_some, OrdMap.get?_group]

theorem Grown.readClockOffsets {a a' : Archive} (h : a.Grown a') {id : Int} {o : Int64 × Int64}
    (ho : o ∈ a.readClockOffsets id) : o ∈ a'.readClockOffsets id := by
  rw [mem_readClockOffsets] at ho ⊢
  exact h.clock_offsets _ _ ho

/-- Observations that come after all others are appended to them. -/
theorem append_unsentOffsets {polled db : Archive} {id : Int} (hgrown : polled.Grown db)
    (h : OffsetsInOrder polled db id) :
    polled.readClockOffsets id ++ unsentOffsets (newestOffset none (polled.readClockOffsets id))
      (db.readClockOffsets id) = db.readClockOffsets id := by
  have hold := readClockOffsets_sorted polled id
  have hnew := readClockOffsets_sorted db id
  have hboth : (polled.readClockOffsets id ++ unsentOffsets (newestOffset none
      (polled.readClockOffsets id)) (db.readClockOffsets id)).Pairwise fun o o' => o.1 < o'.1 :=
    List.pairwise_append.mpr ⟨hold, hnew.filter _, fun o ho o' ho' =>
      ((mem_unsentOffsets hold).mp ho').2 o ho⟩
  refine hboth.eq_of_mem_iff hnew fun o => ?_
  rw [List.mem_append, mem_unsentOffsets hold]
  constructor
  · rintro (ho | ho)
    · exact Grown.readClockOffsets hgrown ho
    · exact ho.1
  · intro ho
    by_cases hmem : o ∈ polled.readClockOffsets id
    · exact .inl hmem
    · exact .inr ⟨ho, h o ho hmem⟩

theorem follows_offsets : Follows OffsetsKeptUp OffsetsInOrder OffsetsOnce where
  opened := by
    rintro db c os rows ⟨rec, ordinal, hmoved, rfl, -⟩
    have hid : c.source_id = rec.id := hmoved.source_id
    refine ⟨?_, hmoved.clock_after⟩
    rw [hid]
    exact List.filter_eq_self.mpr fun o _ => decide_eq_true (Int64.minValue_le o.1)
  same db id o ho hnot := absurd ho hnot
  turned := by
    intro polled db c c' os rows hgrown hkept hmoved
    have hold := readClockOffsets_sorted polled c.source_id
    have hunsent : c.unsentOffsets db = unsentOffsets (newestOffset none os)
        (db.readClockOffsets c.source_id) := by
      rw [SourceCursor.unsentOffsets, hkept.clock_after]
    rw [hkept.shipped] at hunsent
    constructor
    · constructor
      · intro honce o ho hnot o' ho'
        have hcount := honce o ho
        have hmem := List.count_pos_iff.mp (by rw [hcount]; exact Nat.one_pos)
        rcases List.mem_append.mp hmem with hmem | hmem
        · rw [hkept.shipped] at hmem
          exact absurd hmem hnot
        · rw [hunsent, mem_unsentOffsets hold] at hmem
          exact hmem.2 o' ho'
      · intro horder o ho
        rw [hunsent, hkept.shipped, append_unsentOffsets hgrown horder]
        have hnodup : (db.readClockOffsets c.source_id).Nodup :=
          (readClockOffsets_sorted db c.source_id).imp fun hlt heq => by
            rw [heq] at hlt
            exact Int64.lt_irrefl hlt
        exact List.count_eq_one_of_mem hnodup ho
    · intro horder
      refine ⟨?_, ?_⟩
      · rw [hunsent, hkept.shipped, hmoved.source_id, append_unsentOffsets hgrown horder]
      · rw [hmoved.clock_after, hkept.clock_after, newestOffset_append]

/-- **Every clock observation is shipped exactly once after every poll, exactly if before every
poll what was recorded of each source since the last call is newer than all that call saw of
it.** -/
theorem offsets_shipped_once_iff {t : Tailer} {es : List TailEvent}
    (hopened : t.Opened Int64.minValue) (hplain : Along Tailer.step TailEvent.Plain t es) :
    Along Tailer.step (TailEvent.After (Tailer.Shipped OffsetsOnce)) t es ↔
      Along Tailer.step (TailEvent.Before (Tailer.Written OffsetsInOrder)) t es :=
  follows_offsets.along_iff hopened hplain

/-- Two observations, in order, with a poll after each. -/
def inOrder : List TailEvent :=
  [.write (.clockOffset 1 10 5), .poll 0 [], .write (.clockOffset 1 20 5), .poll 0 []]

theorem offsets_shipped_once_iff_inOrder :
    Along Tailer.step (TailEvent.After (Tailer.Shipped OffsetsOnce))
        (.catchUp Int64.minValue oneSource) inOrder ↔
      Along Tailer.step (TailEvent.Before (Tailer.Written OffsetsInOrder))
        (.catchUp Int64.minValue oneSource) inOrder :=
  offsets_shipped_once_iff (Tailer.opened_catchUp (by decide)) (by decide)

/-- A slow stream's seal records its observation after a fast one's was polled. -/
def slowSeal : List TailEvent :=
  [.write (.clockOffset 1 10 5), .poll 0 [], .write (.clockOffset 1 7 5), .poll 0 []]

/-- **An observation older than one that was polled is never shipped.** -/
theorem slow_offset_lost : (Tailer.catchUp Int64.minValue oneSource).Opened Int64.minValue ∧
    Along Tailer.step TailEvent.Plain (.catchUp Int64.minValue oneSource) slowSeal ∧
    ¬ Along Tailer.step (TailEvent.After (Tailer.Shipped OffsetsOnce))
      (.catchUp Int64.minValue oneSource) slowSeal :=
  ⟨Tailer.opened_catchUp (by decide), by decide, by decide⟩

end Dendro.Replicate
