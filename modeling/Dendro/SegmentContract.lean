import Dendro.SegmentSpan
import Dendro.SegmentTiling

/-!
# Encoders that honour the contract

An encoder that honours the contract answers for whatever rows in timestamp order it is given,
and its segments are of runs of them: it may drop a leading or a trailing run. `materialize`
then refuses nothing, and the last part of a seal ends at a row.
-/

namespace Dendro

variable {encoder : SegmentEncoder} {ctx : EncodeContext} {rows : List WalRow} {s : Segment}

/-- The contract of an encoder, as its documentation has it. -/
structure SegmentEncoder.Honours (encoder : SegmentEncoder) : Prop where
  answers : ∀ ctx before rows, Ascending (before ++ rows) →
    ∃ answer, encoder.answer ctx before rows = .ok answer
  spans : ∀ ctx before rows s, Ascending (before ++ rows) →
    encoder.answer ctx before rows = .ok (some s) → SpansRows rows s

/-- The live rows of a stream are in timestamp order. -/
theorem Archive.liveWal_ascending (a : Archive) (source_id : Int) (stream : String) :
    Ascending (a.liveWal source_id stream) :=
  List.pairwise_map.mpr ((a.live _).sorted.imp fun h => h)

/-- A span of rows covers the rows of its run and no other. -/
theorem covered_spansRows {before run after : List WalRow}
    (hs : Ascending (before ++ run ++ after))
    (hfirst : run.head?.map (·.ts) = some s.first_ts)
    (hlast : run.getLast?.map (·.ts) = some s.last_ts) :
    covered (before ++ run ++ after) s = run.length := by
  obtain ⟨hbr, -, hafter⟩ := List.pairwise_append.mp hs
  obtain ⟨-, hrun, hbefore⟩ := List.pairwise_append.mp hbr
  obtain ⟨x, hx, hxts⟩ := Option.map_eq_some_iff.mp hfirst
  obtain ⟨y, hy, hyts⟩ := Option.map_eq_some_iff.mp hlast
  have hb : (before.filter fun r => s.first_ts ≤ r.ts && r.ts ≤ s.last_ts) = [] := by
    refine List.filter_eq_nil_iff.mpr fun r hr => ?_
    have hlt : r.ts < s.first_ts := hxts ▸ hbefore r hr x (List.mem_of_head? hx)
    simp [not_le.mpr hlt]
  have hm : (run.filter fun r => s.first_ts ≤ r.ts && r.ts ≤ s.last_ts) = run := by
    refine List.filter_eq_self.mpr fun r hr => ?_
    obtain ⟨x', hx', hle⟩ := head?_le hrun hr
    obtain ⟨y', hy', hge⟩ := le_getLast? hrun hr
    obtain rfl : x = x' := Option.some.inj (hx.symm.trans hx')
    obtain rfl : y = y' := Option.some.inj (hy.symm.trans hy')
    rw [hxts] at hle
    rw [hyts] at hge
    simp [hle, hge]
  have ha : (after.filter fun r => s.first_ts ≤ r.ts && r.ts ≤ s.last_ts) = [] := by
    refine List.filter_eq_nil_iff.mpr fun r hr => ?_
    have hmem : y ∈ before ++ run := List.mem_append_right _ (List.mem_of_getLast? hy)
    have hlt : s.last_ts < r.ts := hyts ▸ hafter y hmem r hr
    simp [not_le.mpr hlt]
  unfold covered
  rw [List.filter_append, List.filter_append, hb, hm, ha]
  simp

/-- **A segment of a run of the rows passes the contract.** -/
theorem SpansRows.meetsContract (h : SpansRows rows s)
    (hs : Ascending rows) {first last : WalRow}
    (hf : rows.head? = some first) (hl : rows.getLast? = some last) :
    meetsContract s rows first last = true := by
  obtain ⟨before, run, after, rfl, hfirst, hlast, hrows⟩ := h
  obtain ⟨x, hx, hxts⟩ := Option.map_eq_some_iff.mp hfirst
  obtain ⟨y, hy, hyts⟩ := Option.map_eq_some_iff.mp hlast
  have hxm : x ∈ run := List.mem_of_head? hx
  have hym : y ∈ run := List.mem_of_getLast? hy
  have hrun : Ascending run :=
    (List.pairwise_append.mp (List.pairwise_append.mp hs).1).2.1
  have hspan : s.first_ts ≤ s.last_ts := by
    obtain ⟨x', hx', hle⟩ := head?_le hrun hym
    obtain rfl : x = x' := Option.some.inj (hx.symm.trans hx')
    rwa [hxts, hyts] at hle
  have hstart : first.ts ≤ s.first_ts := by
    obtain ⟨f, hf', hle⟩ := head?_le hs (show x ∈ before ++ run ++ after by simp [hxm])
    obtain rfl : first = f := Option.some.inj (hf.symm.trans hf')
    rwa [hxts] at hle
  have hend : s.last_ts ≤ last.ts := by
    obtain ⟨l, hl', hle⟩ := le_getLast? hs (show y ∈ before ++ run ++ after by simp [hym])
    obtain rfl : last = l := Option.some.inj (hl.symm.trans hl')
    rwa [hyts] at hle
  have hsome : s.rows ≠ 0 := by
    intro h0
    rw [h0] at hrows
    obtain rfl : run = [] := List.length_eq_zero_iff.mp hrows.symm
    exact absurd hxm (by simp)
  unfold Dendro.meetsContract
  rw [covered_spansRows hs hfirst hlast]
  simp [hsome, hspan, hstart, hend, hrows]

/-! ## Seals -/

theorem partCalls_prefix : ∀ {chunks : List (List WalRow)} {before : List WalRow}
    {c : List WalRow × List WalRow}, c ∈ partCalls before chunks →
      c.1 ++ c.2 <+: before ++ chunks.flatten
  | [], _, _, h => absurd h (by simp [partCalls])
  | chunk :: chunks, before, c, h => by
      rw [List.flatten_cons, ← List.append_assoc]
      rcases List.mem_cons.mp h with rfl | h
      · exact List.prefix_append _ _
      · exact partCalls_prefix h

/-- An encode of a seal is of a part of the rows, after what comes before it. -/
theorem sealCalls_prefix {max_rows : Nat} {c : List WalRow × List WalRow}
    (h : c ∈ sealCalls rows max_rows) : c.1 ++ c.2 <+: rows := by
  rcases List.mem_cons.mp h with rfl | h
  · exact List.prefix_refl _
  · have hprefix := partCalls_prefix h
    rwa [List.nil_append, List.flatten_chunksOf (show 0 < max max_rows 1 by omega)] at hprefix

namespace SegmentEncoder.Honours

variable (h : encoder.Honours)
include h

/-- Nothing that such an encoder answers is refused. -/
theorem materializeAfter_answer {ctx : EncodeContext} {before rows : List WalRow}
    (hs : Ascending (before ++ rows)) (hne : rows ≠ []) {answer : Option Segment}
    (hanswer : encoder.answer ctx before rows = .ok answer) :
    materializeAfter encoder ctx before rows = .ok answer := by
  have hf := List.head?_eq_some_head hne
  have hl := List.getLast?_eq_some_getLast hne
  cases answer with
  | none =>
      unfold answer at hanswer
      unfold materializeAfter
      simp only [hf, hl, hanswer]
  | some s =>
      have hrows : Ascending rows := (List.pairwise_append.mp hs).2.1
      exact materializeAfter_eq_some.mpr ⟨_, _, hf, hl, hanswer,
        (h.spans ctx before rows s hs hanswer).meetsContract hrows hf hl⟩

theorem materializeAfter_ok (ctx : EncodeContext) {before rows : List WalRow}
    (hs : Ascending (before ++ rows)) :
    ∃ answer, materializeAfter encoder ctx before rows = .ok answer := by
  by_cases hne : rows = []
  · subst hne
    exact ⟨none, rfl⟩
  · obtain ⟨answer, hanswer⟩ := h.answers ctx before rows hs
    exact ⟨answer, h.materializeAfter_answer hs hne hanswer⟩

theorem splitParts_ok (ctx : EncodeContext) : ∀ (chunks : List (List WalRow)) (before : List WalRow),
    Ascending (before ++ chunks.flatten) →
      ∃ parts, splitParts encoder ctx before chunks = .ok parts
  | [], _, _ => ⟨some [], rfl⟩
  | chunk :: chunks, before, hs => by
      rw [List.flatten_cons, ← List.append_assoc] at hs
      obtain ⟨answer, hanswer⟩ := h.materializeAfter_ok ctx (List.pairwise_append.mp hs).1
      obtain ⟨parts, hparts⟩ := splitParts_ok ctx chunks (before ++ chunk) hs
      unfold splitParts
      rw [hanswer]
      cases answer with
      | none => exact ⟨none, rfl⟩
      | some segment =>
          by_cases ht : tiles segment chunk before.isEmpty chunks.isEmpty = true
          · refine ⟨parts.map (segment :: ·), ?_⟩
            simp only [Except.bind_eq_ok, Except.ok.injEq, exists_eq_left', if_pos ht,
              Except.pure_eq_ok]
            exact ⟨parts, hparts, rfl⟩
          · refine ⟨none, ?_⟩
            simp only [Except.bind_eq_ok, Except.ok.injEq, exists_eq_left', if_neg ht,
              Except.pure_eq_ok]

/-- **A seal by such an encoder always has its parts.** -/
theorem splitSeal_ok (ctx : EncodeContext) (hs : Ascending rows)
    (max_rows : Nat) : ∃ parts, splitSeal encoder ctx rows max_rows = .ok parts := by
  have hs' : Ascending ([] ++ rows) := hs
  obtain ⟨whole, hwhole⟩ := h.materializeAfter_ok ctx hs'
  have hwhole' : (do return (← materialize encoder ctx rows).toList : Except Error _) =
      .ok whole.toList := by
    unfold materialize
    rw [hwhole]
    rfl
  have hchunks : Ascending ([] ++ (rows.chunksOf (max max_rows 1)).flatten) := by
    rw [List.flatten_chunksOf (by omega), List.nil_append]
    exact hs
  obtain ⟨split, hsplit⟩ := h.splitParts_ok ctx _ [] hchunks
  unfold splitSeal
  dsimp only
  split
  · exact ⟨_, hwhole'⟩
  · rw [hsplit]
    cases split with
    | none => exact ⟨_, hwhole'⟩
    | some parts => exact ⟨parts, rfl⟩

/-- **Every part of such a seal is of a run of the rows.** -/
theorem splitSeal_spans (ctx : EncodeContext) (hs : Ascending rows) {max_rows : Nat}
    {parts : List Segment} (hparts : splitSeal encoder ctx rows max_rows = .ok parts)
    {s : Segment} (hmem : s ∈ parts) : ∃ part, part.Sublist rows ∧ SpansRows part s := by
  obtain ⟨c, hc, hm⟩ := splitSeal_calls hparts hmem
  obtain ⟨-, -, -, -, ho, -⟩ := materializeAfter_eq_some.mp hm
  have hprefix := sealCalls_prefix hc
  exact ⟨c.2, (List.sublist_append_right c.1 c.2).trans hprefix.sublist,
    h.spans ctx c.1 c.2 s (hs.sublist hprefix.sublist) ho⟩

/-- The last part of such a seal ends at a row. -/
theorem splitSeal_last (ctx : EncodeContext) (hs : Ascending rows) {max_rows : Nat}
    {parts : List Segment} (hparts : splitSeal encoder ctx rows max_rows = .ok parts)
    {tail : Segment} (htail : parts.getLast? = some tail) : ∃ r ∈ rows, r.ts = tail.last_ts := by
  obtain ⟨part, hsub, before, run, after, rfl, -, hlast, -⟩ :=
    h.splitSeal_spans ctx hs hparts (List.mem_of_getLast? htail)
  obtain ⟨r, hr, hts⟩ := Option.map_eq_some_iff.mp hlast
  exact ⟨r, hsub.subset (by simp [List.mem_of_getLast? hr]), hts⟩

end SegmentEncoder.Honours

end Dendro
