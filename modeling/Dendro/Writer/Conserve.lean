import Mathlib.Algebra.Order.Group.Multiset
import Dendro.Writer.Invariant

/-!
# No row is lost and none is read twice

What a reader sees of a stream is the rows of its segments in `seq` order and then its live
rows. What it is owed is the `ledger` of the transactions that committed: the rows of the
ticks and of the adopted segments, less what each eviction removed.

Each step of a stream changes the two alike (`view_step`). A seal moves rows from the live
end into a segment, so it changes neither; that is where the encoder has to have kept every
row, and where the order of the rows matters, since the watermark must fall exactly behind
the rows that moved.
-/

namespace Dendro

open Spans

/-- A segment whose bytes decode to rows in order, all inside its span. -/
def Holds (dec : Decoder) (k : StreamKey) (c : SegmentCols) : Prop :=
  (dec k c.bytes).Pairwise (fun r r' => r.ts < r'.ts) ∧
    ∀ r ∈ dec k c.bytes, c.first ≤ r.ts ∧ r.ts ≤ c.last

/-- The rows of some segments, in order. -/
def sealedRows (dec : Decoder) (k : StreamKey) (runs : List SegmentCols) : List WalRow :=
  runs.flatMap fun c => dec k c.bytes

/-- What a reader sees of a stream. -/
def StreamState.view (dec : Decoder) (k : StreamKey) (s : StreamState) : List WalRow :=
  sealedRows dec k s.catalog.values ++ s.liveRows (ofLex k).2

/-- What an eviction removes: the segments that end before the cutoff and the live rows
before it. -/
def StreamState.removed (dec : Decoder) (k : StreamKey) (s : StreamState) (cutoff_ts : Int64) :
    List WalRow :=
  sealedRows dec k (s.catalog.values.filter fun c => decide (c.last < cutoff_ts)) ++
    (s.liveRows (ofLex k).2).filter fun r => decide (r.ts < cutoff_ts)

/-- What a reader is owed after an effect; `removed` is what an eviction at a cutoff takes. -/
def Effect.owed (dec : Decoder) (k : StreamKey) (removed : Int64 → List WalRow)
    (rows : Multiset WalRow) : Effect → Multiset WalRow
  | .none => rows
  | .rows new => rows + new
  | .adopt segment => rows + dec k segment.bytes
  | .cut cutoff_ts => rows - removed cutoff_ts

/-- A segment built elsewhere whose catalog entry is true of its bytes. -/
structure Adopted.Truthful (dec : Decoder) (k : StreamKey) (segment : Adopted) : Prop where
  sorted : (dec k segment.bytes).Pairwise fun r r' => r.ts < r'.ts
  rows : segment.seg_meta.rows.toNat = (dec k segment.bytes).length
  first_ts : ∀ r ∈ (dec k segment.bytes).head?, r.ts = segment.seg_meta.first_ts
  last_ts : ∀ r ∈ (dec k segment.bytes).getLast?, r.ts = segment.seg_meta.last_ts

theorem Adopted.Truthful.holds {dec : Decoder} {k : StreamKey} {segment : Adopted}
    (h : segment.Truthful dec k) (layout : IndexLayout) :
    Holds dec k (Archive.storedCols layout segment.seg_meta segment.bytes segment.caller_index) := by
  refine ⟨h.sorted, fun r hr => ?_⟩
  obtain ⟨first, hf, hle⟩ := head?_le h.sorted hr
  obtain ⟨last, hl, hle'⟩ := le_getLast? h.sorted hr
  rw [h.first_ts first hf] at hle
  rw [h.last_ts last hl] at hle'
  exact ⟨hle, hle'⟩

/-- A message that carries only true catalog entries. -/
def Msg.Truthful (dec : Decoder) : Msg → Prop
  | .adoptSegment source_id segment =>
    segment.Truthful dec (streamKey source_id segment.stream)
  | _ => True

section

variable {env : Env} {msg : Msg} {k : StreamKey} {s s' : StreamState} {dec : Decoder}

theorem sealedRows_append (runs runs' : List SegmentCols) :
    sealedRows dec k (runs ++ runs') = sealedRows dec k runs ++ sealedRows dec k runs' := by
  simp [sealedRows]

theorem rows_filter (p : WalRow → Bool) (rows : List WalRow) : (rows : Multiset WalRow) =
    (rows.filter fun r => !p r : List WalRow) + (rows.filter p : List WalRow) := by
  rw [add_comm]
  exact (Multiset.coe_eq_coe.mpr (List.filter_append_perm p rows)).symm

/-- The rows of a stream's segments split over any test of the segments. -/
theorem sealedRows_filter (p : SegmentCols → Bool) (runs : List SegmentCols) :
    (sealedRows dec k runs : Multiset WalRow) =
      sealedRows dec k (runs.filter fun c => !p c) + sealedRows dec k (runs.filter p) := by
  have hperm := (List.filter_append_perm p runs).flatMap_right fun c => dec k c.bytes
  rw [List.flatMap_append] at hperm
  rw [add_comm]
  exact (Multiset.coe_eq_coe.mpr hperm).symm

/-- A reader sees a stream in timestamp order. -/
theorem view_sorted (h : StreamInv s) (hh : ∀ c ∈ s.catalog.values, Holds dec k c) :
    (s.view dec k).Pairwise fun r r' => r.ts < r'.ts := by
  refine List.pairwise_append.mpr ⟨?_, liveRows_sorted s _, fun r hr r' hr' => ?_⟩
  · exact h.layout.laid.rows_sorted (fun c hc => (hh c hc).1) fun c hc => (hh c hc).2
  · obtain ⟨c, hc, hrc⟩ := List.mem_flatMap.mp hr
    exact lt_of_le_of_lt ((hh c hc).2 r hrc).2 ((mem_liveRows.mp hr').2.2 c hc)

/-! ## The live end -/

/-- Rows past the watermark are added to the live end. -/
theorem liveRows_rows {rows : List WalRow} {wal : OrdMap Int64 WalCols} (h : StreamInv s)
    (hrows : ∀ r ∈ rows, r.stream = (ofLex k).2 ∧ beyond s.known r.ts = true)
    (hwal : wal.entries.Perm (rows.map (fun r => (r.ts, r.cols)) ++ s.wal.entries)) :
    (({ s with wal } : StreamState).liveRows (ofLex k).2).Perm
      (rows ++ s.liveRows (ofLex k).2) := by
  have hlive : (rows.map fun r => (r.ts, r.cols)).filter
      (fun e => beyond s.watermark e.1) = rows.map fun r => (r.ts, r.cols) := by
    refine List.filter_eq_self.mpr fun e he => ?_
    obtain ⟨r, hr, rfl⟩ := List.mem_map.mp he
    exact beyond_newest.mpr (h.beyond (hrows r hr).2)
  have hback : (rows.map fun r => (r.ts, r.cols)).map
      (fun e => Archive.toWalRow (ofLex k).2 e.1 e.2) = rows := by
    rw [List.map_map]
    refine (List.map_congr_left fun r hr => ?_).trans (List.map_id rows)
    show Archive.toWalRow (ofLex k).2 r.ts r.cols = r
    rw [← (hrows r hr).1]
    rfl
  have hperm := (hwal.filter fun e => beyond s.watermark e.1).map
    fun e => Archive.toWalRow (ofLex k).2 e.1 e.2
  rw [List.filter_append, hlive, List.map_append, hback] at hperm
  exact hperm

/-- A prune at or below the watermark removes no live row. -/
theorem live_prune {upto_ts w : Int64} (hw : s.watermark = some w) (hle : upto_ts ≤ w) :
    ({ s with wal := s.wal.filter fun ts _ => !decide (ts ≤ upto_ts) } : StreamState).live =
      s.live := by
  show (s.wal.filter _).filter (fun ts _ => beyond s.watermark ts) = s.live
  rw [OrdMap.filter_filter]
  unfold StreamState.live
  congr 1
  funext ts _
  rw [hw]
  by_cases hts : w < ts
  · simp [not_le.mpr (lt_of_le_of_lt hle hts)]
  · simp [Spans.beyond, hts]

/-- An eviction leaves the live rows from the cutoff on. -/
theorem live_cut (cutoff_ts : Int64) :
    ({ s with
        catalog := s.catalog.filter fun _ c => !decide (c.last < cutoff_ts)
        wal := s.wal.filter fun ts _ => !decide (ts < cutoff_ts) } : StreamState).live =
      s.live.filter fun ts _ => !decide (ts < cutoff_ts) := by
  unfold StreamState.live StreamState.watermark
  dsimp only
  rw [OrdMap.filter_filter, OrdMap.filter_filter, OrdMap.values_filter_value s.catalog
    fun c => !decide (c.last < cutoff_ts)]
  congr 1
  funext ts _
  by_cases hts : ts < cutoff_ts
  · simp [hts]
  · rw [beyond_newest_filter (not_lt.mp hts)]
    simp [hts]

/-- More segments leave the live rows past them. -/
theorem live_extend {catalog : OrdMap Nat SegmentCols} {new : List SegmentCols} {n : Nat}
    {known : Option Int64} (hvalues : catalog.values = s.catalog.values ++ new) :
    ({ s with catalog, next := n, known } : StreamState).live =
      s.live.filter fun ts _ => new.all fun c => decide (c.last < ts) := by
  unfold StreamState.live StreamState.watermark
  dsimp only
  rw [OrdMap.filter_filter, hvalues]
  congr 1
  funext ts _
  rw [Bool.eq_iff_iff, beyond_newest, Bool.and_eq_true, beyond_newest, List.all_eq_true]
  simp only [List.mem_append, or_imp, forall_and, decide_eq_true_eq]

/-! ## Every step -/

/-- The segments of a seal by an encoder that keeps every row hold the live rows, which end
where the segments do. -/
theorem seal_takes_live {uuid : Option String} {parts : List Segment} {layout : IndexLayout}
    (hk : KeepsEveryRow dec env.encoder) (hne : parts ≠ [])
    (hseal : SealOf env.encoder ⟨(ofLex k).1, uuid, (ofLex k).2⟩ (s.liveRows (ofLex k).2) parts) :
    let stored := parts.map fun p => Archive.storedCols layout p.segMeta p.bytes p.index
    sealedRows dec k stored = s.liveRows (ofLex k).2 ∧ ∀ c ∈ stored, Holds dec k c := by
  refine ⟨?_, fun c hc => ?_⟩
  · rw [sealedRows, List.flatMap_map]
    exact hseal.keeps hk hne
  · obtain ⟨p, hp, rfl⟩ := List.mem_map.mp hc
    obtain ⟨part, hof, hsub⟩ := hseal.mem hp
    obtain ⟨hdec, hspan⟩ := hof.keeps hk
    have hdec' : dec k p.bytes = part := hdec
    refine ⟨?_, ?_⟩
    · show (dec k p.bytes).Pairwise _
      rw [hdec']
      exact (liveRows_sorted s _).sublist hsub
    · show ∀ r ∈ dec k p.bytes, _
      rw [hdec']
      exact hspan

/-- After such a seal nothing is live. -/
theorem live_sealed {new : List SegmentCols} {catalog : OrdMap Nat SegmentCols} {n : Nat}
    {known : Option Int64} (hvalues : catalog.values = s.catalog.values ++ new)
    (hrows : sealedRows dec k new = s.liveRows (ofLex k).2)
    (hh : ∀ c ∈ new, Holds dec k c) :
    ({ s with catalog, next := n, known } : StreamState).liveRows (ofLex k).2 = [] := by
  refine List.eq_nil_iff_forall_not_mem.mpr fun r hr => ?_
  obtain ⟨hstream, hmem, hpast⟩ := mem_liveRows.mp hr
  dsimp only at hmem hpast
  rw [hvalues] at hpast
  have hlive : r ∈ s.liveRows (ofLex k).2 :=
    mem_liveRows.mpr ⟨hstream, hmem, fun c hc => hpast c (by simp [hc])⟩
  rw [← hrows] at hlive
  obtain ⟨c, hc, hrc⟩ := List.mem_flatMap.mp hlive
  exact absurd (hpast c (by simp [hc])) (not_lt.mpr ((hh c hc).2 r hrc).2)

/-- **Every step of a stream changes what a reader sees as it changes what it is owed.** -/
theorem view_step {e : Effect} (hs : StreamStep env msg k e s s') (h : StreamInv s)
    (hh : ∀ c ∈ s.catalog.values, Holds dec k c) (hk : KeepsEveryRow dec env.encoder)
    (hm : msg.Truthful dec) :
    (s'.view dec k : Multiset WalRow) = e.owed dec k (s.removed dec k) (s.view dec k) ∧
      ∀ c ∈ s'.catalog.values, Holds dec k c := by
  cases hs with
  | same => exact ⟨rfl, hh⟩
  | @rows _ rows wal hrows hwal =>
      refine ⟨?_, hh⟩
      have hlive := Multiset.coe_eq_coe.mpr (liveRows_rows h hrows hwal)
      simp only [StreamState.view, Effect.owed, ← Multiset.coe_add] at hlive ⊢
      rw [hlive, add_comm (rows : Multiset WalRow), add_assoc]
  | prune hw hle =>
      refine ⟨?_, hh⟩
      simp only [StreamState.view, StreamState.liveRows, Effect.owed, live_prune hw hle]
  | @cut _ cutoff_ts =>
      have hvalues := OrdMap.values_filter_value s.catalog fun c => !decide (c.last < cutoff_ts)
      refine ⟨?_, fun c hc => hh c (List.mem_filter.mp (hvalues ▸ hc)).1⟩
      have hrows : (({ s with
          catalog := s.catalog.filter fun _ c => !decide (c.last < cutoff_ts)
          wal := s.wal.filter fun ts _ => !decide (ts < cutoff_ts) } : StreamState).liveRows
            (ofLex k).2) = (s.liveRows (ofLex k).2).filter fun r => !decide (r.ts < cutoff_ts) := by
        rw [StreamState.liveRows, live_cut, StreamState.liveRows, OrdMap.entries_filter,
          List.filter_map]
        rfl
      -- what there was is what is left and what was removed
      have hsplit : (s.view dec k : Multiset WalRow) =
          (({ s with
            catalog := s.catalog.filter fun _ c => !decide (c.last < cutoff_ts)
            wal := s.wal.filter fun ts _ => !decide (ts < cutoff_ts) } : StreamState).view dec k :
              Multiset WalRow) + s.removed dec k cutoff_ts := by
        have hsealed := @sealedRows_filter k dec
          (fun c => decide (c.last < cutoff_ts)) s.catalog.values
        have hlive := rows_filter (fun r => decide (r.ts < cutoff_ts)) (s.liveRows (ofLex k).2)
        simp only [StreamState.view, StreamState.removed, hrows, hvalues, ← Multiset.coe_add]
        rw [hsealed, hlive]
        exact add_add_add_comm _ _ _ _
      rw [Effect.owed, hsplit, add_tsub_cancel_right]
  | @sealed _ uuid init tail layout hseal =>
      obtain ⟨hrows, hnew⟩ := @seal_takes_live env k _ dec uuid (init ++ [tail]) layout hk (by simp) hseal
      have hvalues := values_insertAll_parts h.seq layout (init ++ [tail])
      refine ⟨?_, fun c hc => ?_⟩
      · rw [StreamState.view, live_sealed hvalues hrows hnew]
        simp only [hvalues, sealedRows_append, hrows, List.append_nil, Effect.owed]
        rfl
      · rcases List.mem_append.mp (hvalues ▸ hc) with hc | hc
        · exact hh c hc
        · exact hnew c hc
  | @adopted _ segment layout hmsg hstream hrows hspan hpast hlive =>
      have htrue : segment.Truthful dec k := by
        rw [hmsg] at hm
        rw [Msg.Truthful, hstream] at hm
        exact hm
      have hvalues : (s.catalog.insert s.next _).values = s.catalog.values ++
          [Archive.storedCols layout segment.seg_meta segment.bytes segment.caller_index] :=
        OrdMap.values_insert_of_lt _ h.seq
      refine ⟨?_, fun c hc => ?_⟩
      · have hsame : s.live.filter (fun ts _ => [Archive.storedCols layout segment.seg_meta
            segment.bytes segment.caller_index].all fun c => decide (c.last < ts)) = s.live := by
          refine OrdMap.filter_eq_self fun ts c hc => ?_
          simpa [Archive.storedCols] using hlive ts (OrdMap.mem_keys.mpr ⟨c, hc⟩)
        rw [StreamState.view, StreamState.liveRows, live_extend hvalues, hsame]
        simp only [hvalues, sealedRows_append, Effect.owed, StreamState.view, ← Multiset.coe_add]
        have : sealedRows dec k [Archive.storedCols layout segment.seg_meta segment.bytes
            segment.caller_index] = dec k segment.bytes := by
          simp [sealedRows, Archive.storedCols]
        rw [this]
        exact add_right_comm _ _ _
      · rcases List.mem_append.mp (hvalues ▸ hc) with hc | hc
        · exact hh c hc
        · rw [List.mem_singleton.mp hc]
          exact htrue.holds layout

end

end Dendro
