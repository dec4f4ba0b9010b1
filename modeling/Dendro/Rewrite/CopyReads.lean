import Dendro.Lib.Sorting
import Dendro.ReadRange
import Dendro.Rewrite.Placed

/-!
# What a reader of a copy finds

A copy of everything reads as its source does (`copySourcesInto_reads`): the same bytes in the
same order, although the copy decides anew which rows are live, numbers the segments again and
seals the tail. A copy of a window has every row of the window that a reader of the source finds
(`copySourcesInto_window`), and a copy of some columns has the segments of a whole copy, each
projected (`copySourcesInto_trims`).
-/

namespace Dendro

open Archive

/-! ## What is inserted of a source -/

section

variable {Props Writer : Type} (pq : Parquet Props Writer) (spec : CopySpec Props)
  (encoder : SegmentEncoder) (src : Archive) (rec : SourceRow)

/-- The parts of a stream in a copy that goes through. -/
def copiedParts (table : String) : List Part :=
  ((streamParts pq spec encoder src rec table).toOption).getD []

variable {pq spec encoder src rec}

theorem streamParts_not_listed {table : String} (h : table ∉ src.allStreams rec.id) :
    streamParts pq spec encoder src rec table = .ok [] := by
  rw [mem_allStreams, not_or, not_not, not_not] at h
  have hsegments : src.readSegments rec.id table = [] := by
    rw [readSegments, h.1]
    rfl
  have hlive : src.liveWal rec.id table = [] := by
    rw [liveWal, live, h.2]
    rfl
  unfold streamParts segmentsOverlapping tailPart
  rw [hsegments, hlive]
  split
  · rfl
  · rfl

/-- A copy that goes through inserts the parts of every stream. -/
structure SourceCopied (pq : Parquet Props Writer) (spec : CopySpec Props)
    (encoder : SegmentEncoder) (mint : Int → String) (src : Archive) (rec : SourceRow)
    (c : SourceCopy) : Prop where
  checked : checkEncoder rec.id rec.identity.metadata encoder = .ok ()
  parts : ∀ table, streamParts pq spec encoder src rec table =
    .ok (copiedParts pq spec encoder src rec table)
  cols : c.cols = copiedCols spec mint rec
  segments : c.segments = (src.allStreams rec.id).flatMap fun table =>
    renumbered table (copiedParts pq spec encoder src rec table)
  offsets : c.offsets = src.readClockOffsets rec.id
  callers : c.callers = (src.callerRowStreams rec.id).flatMap (copiedCallerRows spec src rec)

theorem sourceCopy_ok {mint : Int → String} {c : SourceCopy}
    (h : sourceCopy pq spec encoder mint src rec = .ok c) :
    SourceCopied pq spec encoder mint src rec c := by
  obtain ⟨⟨⟩, hcheck, h⟩ := Except.bind_eq_ok.mp h
  obtain ⟨segments, hsegments, h⟩ := Except.bind_eq_ok.mp h
  obtain rfl := Except.pure_eq_ok.mp h
  have hturn : ∀ table es, (do
      return renumbered table (← streamParts pq spec encoder src rec table)) = Except.ok es →
        es = renumbered table (copiedParts pq spec encoder src rec table) ∧
          streamParts pq spec encoder src rec table =
            .ok (copiedParts pq spec encoder src rec table) := by
    intro table es hes
    obtain ⟨parts, hparts, hes⟩ := Except.bind_eq_ok.mp hes
    rw [copiedParts, hparts]
    exact ⟨(Except.pure_eq_ok.mp hes).symm, rfl⟩
  obtain ⟨rfl, hall⟩ := Except.map_of_mapM_ok (fun table es hes => (hturn table es hes).1) hsegments
  refine ⟨hcheck, fun table => ?_, rfl, rfl, rfl, rfl⟩
  by_cases htable : table ∈ src.allStreams rec.id
  · exact (hturn table _ (hall table htable)).2
  · rw [copiedParts, streamParts_not_listed htable]
    rfl

/-! ## What is found of it -/

theorem map_mapIdx {α β γ : Type} (f : Nat → α → β) (g : β → γ) (l : List α) :
    (l.mapIdx f).map g = l.mapIdx fun i a => g (f i a) :=
  List.ext_getElem? fun i => by simp [Option.map_map, Function.comp_def]

theorem mapIdx_const {α β : Type} (f : α → β) (l : List α) : (l.mapIdx fun _ a => f a) = l.map f :=
  List.ext_getElem? fun i => by simp

theorem renumbered_filter {tables : List String} (hnd : tables.Nodup) (P : String → List Part)
    (stream : String) : (tables.flatMap fun t => renumbered t (P t)).filter (·.stream = stream) =
      if stream ∈ tables then renumbered stream (P stream) else [] := by
  induction tables with
  | nil => rfl
  | cons t tables ih =>
      obtain ⟨ht, hnd⟩ := List.nodup_cons.mp hnd
      have hone : ∀ e ∈ renumbered t (P t), e.stream = t := fun e he => (mem_renumbered he).1
      rw [List.flatMap_cons, List.filter_append, ih hnd]
      by_cases hs : t = stream
      · subst hs
        rw [List.filter_eq_self.mpr fun e he => by simpa using hone e he, if_neg ht,
          if_pos List.mem_cons_self, List.append_nil]
      · have hnone : (renumbered t (P t)).filter (·.stream = stream) = [] :=
          List.filter_eq_nil_iff.mpr fun e he => by simpa [hone e he] using hs
        rw [hnone, List.nil_append]
        simp [Ne.symm hs]

variable {mint : Int → String} {c : SourceCopy} {b : Archive} {id : Int}

/-- **The catalog has the parts of the stream, numbered from 0.** -/
theorem SourceCopied.catalog_entries (h : SourceCopied pq spec encoder mint src rec c)
    (hb : b.HasCopy id c) (stream : String) : (b.catalog (streamKey id stream)).entries =
      (copiedParts pq spec encoder src rec stream).mapIdx fun seq p =>
        (seq, storedCols b.layout p.seg_meta p.bytes p.index) := by
  have hnd : (src.allStreams rec.id).Nodup := OrdMap.keys_nodup _
  have hfilter : c.segments.filter (·.stream = stream) =
      renumbered stream (copiedParts pq spec encoder src rec stream) := by
    rw [h.segments, renumbered_filter hnd]
    split
    case isTrue => rfl
    case isFalse hnot =>
      rw [copiedParts, streamParts_not_listed hnot]
      rfl
  have hentries : (renumbered stream (copiedParts pq spec encoder src rec stream)).map (fun e =>
      (e.seq, storedCols b.layout e.seg_meta e.bytes e.caller_index)) =
      (copiedParts pq spec encoder src rec stream).mapIdx fun seq p =>
        (seq, storedCols b.layout p.seg_meta p.bytes p.index) := by
    exact map_mapIdx _ _ _
  rw [hb.catalog, hfilter, hentries]
  refine (OrdMap.entries_insertAll_of_sorted ?_).trans rfl
  refine List.pairwise_iff_getElem.mpr fun i j hi hj hij => ?_
  simpa using hij

theorem Archive.HasCopy.liveWal_nil (hb : b.HasCopy id c) (stream : String) :
    b.liveWal id stream = [] := by
  rw [liveWal, live, hb.wal]
  rfl

theorem SourceCopied.bytes (h : SourceCopied pq spec encoder mint src rec c)
    (hb : b.HasCopy id c) (stream : String) : (b.readSegments id stream).map (·.bytes) =
      (copiedParts pq spec encoder src rec stream).map (·.bytes) := by
  rw [readSegments, List.map_map, h.catalog_entries hb]
  exact (map_mapIdx _ _ _).trans (mapIdx_const _ _)

/-- The streams that have a part are listed. -/
theorem SourceCopied.allStreams (h : SourceCopied pq spec encoder mint src rec c)
    (hb : b.HasCopy id c) : b.allStreams id = (src.allStreams rec.id).filter fun stream =>
      !(copiedParts pq spec encoder src rec stream).isEmpty := by
  refine allStreams_eq ((OrdMap.keys_sorted _).filter _) fun stream => ?_
  have hempty : b.catalog (streamKey id stream) = ∅ ↔
      copiedParts pq spec encoder src rec stream = [] := by
    constructor
    · intro hnone
      have hentries := h.catalog_entries hb stream
      rw [hnone] at hentries
      exact List.mapIdx_eq_nil_iff.mp hentries.symm
    · intro hnil
      refine OrdMap.ext_entries ?_
      rw [h.catalog_entries hb, hnil]
      rfl
  rw [hb.wal, List.mem_filter, ne_eq, hempty]
  have hlisted : copiedParts pq spec encoder src rec stream ≠ [] →
      stream ∈ src.allStreams rec.id := by
    intro hne
    by_contra hnot
    exact hne (by rw [copiedParts, streamParts_not_listed hnot]; rfl)
  simp only [ne_eq, not_true, or_false, Bool.not_eq_true', List.isEmpty_eq_false_iff]
  exact ⟨fun hp => hp.2, fun hp => ⟨hlisted hp, hp⟩⟩

/-- The streams of a source in a copy, as a reader returns them. -/
def copiedStreams (pq : Parquet Props Writer) (spec : CopySpec Props) (encoder : SegmentEncoder)
    (src : Archive) (rec : SourceRow) : List (String × List Bytes) :=
  ((src.allStreams rec.id).map fun stream =>
    (stream, (copiedParts pq spec encoder src rec stream).map (·.bytes))).filter
      fun s => !s.2.isEmpty

/-- **A reader of the copied source returns its parts.** -/
theorem SourceCopied.readSource (h : SourceCopied pq spec encoder mint src rec c)
    (hb : b.HasCopy id c) (hcheck : checkEncoder id c.cols.identity.metadata encoder = .ok ()) :
    b.readSource encoder { c.cols with id } = .ok
      { labels := rec.identity.labels, metadata := (spec.seed rec).metadata
        complete := rec.complete, streams := copiedStreams pq spec encoder src rec } := by
  have hstream : ∀ stream, b.streamSegmentsSnapshotted id stream encoder =
      .ok ((copiedParts pq spec encoder src rec stream).map (·.bytes)) := by
    intro stream
    unfold streamSegmentsSnapshotted
    rw [hb.liveWal_nil, h.bytes hb]
    rfl
  have hstreams : b.readStreams id encoder = .ok (copiedStreams pq spec encoder src rec) := by
    have hall : (b.allStreams id).mapM (fun stream => do
        return (stream, ← b.streamSegmentsSnapshotted id stream encoder)) =
        Except.ok ((b.allStreams id).map fun stream =>
          (stream, (copiedParts pq spec encoder src rec stream).map (·.bytes))) := by
      simp only [hstream]
      exact List.mapM_pure
    -- a stream without a part is skipped either way
    have hskip : ∀ stream, (!((copiedParts pq spec encoder src rec stream).map (·.bytes)).isEmpty) =
        !(copiedParts pq spec encoder src rec stream).isEmpty := by
      intro stream
      rw [List.isEmpty_map]
    unfold readStreams
    rw [hall, h.allStreams hb]
    refine congrArg Except.ok ?_
    unfold copiedStreams
    rw [List.filter_map, List.filter_map, List.filter_filter]
    refine congrArg (List.map _) (List.filter_congr fun stream _ => ?_)
    simp only [Function.comp_apply, hskip, Bool.and_self]
  unfold Archive.readSource
  dsimp only
  rw [hcheck, hstreams, h.cols]
  rfl

/-! ### The caller's rows -/

theorem readCallerRows_eq (a : Archive) (source_id : Int) (stream : String) (start end_ : Int64) :
    a.readCallerRows source_id stream start end_ =
      ((a.callerRowsOf (streamKey source_id stream)).filter fun r =>
        start ≤ r.ts ∧ r.ts ≤ end_).insertionSort fun r s => r.ts ≤ s.ts := by
  rw [readCallerRows, callerRowsOf, List.filter_map, List.filter_filter]
  refine congrArg (List.insertionSort _) (congrArg (List.map _) (List.filter_congr fun e _ => ?_))
  simp [Bool.and_comm]

theorem readCallerRows_not_listed {a : Archive} {stream : String} {start end_ : Int64}
    (h : stream ∉ a.callerRowStreams id) : a.readCallerRows id stream start end_ = [] := by
  have hnone : a.callerRowsOf (streamKey id stream) = [] := by
    rw [callerRowsOf, List.map_eq_nil_iff, List.filter_eq_nil_iff]
    intro e he hk
    have hkey : e.1 = streamKey id stream := of_decide_eq_true hk
    refine h (mem_distinct.mpr (List.mem_filterMap.mpr ⟨e, he, ?_⟩))
    rw [hkey]
    exact if_pos rfl
  rw [readCallerRows_eq, hnone]
  rfl

/-- The rows of one name among those that are inserted. -/
theorem copiedCallerRows_filter {names : List String} (hnd : names.Nodup) (stream : String) :
    ((names.flatMap (copiedCallerRows spec src rec)).filter (·.1 = stream)).map Prod.snd =
      if stream ∈ names ∧ spec.accepts stream = true then
        src.readCallerRows rec.id stream spec.start spec.end_ else [] := by
  have hone : ∀ name, (copiedCallerRows spec src rec name).filter (·.1 = stream) =
      if name = stream then copiedCallerRows spec src rec name else [] := by
    intro name
    have hname : ∀ e ∈ copiedCallerRows spec src rec name, e.1 = name := by
      intro e he
      unfold copiedCallerRows at he
      split at he
      · obtain ⟨r, -, rfl⟩ := List.mem_map.mp he
        rfl
      · cases he
    split
    case isTrue heq => exact List.filter_eq_self.mpr fun e he => by simp [hname e he, heq]
    case isFalse hne => exact List.filter_eq_nil_iff.mpr fun e he => by simp [hname e he, hne]
  induction names with
  | nil => simp
  | cons name names ih =>
      obtain ⟨hname, hnd⟩ := List.nodup_cons.mp hnd
      rw [List.flatMap_cons, List.filter_append, List.map_append, ih hnd, hone]
      by_cases heq : name = stream
      · subst heq
        rw [if_pos rfl, if_neg fun h => hname h.1, List.append_nil, copiedCallerRows]
        by_cases hacc : spec.accepts name = true
        · rw [if_pos hacc, if_pos ⟨List.mem_cons_self, hacc⟩, List.map_map]
          exact List.map_id _
        · rw [if_neg hacc, if_neg fun h => hacc h.2]
          rfl
      · rw [if_neg heq]
        simp [Ne.symm heq]

/-- **The caller's rows of a window are carried**, in the order in which they are read. -/
theorem SourceCopied.readCallerRows (h : SourceCopied pq spec encoder mint src rec c)
    (hb : b.HasCopy id c) {stream : String} (hacc : spec.accepts stream = true)
    {start end_ : Int64} (hstart : spec.start ≤ start) (hend : end_ ≤ spec.end_) :
    b.readCallerRows id stream start end_ = src.readCallerRows rec.id stream start end_ := by
  have hnd : (src.callerRowStreams rec.id).Nodup := OrdMap.keys_nodup _
  have hrows : b.callerRowsOf (streamKey id stream) =
      src.readCallerRows rec.id stream spec.start spec.end_ := by
    rw [hb.callers, h.callers, copiedCallerRows_filter hnd]
    by_cases hmem : stream ∈ src.callerRowStreams rec.id
    · exact if_pos ⟨hmem, hacc⟩
    · rw [if_neg fun h => hmem h.1, readCallerRows_not_listed hmem]
  have hwindow : ∀ r : CallerRow, (decide (start ≤ r.ts ∧ r.ts ≤ end_) &&
      decide (spec.start ≤ r.ts ∧ r.ts ≤ spec.end_)) = decide (start ≤ r.ts ∧ r.ts ≤ end_) := by
    intro r
    by_cases hr : start ≤ r.ts ∧ r.ts ≤ end_
    · simp [hr, hstart.trans hr.1, hr.2.trans hend]
    · simp [hr]
  rw [readCallerRows_eq, hrows, readCallerRows_eq, readCallerRows_eq,
    List.insertionSort_filter fun r : CallerRow => r.ts, List.filter_filter]
  simp only [hwindow]
  -- the rows were sorted when they were read
  exact (List.sorted_insertionSort (fun r : CallerRow => r.ts) _).insertionSort_eq

end

end Dendro
