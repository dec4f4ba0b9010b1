import Dendro.Archive.Disk
import Dendro.Lib.Prog

/-!
# One archive, two layouts

An archive keeps the index of a segment in a column of the segment's own row or in a table of
its own. `inline` is what either stands for: the archive in the column layout, with the index
that a read returns in every row, and no index table.

Every transaction commutes with `inline` (`apply_inline`), and so does every program that asks
the archive nothing else. What a stale index row is bound to never shows: a read finds the
index of a segment that exists, and an insert clears its key first.
-/

namespace Dendro

/-- The layout that keeps an index beside its segment, wherever it is kept. -/
def IndexLayout.inline : IndexLayout → IndexLayout
  | .table => .column
  | .column => .column
  | .absent => .absent

namespace Archive

variable (a : Archive)

/-- The index a read returns with the segment at a key. -/
def indexAt (key : StreamKey ×ₗ Nat) (s : SegmentCols) : Option Bytes :=
  a.segmentIndex (ofLex key).1 (ofLex key).2 s

/-- The archive with every index in its segment's row. -/
def inline : Archive :=
  { a with
    layout := a.layout.inline
    segments := a.segments.map fun key s => { s with caller_index := a.indexAt key s }
    segment_indexes := ∅ }

variable {a : Archive}

theorem get?_inline (key : StreamKey ×ₗ Nat) : a.inline.segments.get? key =
    (a.segments.get? key).map fun s => { s with caller_index := a.indexAt key s } :=
  OrdMap.get?_map _ _ _

/-- The catalog differs in the indexes alone. -/
theorem catalog_inline (k : StreamKey) : a.inline.catalog k =
    (a.catalog k).map fun seq s => { s with caller_index := a.segmentIndex k seq s } :=
  OrdMap.group_map _ _ _

/-- Two archives have one form when they agree on everything else and on the indexes read. -/
theorem inline_congr {b : Archive} (hlayout : a.layout.inline = b.layout.inline)
    (hsources : a.sources = b.sources) (hwal : a.wal = b.wal)
    (hclock : a.clock_offsets = b.clock_offsets) (hcaller : a.caller_rows = b.caller_rows)
    (hsegments : a.inline.segments = b.inline.segments) : a.inline = b.inline := by
  obtain ⟨layout, sources, segments, indexes, wal, clock_offsets, caller_rows⟩ := a
  obtain ⟨layout', sources', segments', indexes', wal', clock_offsets', caller_rows'⟩ := b
  subst hsources hwal hclock hcaller
  unfold inline at hsegments ⊢
  dsimp only at hsegments hlayout ⊢
  rw [hsegments, hlayout]

/-- The catalog of the form is what a read lists. -/
theorem catalog_inline_entries (k : StreamKey) : (a.inline.catalog k).entries =
    (a.readSegments (ofLex k).1 (ofLex k).2).map fun s =>
      (s.seq, { seg_meta := s.seg_meta, bytes := s.bytes, caller_index := s.caller_index }) := by
  rw [catalog_inline, OrdMap.entries_map, readSegments, List.map_map]
  rfl

/-! ## Reads -/

section Reads

variable (k : StreamKey) (source_id : Int) (stream : String)

/-- The catalog facts of a stream's segments, in `seq` order. -/
theorem catalog_values_inline {β : Type} (f : SegmentCols → β)
    (hf : ∀ s i, f { s with caller_index := i } = f s) :
    (a.inline.catalog k).values.map f = (a.catalog k).values.map f := by
  rw [catalog_inline, OrdMap.values, OrdMap.values, OrdMap.entries_map, List.map_map, List.map_map,
    List.map_map]
  exact List.map_congr_left fun e _ => hf _ _

@[simp] theorem watermark_inline : a.inline.watermark k = a.watermark k := by
  rw [watermark, watermark, catalog_values_inline k _ fun _ _ => rfl]

@[simp] theorem isLive_inline (ts : Int64) : a.inline.isLive k ts = a.isLive k ts := by
  rw [isLive, isLive, watermark_inline]

theorem live_inline : a.inline.live k = a.live k := by
  have hlive : ∀ ts, a.inline.isLive k ts = a.isLive k ts := fun ts => isLive_inline k ts
  unfold live
  simp only [hlive]
  rfl

theorem liveWal_inline : a.inline.liveWal source_id stream = a.liveWal source_id stream := by
  rw [liveWal, liveWal, live_inline]

theorem readSegments_inline (hlayout : a.layout ≠ .absent) :
    a.inline.readSegments source_id stream = a.readSegments source_id stream := by
  have hcolumn : a.inline.layout = .column := by
    unfold inline
    cases h : a.layout
    · rfl
    · rfl
    · exact absurd h hlayout
  unfold readSegments
  dsimp only
  rw [catalog_inline, OrdMap.entries_map, List.map_map]
  refine List.map_congr_left fun e _ => ?_
  -- the column of the row is the index that was read into it
  have hindex : ∀ s, a.inline.segmentIndex (streamKey source_id stream) e.1 s = s.caller_index := by
    intro s
    rw [segmentIndex, hcolumn]
  rw [Function.comp_apply, hindex]

theorem readSegmentMeta_inline :
    a.inline.readSegmentMeta source_id stream = a.readSegmentMeta source_id stream := by
  rw [readSegmentMeta, readSegmentMeta, catalog_inline, OrdMap.entries_map, List.map_map]
  rfl

theorem readSegmentBytes_inline (seq : Nat) : a.inline.readSegmentBytes source_id stream seq =
    a.readSegmentBytes source_id stream seq := by
  rw [readSegmentBytes, readSegmentBytes, catalog_inline, OrdMap.get?_map, Option.map_map]
  rfl

theorem segments_keys_inline : a.inline.segments.keys = a.segments.keys := OrdMap.keys_map _ _

theorem allStreams_inline : a.inline.allStreams source_id = a.allStreams source_id := by
  rw [allStreams, allStreams, segmentStreams, segmentStreams, segments_keys_inline]
  rfl

theorem oldestRow_inline : a.inline.oldestRow source_id stream = a.oldestRow source_id stream := by
  unfold oldestRow
  dsimp only
  rw [catalog_values_inline _ _ fun _ _ => rfl]
  rfl

theorem oldestRowOfSource_inline :
    a.inline.oldestRowOfSource source_id = a.oldestRowOfSource source_id := by
  have hsegs : ((a.inline.segments.entries.filter fun e =>
      (ofLex (ofLex e.1).1).1 = source_id).map fun e => e.2.seg_meta.first_ts) =
      (a.segments.entries.filter fun e => (ofLex (ofLex e.1).1).1 = source_id).map
        fun e => e.2.seg_meta.first_ts := by
    unfold inline
    rw [OrdMap.entries_map, List.filter_map, List.map_map]
    rfl
  unfold oldestRowOfSource
  dsimp only
  rw [hsegs]
  rfl

end Reads

/-! ## Statements -/

section Statements

variable {source_id : Int} {stream : String} {seq : Nat}

@[simp] theorem checkSource_inline (context : String) :
    a.inline.checkSource context source_id = a.checkSource context source_id := rfl

/-- The index table after an insert binds the new key to the new index, and the rest as
before. -/
theorem get?_indexes_insert (indexes : OrdMap (StreamKey ×ₗ Nat) Bytes) (key key' : StreamKey ×ₗ Nat)
    (caller_index : Option Bytes) :
    (match caller_index with
      | some index => (indexes.erase key).insert key index
      | none => indexes.erase key).get? key' =
        if key' = key then caller_index else indexes.get? key' := by
  cases caller_index with
  | none => exact OrdMap.get?_erase _ _ _
  | some index =>
      dsimp only
      rw [OrdMap.get?_insert, OrdMap.get?_erase]
      split <;> rfl

/-- What an insert leaves stands for the row with its index. -/
theorem inline_insert (key : StreamKey ×ₗ Nat) (cols : SegmentCols)
    (caller_index : Option Bytes) (indexes : OrdMap (StreamKey ×ₗ Nat) Bytes)
    (hkey : ({ a with segment_indexes := indexes } : Archive).indexAt key cols = caller_index)
    (hrest : ∀ key', key' ≠ key → indexes.get? key' = a.segment_indexes.get? key') :
    ({ a with segments := a.segments.insert key cols, segment_indexes := indexes } : Archive).inline =
      { a.inline with segments := a.inline.segments.insert key { cols with caller_index } } := by
  refine congrArg (fun s => ({ a.inline with segments := s } : Archive)) (OrdMap.ext_get? fun key' => ?_)
  rw [OrdMap.get?_map, OrdMap.get?_insert, OrdMap.get?_insert]
  by_cases h : key' = key
  · subst h
    rw [if_pos rfl, if_pos rfl, Option.map_some, ← hkey]
    rfl
  · rw [if_neg h, if_neg h, get?_inline]
    refine congrArg (fun f => (a.segments.get? key').map f) (funext fun s => ?_)
    have hindex : ({ a with segments := a.segments.insert key cols, segment_indexes := indexes } :
        Archive).indexAt key' s = a.indexAt key' s := by
      unfold indexAt segmentIndex
      dsimp only
      cases a.layout with
      | table => exact hrest key' h
      | column => rfl
      | absent => rfl
    rw [hindex]

/-- **An insert commutes.** In the table layout the row at the new key is the one index the
segment can be read with: whatever was there is cleared. -/
theorem insertSegment_inline (seg_meta : SegmentMeta) (bytes : Bytes)
    (caller_index : Option Bytes) :
    a.inline.insertSegment source_id stream seq seg_meta bytes caller_index =
      (a.insertSegment source_id stream seq seg_meta bytes caller_index).map inline := by
  have hsome : (a.inline.segments.get? (toLex (streamKey source_id stream, seq))).isSome =
      (a.segments.get? (toLex (streamKey source_id stream, seq))).isSome := by
    rw [get?_inline, Option.isSome_map]
  unfold insertSegment
  dsimp only
  rw [hsome]
  split
  · rfl
  · rw [checkSource_inline]
    rcases a.checkSource _ source_id with e | u
    · rfl
    · obtain ⟨layout, sources, segments, indexes, wal, clock_offsets, caller_rows⟩ := a
      cases layout with
      | column =>
          exact congrArg Except.ok (@inline_insert
            ⟨.column, sources, segments, indexes, wal, clock_offsets, caller_rows⟩ _
            { seg_meta, bytes, caller_index } caller_index indexes rfl fun _ _ => rfl).symm
      | absent =>
          exact congrArg Except.ok (@inline_insert
            ⟨.absent, sources, segments, indexes, wal, clock_offsets, caller_rows⟩ _
            { seg_meta, bytes, caller_index := none } none indexes rfl fun _ _ => rfl).symm
      | table =>
          have hget := get?_indexes_insert indexes (toLex (streamKey source_id stream, seq))
          refine congrArg Except.ok (@inline_insert
            ⟨.table, sources, segments, indexes, wal, clock_offsets, caller_rows⟩ _
            { seg_meta, bytes, caller_index := none } caller_index _ ?_ fun key' hne => ?_).symm
          · exact (hget _ caller_index).trans (if_pos rfl)
          · exact (hget key' caller_index).trans (if_neg hne)

/-- **A delete commutes.** The cascade takes the index rows of the segments that go. -/
theorem deleteSegments_inline {p : StreamKey ×ₗ Nat → SegmentCols → Bool}
    (hp : ∀ key s i, p key { s with caller_index := i } = p key s) :
    a.inline.deleteSegments p = (a.deleteSegments p).inline := by
  have hsegments : (a.inline.segments.filter fun key s => !p key s) =
      (a.segments.filter fun key s => !p key s).map
        fun key s => { s with caller_index := (a.deleteSegments p).indexAt key s } := by
    refine (OrdMap.filter_map (fun key s => !p key s)
      (fun key s => { s with caller_index := a.indexAt key s }) a.segments).trans ?_
    simp only [hp]
    refine OrdMap.map_congr fun key s hs => ?_
    obtain ⟨hs, hkept⟩ := OrdMap.get?_filter_eq_some.mp hs
    have hindex : (a.deleteSegments p).indexAt key s = a.indexAt key s := by
      unfold indexAt segmentIndex deleteSegments
      dsimp only
      cases a.layout with
      | column => rfl
      | absent => rfl
      | table =>
          -- the segment is there and stays, so its index row does
          refine Option.ext fun index => (OrdMap.get?_filter_eq_some (m := a.segment_indexes)).trans
            ⟨And.left, fun h => ⟨h, ?_⟩⟩
          have hkey : a.segments.get? (toLex ((ofLex key).1, (ofLex key).2)) = some s := hs
          rw [hkey]
          exact hkept
    rw [hindex]
  exact congrArg (fun s => ({ a.inline with segments := s } : Archive)) hsegments

theorem deleteSegment_inline :
    a.inline.deleteSegment source_id stream seq = (a.deleteSegment source_id stream seq).inline :=
  deleteSegments_inline fun _ _ _ => rfl

theorem foldl_inline {β : Type} {f : Archive → β → Archive}
    (h : ∀ a b, f a.inline b = (f a b).inline) : ∀ (bs : List β) (a : Archive),
      bs.foldl f a.inline = (bs.foldl f a).inline
  | [], _ => rfl
  | b :: bs, a => by
      rw [List.foldl_cons, List.foldl_cons, h]
      exact foldl_inline h bs _

theorem foldlM_inline {β : Type} {f : Archive → β → Except Error Archive}
    (h : ∀ a b, f a.inline b = (f a b).map inline) : ∀ (bs : List β) (a : Archive),
      bs.foldlM f a.inline = (bs.foldlM f a).map inline
  | [], _ => rfl
  | b :: bs, a => by
      rw [List.foldlM_cons, List.foldlM_cons, h]
      rcases f a b with e | a'
      · rfl
      · exact foldlM_inline h bs a'

theorem insertWalRow_inline (r : WalRow) :
    insertWalRow source_id a.inline r = (insertWalRow source_id a r).map inline := by
  have hwal : a.inline.wal = a.wal := rfl
  unfold insertWalRow
  dsimp only
  rw [hwal, checkSource_inline]
  split
  · rfl
  · rcases a.checkSource _ source_id with e | u <;> rfl

theorem insertWalRows_inline (a : Archive) (rows : List WalRow) :
    insertWalRows source_id rows a.inline = (insertWalRows source_id rows a).map inline :=
  foldlM_inline (fun _ _ => insertWalRow_inline _) rows a

theorem insertWalRowsBatch_inline (ticks : List (Int × List WalRow)) :
    a.inline.insertWalRowsBatch ticks = (a.insertWalRowsBatch ticks).map inline :=
  foldlM_inline (fun a t => insertWalRows_inline a t.2) ticks a

theorem insertEncoded_inline (e : Encoded) :
    insertEncoded source_id a.inline e = (insertEncoded source_id a e).map inline :=
  insertSegment_inline _ _ _

theorem insertClockOffset_inline (ts offset_ns : Int64) :
    a.inline.insertClockOffset source_id ts offset_ns =
      (a.insertClockOffset source_id ts offset_ns).map inline := by
  have hclock : a.inline.clock_offsets = a.clock_offsets := rfl
  unfold insertClockOffset
  dsimp only
  rw [hclock, checkSource_inline]
  split
  · rfl
  · rcases a.checkSource _ source_id with e | u <;> rfl

theorem insertCallerRows_inline (rows : List CallerRow) :
    a.inline.insertCallerRows source_id stream rows =
      (a.insertCallerRows source_id stream rows).map inline := by
  unfold insertCallerRows
  rw [checkSource_inline]
  split
  · rcases a.checkSource _ source_id with e | u <;> rfl
  · rfl

theorem updateSource_inline (f : SourceCols → SourceCols) :
    a.inline.updateSource source_id f = (a.updateSource source_id f).inline := by
  have hsources : a.inline.sources = a.sources := rfl
  unfold updateSource
  rw [hsources]
  cases a.sources.get? source_id <;> rfl

theorem updateSourceOrFail_inline (f : SourceCols → SourceCols) :
    a.inline.updateSourceOrFail source_id f = (a.updateSourceOrFail source_id f).map inline := by
  have hsources : a.inline.sources = a.sources := rfl
  unfold updateSourceOrFail
  rw [hsources, updateSource_inline]
  split <;> rfl

theorem beat_inline (source_ids : List Int) : a.inline.beat source_ids = (a.beat source_ids).inline :=
  foldl_inline (fun _ _ => updateSource_inline _) source_ids a

theorem evictCallerRows_inline (cutoff_ts : Int64) (floor : Option CallerRowFloor) (stream : String) :
    evictCallerRows source_id cutoff_ts floor a.inline stream =
      (evictCallerRows source_id cutoff_ts floor a stream).inline := by
  have hcut : a.inline.callerRowCut source_id stream cutoff_ts floor =
      a.callerRowCut source_id stream cutoff_ts floor := by
    unfold callerRowCut
    rw [oldestRow_inline]
  unfold evictCallerRows
  rw [hcut]
  rfl

theorem evictStream_inline (cutoff_ts : Int64) (stream : String) :
    evictStream source_id cutoff_ts a.inline stream = (evictStream source_id cutoff_ts a stream).inline := by
  unfold evictStream
  dsimp only
  rw [deleteSegments_inline fun _ _ _ => rfl]
  rfl

theorem evict_inline (cutoff_ts : Int64) (floor : Option CallerRowFloor) (names : List String) :
    a.inline.evict source_id cutoff_ts floor names = (a.evict source_id cutoff_ts floor names).inline := by
  have hcut : ((a.inline.deleteSegments fun key s =>
      (ofLex (ofLex key).1).1 = source_id && s.seg_meta.last_ts < cutoff_ts).deleteWal
        fun key ts => (ofLex key).1 = source_id && ts < cutoff_ts).evictClockOffsets source_id
          cutoff_ts = (((a.deleteSegments fun key s =>
      (ofLex (ofLex key).1).1 = source_id && s.seg_meta.last_ts < cutoff_ts).deleteWal
        fun key ts => (ofLex key).1 = source_id && ts < cutoff_ts).evictClockOffsets source_id
          cutoff_ts).inline := by
    rw [deleteSegments_inline fun _ _ _ => rfl]
    rfl
  unfold evict
  dsimp only
  rw [hcut]
  cases floor with
  | none => rfl
  | some cut => exact foldl_inline (fun _ _ => evictCallerRows_inline _ _ _) names _

theorem evictStreams_inline (cutoff_ts : Int64) (floor : Option CallerRowFloor)
    (streams : List String) : a.inline.evictStreams source_id cutoff_ts floor streams =
      (a.evictStreams source_id cutoff_ts floor streams).inline := by
  have hturn : ∀ (a : Archive) (stream : String),
      evictCallerRows source_id cutoff_ts floor (evictStream source_id cutoff_ts a.inline stream) stream =
        (evictCallerRows source_id cutoff_ts floor (evictStream source_id cutoff_ts a stream)
          stream).inline := by
    intro a stream
    rw [evictStream_inline, evictCallerRows_inline]
  unfold evictStreams
  dsimp only
  rw [foldl_inline hturn, oldestRowOfSource_inline]
  rfl

end Statements

end Archive

/-! ## Transactions -/

theorem Except.map_bind_inline {α : Type} {x : Except Error α} {f : α → Except Error Archive} :
    (x >>= f).map Archive.inline = x >>= fun a => (f a).map Archive.inline := by
  cases x <;> rfl

/-- **Every transaction commutes.** -/
theorem Write.apply_inline (a : Archive) (w : Write) :
    w.apply a.inline = (w.apply a).map Archive.inline := by
  cases w with
  | walRows ticks => exact Archive.insertWalRowsBatch_inline ticks
  | «seal» source_id batch encoded observation =>
      simp only [Write.apply]
      rw [Archive.foldlM_inline fun _ _ => Archive.insertEncoded_inline _, Except.map_bind_inline]
      rcases encoded.foldlM (Archive.insertEncoded source_id) a with e | a'
      · rfl
      · cases observation with
        | none => rfl
        | some o => exact Archive.insertClockOffset_inline _ _
  | adopt source_id s seq => exact Archive.insertSegment_inline _ _ _
  | pruneWal source_id stream upto_ts => rfl
  | evict source_id cutoff_ts floor names =>
      exact congrArg Except.ok (Archive.evict_inline cutoff_ts floor names)
  | evictStreams source_id cutoff_ts floor streams =>
      exact congrArg Except.ok (Archive.evictStreams_inline cutoff_ts floor streams)
  | clockOffset source_id ts offset_ns => exact Archive.insertClockOffset_inline _ _
  | callerRows source_id stream rows => exact Archive.insertCallerRows_inline _
  | insertSource seed uuid => rfl
  | updateMetadata source_id metadata => exact Archive.updateSourceOrFail_inline _
  | setIdentity source_id labels metadata => exact Archive.updateSourceOrFail_inline _
  | markIncomplete source_id => exact Archive.updateSourceOrFail_inline _
  | finalize source_id ts offset_ns =>
      simp only [Write.apply]
      rw [Archive.insertClockOffset_inline]
      rcases a.insertClockOffset source_id ts offset_ns with e | a'
      · rfl
      · exact congrArg Except.ok (Archive.updateSource_inline _)
  | startHeartbeat source_id interval_ns =>
      refine congrArg Except.ok ?_
      rw [Archive.setHeartbeatInterval, Archive.updateSource_inline, Archive.beat_inline]
      rfl
  | beat source_ids => exact congrArg Except.ok (Archive.beat_inline _)
  | merge source_id stream run seq seg_meta bytes =>
      simp only [Write.apply]
      rw [Archive.foldl_inline fun _ _ => Archive.deleteSegment_inline]
      exact Archive.insertSegment_inline _ _ _

/-! ## Files -/

/-- The file whose archives, now and in its history, are in the column layout. -/
def Disk.inline (d : Disk) : Disk where
  db := d.db.inline
  log := d.log.map fun e => (e.1.inline, e.2)
  refused := d.refused.map fun r => { r with db := r.db.inline }

theorem Disk.run_inline (d : Disk) (w : Write) :
    d.inline.run w = ((d.run w).1, (d.run w).2.inline) := by
  unfold Disk.run
  have happly : w.apply d.inline.db = (w.apply d.db).map Archive.inline := w.apply_inline d.db
  rw [happly]
  rcases w.apply d.db with e | db
  · simp [Except.map, Disk.inline]
  · simp [Except.map, Disk.inline]

end Dendro
