import Dendro.Rewrite.CompactProof

/-!
# Compaction, as a reader sees it

A pass that returned leaves every row a reader had: the decoded segments in order, the
watermark and the live tail of the stream, and everything that is not this stream's catalog
(`compactStreamWith_reads_alike`).
-/

namespace Dendro

open Archive Spans

section

variable {Props Writer Run : Type} {pq : Parquet Props Writer}

/-- The rows decoded from a stream's segments, in `seq` order. -/
def Archive.decodedRows (pq : Parquet Props Writer) (a : Archive) (source_id : Int)
    (stream : String) : List NamedRow :=
  (a.readSegments source_id stream).flatMap fun s => decodeRows pq s.bytes

/-- A stored segment that is the merge of adjacent old ones. -/
structure MergedFrom (run : List SegmentRow) (s : SegmentRow) : Prop where
  two : 2 ≤ run.length
  seq : run.head?.map (·.seq) = some s.seq
  first_ts : run.head?.map (·.seg_meta.first_ts) = some s.seg_meta.first_ts
  last_ts : run.getLast?.map (·.seg_meta.last_ts) = some s.seg_meta.last_ts
  rows : s.seg_meta.rows.toNat = (run.map fun r => r.seg_meta.rows.toNat).sum
  index : s.caller_index = none

/-- What a pass over a stream that returned `done` leaves of the file `d`. -/
structure ReadsAlike (pq : Parquet Props Writer) (policy : SchemaPolicy) (source_id : Int)
    (stream : String) (d : Disk) (done : Compacted) (d' : Disk) : Prop where
  decoded : List.Forall₂ (RowKept policy) (d.db.decodedRows pq source_id stream)
    (d'.db.decodedRows pq source_id stream)
  watermark : d'.db.watermark (streamKey source_id stream) =
    d.db.watermark (streamKey source_id stream)
  liveWal : d'.db.liveWal source_id stream = d.db.liveWal source_id stream
  others : ∀ source_id' stream', streamKey source_id' stream' ≠ streamKey source_id stream →
    d'.db.readSegments source_id' stream' = d.db.readSegments source_id' stream' ∧
      d'.db.liveWal source_id' stream' = d.db.liveWal source_id' stream'
  /-- The caller's rows, the clock offsets and the other tables. -/
  beside : d'.db = { d.db with
    segments := d'.db.segments, segment_indexes := d'.db.segment_indexes }
  stored : ∀ s ∈ d'.db.readSegments source_id stream, s ∈ d.db.readSegments source_id stream ∨
    ∃ run, run <:+: d.db.readSegments source_id stream ∧ MergedFrom run s
  before : done.before = (d.db.readSegments source_id stream).length
  after : done.after = (d'.db.readSegments source_id stream).length
  /-- Each merge is one transaction, and there is no other. -/
  merges : ∃ merges, d'.log = d.log ++ merges ∧ merges.length = done.merges ∧
    ∀ e ∈ merges, e.2.isMergeOf source_id stream

/-- A catalog entry as `read_segments` returns it. -/
def Archive.segmentRow (a : Archive) (k : StreamKey) (e : Nat × SegmentCols) : SegmentRow :=
  { seq := e.1, seg_meta := e.2.seg_meta, bytes := e.2.bytes,
    caller_index := a.segmentIndex k e.1 e.2 }

variable {source_id : Int} {stream : String}

theorem readSegments_eq (a : Archive) : a.readSegments source_id stream =
    (a.catalog (streamKey source_id stream)).entries.map
      (a.segmentRow (streamKey source_id stream)) := rfl

theorem decodedRows_eq (a : Archive) : a.decodedRows pq source_id stream =
    (a.catalog (streamKey source_id stream)).entries.flatMap
      fun e => decodeRows pq e.2.bytes := by
  rw [Archive.decodedRows, readSegments_eq, List.flatMap_map]
  rfl

theorem rowSum_eq (a : Archive) (es : List (Nat × SegmentCols)) (k : StreamKey) :
    rowSum es = ((es.map (a.segmentRow k)).map fun s => s.seg_meta.rows.toNat).sum := by
  rw [rowSum, List.map_map]
  rfl

theorem laidOut_of_layout {a : Archive} {k : StreamKey} (h : Layout (a.runs k)) :
    LaidOut (a.catalog k).entries :=
  ⟨fun e he => h.laid.span e.2 (List.mem_map.mpr ⟨e, he, rfl⟩),
    List.pairwise_map.mp h.laid.ordered⟩

theorem watermark_entries (a : Archive) (k : StreamKey) :
    a.watermark k = newest (fun e : Nat × SegmentCols => e.2.last) (a.catalog k).entries := by
  rw [watermark_eq, newest, newest, runs, OrdMap.values, List.map_map]
  rfl

theorem rowSum_le_of_sub {run es : List (Nat × SegmentCols)} (h : run <:+: es) :
    rowSum run ≤ rowSum es := by
  obtain ⟨before, after, rfl⟩ := h
  rw [rowSum_append, rowSum_append]
  omega

/-- A merge is one as `read_segments` returns it. -/
theorem MergeOf.mergedFrom {policy : SchemaPolicy} {run : List (Nat × SegmentCols)}
    {m : Nat × SegmentCols} (h : MergeOf pq policy run m) (hsum : rowSum run < 2 ^ 64)
    (a a' : Archive) {k : StreamKey} (hindex : a'.segmentIndex k m.1 m.2 = none) :
    MergedFrom (run.map (a.segmentRow k)) (a'.segmentRow k m) where
  two := by rw [List.length_map]; exact h.two
  seq := by rw [List.head?_map, Option.map_map]; exact h.seq
  first_ts := by rw [List.head?_map, Option.map_map]; exact h.first_ts
  last_ts := by rw [List.getLast?_map, Option.map_map]; exact h.last_ts
  rows := (h.toNat_rows hsum).trans (rowSum_eq a run k)
  index := hindex

/-- **Compaction preserves reading.** A pass that returned, whatever the spec, the policy
and the metadata merge, leaves a laid-out stream with the rows it had. -/
theorem compactStreamWith_reads_alike (hpq : pq.RoundTrips) (spec : CompactSpec Props)
    (merge : MetadataMerge Run) (d : Disk) (faults : List (Fault StorageFailure))
    (hlayout : Layout (d.db.runs (streamKey source_id stream)))
    (hsum : ((d.db.readSegments source_id stream).map fun s => s.seg_meta.rows.toNat).sum < 2 ^ 63)
    (hnd : ∀ s ∈ d.db.readSegments source_id stream, DistinctColumns pq s.bytes)
    {done : Compacted}
    (h : (compactStreamWith pq source_id stream spec merge d faults).1 = .ok done) :
    ReadsAlike pq spec.schema source_id stream d done
      (compactStreamWith pq source_id stream spec merge d faults).2.1 := by
  have hruns : Prog.Meets _ d _ _ (compactStreamWith pq source_id stream spec merge d faults) :=
    runs_compactStreamWith d faults
  rcases hr : compactStreamWith pq source_id stream spec merge d faults with ⟨out, d', rest⟩
  rw [hr] at h hruns
  obtain rfl : out = .ok done := h
  obtain ⟨-, hpass⟩ := hruns
  obtain ⟨front, hcat, hmerges, hafter⟩ := hpass.front
  rw [List.drop_length, List.append_nil] at hcat
  rw [List.take_length, ← hcat] at hmerges
  rw [readSegments_eq, ← rowSum_eq] at hsum
  have hlaid := laidOut_of_layout hlayout
  have hw : d'.db.watermark (streamKey source_id stream) =
      d.db.watermark (streamKey source_id stream) := by
    rw [watermark_entries, watermark_entries, hmerges.newest_eq hlaid]
  have hnd' : ∀ e ∈ (d.db.catalog (streamKey source_id stream)).entries,
      DistinctColumns pq e.2.bytes := fun e he =>
    hnd (d.db.segmentRow _ e) (List.mem_map.mpr ⟨e, he, rfl⟩)
  refine
    { decoded := ?_
      watermark := hw
      liveWal := hpass.only.liveWal hw
      others := fun source_id' stream' hk => ⟨hpass.only.readSegments hk, ?_⟩
      beside := hpass.only.frame
      stored := fun s hs => ?_
      before := ?_
      after := ?_
      merges := hpass.log }
  · rw [decodedRows_eq, decodedRows_eq]
    exact hmerges.decoded hpq hnd'
  · refine hpass.only.liveWal ?_
    rw [watermark_eq, watermark_eq, runs, runs, hpass.only.catalog _ hk]
  · obtain ⟨e, he, rfl⟩ := List.mem_map.mp hs
    rcases hpass.stored e he with ⟨hmem, hindex⟩ | ⟨run, hrun, hm, hindex⟩
    · refine .inl (List.mem_map.mpr ⟨e, hmem, ?_⟩)
      simp only [hindex]
    · refine .inr ⟨run.map (d.db.segmentRow _), hrun.map _, hm.mergedFrom ?_ _ _ hindex⟩
      have := rowSum_le_of_sub hrun
      omega
  · rw [readSegments_eq, List.length_map]
    exact hpass.before
  · rw [readSegments_eq, List.length_map, hcat, hafter]
    omega

end

/-! ## Two segments of one row -/

/-- The one column of the example. -/
def valueSchema : Schema where
  fields := [{ name := "v", data_type := "Int64", nullable := false, metadata := ∅ }]
  metadata := ∅

def byteRow (b : UInt8) : Row := [.value [b]]

def rowByte : Row → Except String UInt8
  | [.value [b]] => .ok b
  | _ => .error "not one byte"

/-- A library for files of one column whose cells hold one byte: a file is its cells. -/
def byteParquet : Parquet Unit Bytes where
  writer_props := ()
  key_value_metadata _ := none
  set_key_value_metadata props _ := props
  openFile bytes := .ok
    { schema := valueSchema, key_value := none, num_rows := Int64.ofNat bytes.length
      batches := .ok [.ok (bytes.map byteRow)] }
  record_batch _ rows := .ok rows
  try_new schema _ := if schema = valueSchema then .ok [] else .error "not this schema"
  write w batch := do return w ++ (← batch.mapM rowByte)
  close := .ok

/-- A batch that is written adds its cells. -/
theorem byteParquet_write {w w' : Bytes} {batch : List Row}
    (h : byteParquet.write w batch = .ok w') :
    ∃ bytes, w' = w ++ bytes ∧ batch = bytes.map byteRow := by
  simp only [byteParquet, Except.bind_eq_ok, Except.pure_eq_ok] at h
  obtain ⟨bytes, hbytes, rfl⟩ := h
  refine ⟨bytes, rfl, ?_⟩
  induction batch generalizing bytes with
  | nil => obtain rfl := Except.ok.inj hbytes; rfl
  | cons row batch ih =>
      simp only [List.mapM_cons, Except.bind_eq_ok, Except.pure_eq_ok] at hbytes
      obtain ⟨b, hrow, rest, hrest, rfl⟩ := hbytes
      rw [List.map_cons, ← ih rest hrest]
      unfold rowByte at hrow
      split at hrow
      · obtain rfl := Except.ok.inj hrow
        rfl
      · exact absurd hrow (by simp)

theorem byteParquet_writes : ∀ {batches : List (List Row)} {w w' : Bytes},
    batches.foldlM byteParquet.write w = .ok w' →
      ∃ bytes, w' = w ++ bytes ∧ batches.flatten = bytes.map byteRow
  | [], w, w', h => ⟨[], by simpa using (Except.ok.inj h).symm, rfl⟩
  | batch :: batches, w, w', h => by
      obtain ⟨w₁, hw₁, h⟩ := Except.foldlM_cons_eq_ok.mp h
      obtain ⟨bytes, rfl, hbatch⟩ := byteParquet_write hw₁
      obtain ⟨rest, rfl, hrest⟩ := byteParquet_writes h
      exact ⟨bytes ++ rest, by simp, by simp [hbatch, hrest]⟩

theorem byteParquet_roundTrips : byteParquet.RoundTrips where
  batch _ _ _ h := (Except.ok.inj h).symm
  written := by
    intro schema props w w' batches bytes hnew hwrite hclose
    obtain rfl := Except.ok.inj hclose
    obtain ⟨bytes, rfl, hflat⟩ := byteParquet_writes hwrite
    unfold byteParquet at hnew
    dsimp only at hnew
    split at hnew
    · rename_i hschema
      obtain rfl := Except.ok.inj hnew
      refine ⟨_, rfl, by rw [hschema], ?_⟩
      simp [ParquetFile.rows, Except.toOption, hflat]
    · exact absurd hnew (by simp)

/-- A metadata merge that never stops a run. -/
def anyMetadata : MetadataMerge Unit where
  start _ := some ()
  extend _ _ := (true, ())
  finish _ := []

/-- A file with two segments of one row each. -/
def twoSegments : Disk where
  db :=
    let cols (ts : Int64) (bytes : Bytes) : SegmentCols :=
      { seg_meta := { rows := 1, first_ts := ts, last_ts := ts }, bytes, caller_index := none }
    { Archive.create .table with
      sources := (∅ : OrdMap Int SourceCols).insert 1
        { identity := { labels := ∅, metadata := ∅, clock_anchor_wall_ns := 0 }, uuid := none,
          complete := false, heartbeat := none, heartbeat_interval_ns := none }
      segments := ((∅ : OrdMap (StreamKey ×ₗ Nat) SegmentCols).insert
        (toLex (streamKey 1 "cpu", 0)) (cols 1 [7])).insert
          (toLex (streamKey 1 "cpu", 1)) (cols 2 [8]) }
  log := []
  refused := []

theorem compactStreamWith_reads_alike_twoSegments :
    let spec : CompactSpec Unit := { target_rows := 10, writer_props := none, schema := .stopAtChange }
    ReadsAlike byteParquet .stopAtChange 1 "cpu" twoSegments { before := 2, after := 1, merges := 1 }
      (compactStreamWith byteParquet 1 "cpu" spec anyMetadata twoSegments []).2.1 := by
  intro spec
  refine compactStreamWith_reads_alike byteParquet_roundTrips spec anyMetadata twoSegments []
    ⟨?_, ?_, ?_⟩ (by decide) ?_ ?_
  · decide
  · decide
  · decide
  · intro s _ f hf
    obtain rfl := Except.ok.inj hf
    exact List.nodup_singleton _
  · have hend : ∀ metas done d, metas.length = 2 → compactFrom byteParquet 1 "cpu" spec anyMetadata
        metas 2 done d [] = (.ok done, d, []) := by
      intro metas done d hlen
      rw [compactFrom, if_neg (by omega)]
      rfl
    have hstart : compactStreamWith byteParquet 1 "cpu" spec anyMetadata twoSegments [] =
        compactFrom byteParquet 1 "cpu" spec anyMetadata (twoSegments.db.readSegmentMeta 1 "cpu") 0
          { before := 2, after := 2, merges := 0 } twoSegments [] := rfl
    rw [hstart, compactFrom, if_pos (by decide)]
    exact congrArg Prod.fst (hend _ _ _ rfl)

/-! ## A shelf of files -/

/-- A library whose files are those of a shelf, each named by as many bytes as stand before
it. It writes no file that is not there. -/
def shelfParquet (shelf : List (Schema × List Row)) :
    Parquet (Option (List KeyValue)) (Schema × List Row) where
  writer_props := none
  key_value_metadata props := props
  set_key_value_metadata _ kv := kv
  openFile bytes := match shelf[bytes.length]? with
    | some (schema, rows) => .ok
      { schema, key_value := none, num_rows := Int64.ofNat rows.length
        batches := .ok [.ok rows] }
    | none => .error "no such file"
  record_batch _ rows := .ok rows
  try_new schema props :=
    if props = none then .ok (schema, []) else .error "no room for metadata"
  write w batch := .ok (w.1, w.2 ++ batch)
  close w := match shelf.findIdx? (· = w) with
    | some i => .ok (List.replicate i 0)
    | none => .error "no such file"

/-- What was written opens as it was written. -/
theorem shelfParquet_written {shelf : List (Schema × List Row)} {schema : Schema}
    {props : Option (List KeyValue)} {w w' : Schema × List Row} {batches : List (List Row)}
    {bytes : Bytes} (hnew : (shelfParquet shelf).try_new schema props = .ok w)
    (hwrite : batches.foldlM (shelfParquet shelf).write w = .ok w')
    (hclose : (shelfParquet shelf).close w' = .ok bytes) : props = none ∧
      (shelfParquet shelf).openFile bytes = .ok
        { schema, key_value := none, num_rows := Int64.ofNat batches.flatten.length
          batches := .ok [.ok batches.flatten] } := by
  have hrows : ∀ {batches : List (List Row)} {w w' : Schema × List Row},
      batches.foldlM (shelfParquet shelf).write w = .ok w' →
        w' = (w.1, w.2 ++ batches.flatten) := by
    intro batches
    induction batches with
    | nil => intro w w' h; simpa using (Except.ok.inj h).symm
    | cons batch batches ih =>
        intro w w' h
        obtain ⟨w₁, hw₁, h⟩ := Except.foldlM_cons_eq_ok.mp h
        obtain rfl := Except.ok.inj hw₁
        simpa using ih h
  unfold shelfParquet at hnew hclose ⊢
  dsimp only at hnew hclose ⊢
  split at hnew
  case isFalse => cases hnew
  case isTrue hprops =>
    obtain rfl := Except.ok.inj hnew
    obtain rfl := hrows hwrite
    refine ⟨hprops, ?_⟩
    split at hclose
    case h_2 => cases hclose
    case h_1 i hi =>
      obtain rfl := Except.ok.inj hclose
      obtain ⟨hlt, hfound, -⟩ := List.findIdx?_eq_some_iff_getElem.mp hi
      rw [List.length_replicate, List.getElem?_eq_getElem hlt, of_decide_eq_true hfound]
      rfl

theorem shelfParquet_roundTrips (shelf : List (Schema × List Row)) :
    (shelfParquet shelf).RoundTrips where
  batch _ _ _ h := (Except.ok.inj h).symm
  written _ _ _ _ _ _ hnew hwrite hclose :=
    ⟨_, (shelfParquet_written hnew hwrite hclose).2, rfl, by
      simp [ParquetFile.rows, Except.toOption]⟩

theorem shelfParquet_keepsMetadata (shelf : List (Schema × List Row)) :
    (shelfParquet shelf).KeepsMetadata where
  set _ _ := rfl
  written _ _ _ _ _ _ hnew hwrite hclose := by
    obtain ⟨rfl, hopen⟩ := shelfParquet_written hnew hwrite hclose
    exact ⟨_, hopen, rfl, rfl, fun _ _ => rfl⟩

/-- Two files of one row, and both rows in one. -/
def oneColumnShelf : List (Schema × List Row) :=
  [(valueSchema, [byteRow 7]), (valueSchema, [byteRow 8]), (valueSchema, [byteRow 7, byteRow 8])]

/-- A file with one segment of one row for each of some contents. -/
def shelved (contents : List Bytes) : Disk where
  db := { twoSegments.db with
    segments := contents.zipIdx.foldl (fun segments (bytes, seq) =>
      segments.insert (toLex (streamKey 1 "cpu", seq))
        { seg_meta := { rows := 1, first_ts := Int64.ofNat seq, last_ts := Int64.ofNat seq }
          bytes, caller_index := none }) ∅ }
  log := []
  refused := []

end Dendro
