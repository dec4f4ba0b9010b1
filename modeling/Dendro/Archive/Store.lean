import Dendro.Archive.Types

/-!
# The archive file

The tables of `archive/sqlite.rs` as ordered maps keyed by their primary keys, the reads
the rest of the crate makes, and the statements of a transaction.

A statement is a function `Archive → Except Error Archive`; a transaction is a sequence of
them, so an error anywhere leaves the archive it started from. Labels and metadata are
JSON text in the file and plain string maps here. SQLite reports a primary key before a
foreign key, and so do the statements.

A `seq` is a plain number here. The code has a `u64` that it stores as an `i64`, the same
number below `2^63`: a stream would have to be sealed that often to get past it.
-/

namespace Dendro

/-- A stream is named within its source: `(source_id, stream)`. -/
abbrev StreamKey := Int ×ₗ String

/-- The key of a stream. -/
abbrev streamKey (source_id : Int) (stream : String) : StreamKey := toLex (source_id, stream)

/-- Where an archive keeps the caller's per-segment index. -/
inductive IndexLayout where
  /-- Schema 5: the `segment_indexes` table. -/
  | table
  /-- Schema 4: the `segments.caller_index` column. -/
  | column
  /-- A v4 archive from before the column: it holds no indexes. -/
  | absent
  deriving DecidableEq, Repr

/-- The identity a source was started with. -/
structure SourceMeta where
  labels : StringMap
  metadata : StringMap
  clock_anchor_wall_ns : Int64
  deriving DecidableEq

/-- The columns of a `sources` row after its id. -/
structure SourceCols where
  identity : SourceMeta
  uuid : Option String
  complete : Bool
  heartbeat : Option Int64
  heartbeat_interval_ns : Option Int64
  deriving DecidableEq

/-- A row of the `sources` table, as `read_sources` returns it. -/
structure SourceRow extends SourceCols where
  id : Int
  deriving DecidableEq

/-- The columns of a `segments` row after its key. -/
structure SegmentCols where
  seg_meta : SegmentMeta
  bytes : Bytes
  /-- The schema 4 column. -/
  caller_index : Option Bytes
  deriving DecidableEq

/-- A row of the `segments` table for one stream, as `read_segments` returns it. -/
structure SegmentRow where
  seq : Nat
  seg_meta : SegmentMeta
  bytes : Bytes
  caller_index : Option Bytes
  deriving DecidableEq

/-- The columns of a `wal` row after its key. -/
structure WalCols where
  wall_offset : Int64
  row : Bytes
  deriving DecidableEq

/-- A row of the caller's time-keyed store, opaque to dendro. -/
structure CallerRow where
  ts : Int64
  blob : Bytes
  deriving DecidableEq

/-- The file. `caller_rows` has no primary key: its rows are in `rowid` order. -/
structure Archive where
  layout : IndexLayout
  sources : OrdMap Int SourceCols
  segments : OrdMap (StreamKey ×ₗ Nat) SegmentCols
  segment_indexes : OrdMap (StreamKey ×ₗ Nat) Bytes
  wal : OrdMap (StreamKey ×ₗ Int64) WalCols
  clock_offsets : OrdMap (Int ×ₗ Int64) Int64
  caller_rows : List (StreamKey × CallerRow)
  deriving DecidableEq

/-- A freshly created archive. -/
def Archive.create (layout : IndexLayout) : Archive where
  layout
  sources := ∅
  segments := ∅
  segment_indexes := ∅
  wal := ∅
  clock_offsets := ∅
  caller_rows := []

/-! ## Reads -/

namespace Archive

variable (a : Archive)

/-- Every source in the file, in insertion order. -/
def readSources : List SourceRow :=
  a.sources.entries.map fun e => { e.2 with id := e.1 }

def sourceUuid (source_id : Int) : Except Error (Option String) :=
  match a.sources.get? source_id with
  | some s => .ok s.uuid
  | none => .error (.sqlite s!"failed to read the uuid of source {source_id}"
      (.other "Query returned no rows"))

def sourceMetadata (source_id : Int) : Except Error StringMap :=
  match a.sources.get? source_id with
  | some s => .ok s.identity.metadata
  | none => .error (.sqlite s!"failed to read the metadata of source {source_id}"
      (.other "Query returned no rows"))

/-- The catalog of one stream, by `seq`. -/
def catalog (k : StreamKey) : OrdMap Nat SegmentCols := a.segments.group k

/-- The WAL of one stream, by timestamp. -/
def walOf (k : StreamKey) : OrdMap Int64 WalCols := a.wal.group k

/-- The newest sealed row of a stream: `MAX(last_ts)` over its segments. -/
def watermark (k : StreamKey) : Option Int64 :=
  ((a.catalog k).values.map fun s => s.seg_meta.last_ts).max?

/-- The index of a segment, where the layout keeps it. -/
def segmentIndex (k : StreamKey) (seq : Nat) (s : SegmentCols) : Option Bytes :=
  match a.layout with
  | .table => a.segment_indexes.get? (toLex (k, seq))
  | .column => s.caller_index
  | .absent => none

/-- Every segment of a stream, in `seq` order. -/
def readSegments (source_id : Int) (stream : String) : List SegmentRow :=
  let k := streamKey source_id stream
  (a.catalog k).entries.map fun e =>
    { seq := e.1, seg_meta := e.2.seg_meta, bytes := e.2.bytes,
      caller_index := a.segmentIndex k e.1 e.2 }

/-- Every segment index of a stream, in `seq` order, without the payloads. -/
def readSegmentIndexes (source_id : Int) (stream : String) : List (Nat × Option Bytes) :=
  let k := streamKey source_id stream
  (a.catalog k).entries.map fun e => (e.1, a.segmentIndex k e.1 e.2)

/-- The segments of a stream that overlap a window, whole. -/
def segmentsOverlapping (source_id : Int) (stream : String) (start end_ : Int64) :
    List SegmentRow :=
  (a.readSegments source_id stream).filter fun s =>
    start ≤ s.seg_meta.last_ts ∧ s.seg_meta.first_ts ≤ end_

/-- The catalog facts of a stream's segments, in `seq` order. -/
def readSegmentMeta (source_id : Int) (stream : String) : List (Nat × SegmentMeta) :=
  (a.catalog (streamKey source_id stream)).entries.map fun e => (e.1, e.2.seg_meta)

/-- One segment's payload, by `seq`. -/
def readSegmentBytes (source_id : Int) (stream : String) (seq : Nat) : Option Bytes :=
  ((a.catalog (streamKey source_id stream)).get? seq).map (·.bytes)

/-- The recovery rule: a row is live iff its `ts` is past the watermark of the sealed
segments of its own stream in its own source, or there are none. -/
def isLive (k : StreamKey) (ts : Int64) : Bool :=
  match a.watermark k with
  | none => true
  | some w => w < ts

/-- A `wal` row as a reader gets it. -/
def toWalRow (stream : String) (ts : Int64) (c : WalCols) : WalRow :=
  { stream, ts, wall_offset := c.wall_offset, row := c.row }

/-- The live part of a stream's WAL, by timestamp. -/
def live (k : StreamKey) : OrdMap Int64 WalCols := (a.walOf k).filter fun ts _ => a.isLive k ts

/-- Every WAL row of a stream, sealed or not, oldest first. -/
def readWal (source_id : Int) (stream : String) : List WalRow :=
  (a.walOf (streamKey source_id stream)).entries.map fun e => toWalRow stream e.1 e.2

/-- Rows not covered by any sealed segment, oldest first. -/
def liveWal (source_id : Int) (stream : String) : List WalRow :=
  (a.live (streamKey source_id stream)).entries.map fun e => toWalRow stream e.1 e.2

/-- How many rows a table holds and what time span they cover. -/
structure Span where
  rows : Nat
  first_ts : Option Int64
  last_ts : Option Int64
  deriving DecidableEq

def liveWalSpan (source_id : Int) (stream : String) : Span :=
  let ts := (a.live (streamKey source_id stream)).keys
  { rows := ts.length, first_ts := ts.min?, last_ts := ts.max? }

/-- The names among `names`, each once and in order: `SELECT DISTINCT … ORDER BY`. -/
def distinct (names : List String) : List String :=
  (OrdMap.ofList (names.map (·, ()))).keys

/-- The streams a source has segments in, with repetitions. -/
def segmentStreams (source_id : Int) : List String :=
  (a.segments.keys.map fun k => ofLex (ofLex k).1).filterMap fun k =>
    if k.1 = source_id then some k.2 else none

/-- The streams a source has WAL rows in, with repetitions. -/
def walStreams (source_id : Int) : List String :=
  (a.wal.keys.map fun k => ofLex (ofLex k).1).filterMap fun k =>
    if k.1 = source_id then some k.2 else none

/-- Every distinct stream this source currently holds, alphabetically. -/
def allStreams (source_id : Int) : List String :=
  distinct (a.segmentStreams source_id ++ a.walStreams source_id)

/-- Every stream name the caller's store holds rows under, alphabetically. -/
def callerRowStreams (source_id : Int) : List String :=
  distinct (a.caller_rows.filterMap fun e =>
    if (ofLex e.1).1 = source_id then some (ofLex e.1).2 else none)

/-- The source's clock observations, oldest first. -/
def readClockOffsets (source_id : Int) : List (Int64 × Int64) :=
  (a.clock_offsets.group source_id).entries

/-- The caller's rows of one name within `[start, end_]`, oldest first and in insertion
order within a timestamp. -/
def readCallerRows (source_id : Int) (stream : String) (start end_ : Int64) : List CallerRow :=
  ((a.caller_rows.filter fun e =>
      e.1 = streamKey source_id stream ∧ start ≤ e.2.ts ∧ e.2.ts ≤ end_).map
    Prod.snd).insertionSort fun r s => r.ts ≤ s.ts

/-- The streams that have a segment. -/
def sealedStreams : List StreamKey :=
  (OrdMap.ofList (a.segments.keys.map fun k => ((ofLex k).1, ()))).keys

/-- The newest sealed row of every stream. -/
def sealedWatermarks : OrdMap StreamKey Int64 :=
  OrdMap.ofList (a.sealedStreams.filterMap fun k => (a.watermark k).map (k, ·))

/-- The next `seq` of every stream that has sealed at least once: `MAX(seq) + 1`. -/
def nextSeqs : OrdMap StreamKey Nat :=
  OrdMap.ofList (a.sealedStreams.filterMap fun k => (a.catalog k).keys.max?.map (k, · + 1))

/-- The oldest and the newest row a reader sees of a source, over all its streams. -/
def sourceTimeSpan (source_id : Int) : Option Int64 × Option Int64 :=
  let segs := a.segments.entries.filter fun e => (ofLex (ofLex e.1).1).1 = source_id
  let live := (a.wal.keys.filter fun k =>
    (ofLex (ofLex k).1).1 = source_id && a.isLive (ofLex k).1 (ofLex k).2).map fun k =>
      (ofLex k).2
  ((segs.map (fun e => e.2.seg_meta.first_ts) ++ live).min?,
    (segs.map (fun e => e.2.seg_meta.last_ts) ++ live).max?)

end Archive

/-! ## Statements -/

/-- A row with the primary key of `columns` is there already. -/
def uniqueError (context columns : String) : Error :=
  .sqlite context (.sqliteFailure (.constraintViolation .primaryKey)
    s!"UNIQUE constraint failed: {columns}")

/-- The row names a source that is not there. -/
def foreignKeyError (context : String) : Error :=
  .sqlite context (.sqliteFailure (.constraintViolation .foreignKey)
    "FOREIGN KEY constraint failed")

namespace Archive

/-- `REFERENCES sources(id)`. -/
def checkSource (a : Archive) (context : String) (source_id : Int) : Except Error Unit :=
  if (a.sources.get? source_id).isSome then .ok () else .error (foreignKeyError context)

/-- `INSERT INTO sources`: the next id is one past the greatest. -/
def nextSourceId (a : Archive) : Int := (a.sources.keys.max?.getD 0) + 1

def insertSource (seed : SourceMeta) (uuid : String) (a : Archive) : Archive :=
  let cols : SourceCols :=
    { identity := seed, uuid := some uuid, complete := false, heartbeat := none,
      heartbeat_interval_ns := none }
  { a with sources := a.sources.insert a.nextSourceId cols }

/-- `INSERT INTO wal`, one row. -/
def insertWalRow (source_id : Int) (a : Archive) (r : WalRow) : Except Error Archive := do
  let context := s!"failed to insert WAL row for {r.stream}"
  let key := toLex (streamKey source_id r.stream, r.ts)
  if (a.wal.get? key).isSome then
    throw (uniqueError context "wal.source_id, wal.stream, wal.ts")
  a.checkSource context source_id
  return { a with wal := a.wal.insert key { wall_offset := r.wall_offset, row := r.row } }

/-- Insert every WAL row of one source's tick. -/
def insertWalRows (source_id : Int) (rows : List WalRow) (a : Archive) : Except Error Archive :=
  rows.foldlM (insertWalRow source_id) a

/-- One tick's rows for several sources. -/
def insertWalRowsBatch (ticks : List (Int × List WalRow)) (a : Archive) : Except Error Archive :=
  ticks.foldlM (fun a t => insertWalRows t.1 t.2 a) a

/-- `insert_segment_sql`: one segment, and its index where the layout puts it. An index row
already at the key (a leftover of a segment that is gone) is cleared first. -/
def insertSegment (source_id : Int) (stream : String) (seq : Nat) (seg_meta : SegmentMeta)
    (bytes : Bytes) (caller_index : Option Bytes) (a : Archive) : Except Error Archive := do
  let context := s!"failed to insert segment {stream}#{seq}"
  let key := toLex (streamKey source_id stream, seq)
  if (a.segments.get? key).isSome then
    throw (uniqueError context "segments.source_id, segments.stream, segments.seq")
  a.checkSource context source_id
  match a.layout with
  | .column =>
    return { a with segments := a.segments.insert key { seg_meta, bytes, caller_index } }
  | .table =>
    let cleared := a.segment_indexes.erase key
    return { a with
      segments := a.segments.insert key { seg_meta, bytes, caller_index := none }
      segment_indexes := match caller_index with
        | some index => cleared.insert key index
        | none => cleared }
  | .absent =>
    return { a with segments := a.segments.insert key { seg_meta, bytes, caller_index := none } }

/-- `DELETE FROM segments WHERE …`; the foreign key cascades to `segment_indexes`. -/
def deleteSegments (p : StreamKey ×ₗ Nat → SegmentCols → Bool) (a : Archive) : Archive :=
  { a with
    segments := a.segments.filter fun k s => !p k s
    segment_indexes := a.segment_indexes.filter fun k _ =>
      match a.segments.get? k with
      | some s => !p k s
      | none => true }

/-- Remove one sealed segment. -/
def deleteSegment (source_id : Int) (stream : String) (seq : Nat) (a : Archive) : Archive :=
  a.deleteSegments fun k _ => k = toLex (streamKey source_id stream, seq)

/-- `INSERT OR IGNORE INTO clock_offsets`: the first observation at a timestamp wins. -/
def insertClockOffset (source_id : Int) (ts offset_ns : Int64) (a : Archive) :
    Except Error Archive := do
  let key := toLex (source_id, ts)
  if (a.clock_offsets.get? key).isSome then return a
  a.checkSource "failed to insert clock offset" source_id
  return { a with clock_offsets := a.clock_offsets.insert key offset_ns }

/-- Append rows to the caller's time-keyed store, in the order given. -/
def insertCallerRows (source_id : Int) (stream : String) (rows : List CallerRow) (a : Archive) :
    Except Error Archive := do
  if rows ≠ [] then
    a.checkSource s!"failed to insert a caller row for {stream}" source_id
  return { a with caller_rows := a.caller_rows ++ rows.map (streamKey source_id stream, ·) }

/-- `UPDATE sources SET … WHERE id = ?`. -/
def updateSource (source_id : Int) (f : SourceCols → SourceCols) (a : Archive) : Archive :=
  match a.sources.get? source_id with
  | some s => { a with sources := a.sources.insert source_id (f s) }
  | none => a

/-- An `UPDATE` that must have changed a row. -/
def updateSourceOrFail (source_id : Int) (f : SourceCols → SourceCols) (a : Archive) :
    Except Error Archive :=
  if (a.sources.get? source_id).isSome then .ok (a.updateSource source_id f)
  else .error (.message s!"no source with id {source_id}")

def markIncomplete (source_id : Int) (a : Archive) : Except Error Archive :=
  a.updateSourceOrFail source_id fun s => { s with complete := false }

def markComplete (source_id : Int) (a : Archive) : Archive :=
  a.updateSource source_id fun s => { s with complete := true }

def updateSourceMetadata (source_id : Int) (metadata : StringMap) (a : Archive) :
    Except Error Archive :=
  a.updateSourceOrFail source_id fun s => { s with identity := { s.identity with metadata } }

/-- Both maps as given; the form that keeps the writer's keys is `setSourceIdentity` of the
writer module. -/
def setIdentity (source_id : Int) (labels metadata : StringMap) (a : Archive) :
    Except Error Archive :=
  a.updateSourceOrFail source_id fun s => { s with identity := { s.identity with labels, metadata } }

def setHeartbeatInterval (source_id : Int) (interval_ns : Int64) (a : Archive) : Archive :=
  a.updateSource source_id fun s => { s with heartbeat_interval_ns := some interval_ns }

/-- Bump the heartbeat of each source. -/
def beat (source_ids : List Int) (a : Archive) : Archive :=
  source_ids.foldl (fun a id =>
    a.updateSource id fun s => { s with heartbeat := some (s.heartbeat.getD 0 + 1) }) a

/-- `DELETE FROM wal WHERE …`. -/
def deleteWal (p : StreamKey → Int64 → Bool) (a : Archive) : Archive :=
  { a with wal := a.wal.filter fun k _ => !p (ofLex k).1 (ofLex k).2 }

/-- Delete WAL rows at or below `upto_ts` of one stream. -/
def pruneWal (source_id : Int) (stream : String) (upto_ts : Int64) (a : Archive) : Archive :=
  a.deleteWal fun k ts => k = streamKey source_id stream && ts ≤ upto_ts

/-! ## Retention -/

/-- What one retention pass removed. -/
structure Evicted where
  segments : Nat
  wal_rows : Nat
  /-- How many of `wal_rows` no segment held. -/
  live_rows : Nat
  caller_rows : Nat
  held_streams : Nat
  deriving DecidableEq, Repr

/-- Where a pass may cut a name's caller rows, given the oldest row the name still holds. -/
abbrev CallerRowFloor := String → Option Int64 → Int64

/-- The oldest row a stream still holds, segments and WAL together. -/
def oldestRow (a : Archive) (source_id : Int) (stream : String) : Option Int64 :=
  let k := streamKey source_id stream
  (((a.catalog k).values.map fun s => s.seg_meta.first_ts) ++ (a.walOf k).keys).min?

/-- Where `evict_caller_rows` cuts one name. -/
def callerRowCut (a : Archive) (source_id : Int) (stream : String) (cutoff_ts : Int64)
    (floor : Option CallerRowFloor) : Int64 :=
  match floor with
  | some floor => min (floor stream (a.oldestRow source_id stream)) cutoff_ts
  | none => cutoff_ts

/-- Delete one name's caller rows below the cutoff, or below the caller's floor for it. -/
def evictCallerRows (source_id : Int) (cutoff_ts : Int64) (floor : Option CallerRowFloor)
    (a : Archive) (stream : String) : Archive :=
  let cut := a.callerRowCut source_id stream cutoff_ts floor
  { a with caller_rows := a.caller_rows.filter fun e =>
      !(e.1 = streamKey source_id stream && e.2.ts < cut) }

/-- Delete one stream's segments wholly before the cutoff and its WAL rows before it. -/
def evictStream (source_id : Int) (cutoff_ts : Int64) (a : Archive) (stream : String) : Archive :=
  let k := streamKey source_id stream
  (a.deleteSegments fun key s => (ofLex key).1 = k && s.seg_meta.last_ts < cutoff_ts).deleteWal
    fun key ts => key = k && ts < cutoff_ts

/-- `DELETE FROM clock_offsets WHERE source_id = ? AND ts < cut`. -/
def evictClockOffsets (source_id : Int) (cut : Int64) (a : Archive) : Archive :=
  { a with clock_offsets := a.clock_offsets.filter fun k _ =>
      !((ofLex k).1 = source_id && (ofLex k).2 < cut) }

/-- The oldest row a source still holds anywhere, segments and WAL together. -/
def oldestRowOfSource (a : Archive) (source_id : Int) : Option Int64 :=
  let segs := a.segments.entries.filter fun e => (ofLex (ofLex e.1).1).1 = source_id
  let wal := a.wal.keys.filter fun k => (ofLex (ofLex k).1).1 = source_id
  (segs.map (fun e => e.2.seg_meta.first_ts) ++ wal.map fun k => (ofLex k).2).min?

/-- The transaction of `evict`: a whole source. `names` are the caller row names the pass
listed before it, when there is a floor. -/
def evict (source_id : Int) (cutoff_ts : Int64) (floor : Option CallerRowFloor)
    (names : List String) (a : Archive) : Archive :=
  let cut := (a.deleteSegments fun key s =>
      (ofLex (ofLex key).1).1 = source_id && s.seg_meta.last_ts < cutoff_ts).deleteWal
    fun key ts => (ofLex key).1 = source_id && ts < cutoff_ts
  let cut := cut.evictClockOffsets source_id cutoff_ts
  match floor with
  | none => { cut with caller_rows := cut.caller_rows.filter fun e =>
      !((ofLex e.1).1 = source_id && e.2.ts < cutoff_ts) }
  | some _ => names.foldl (evictCallerRows source_id cutoff_ts floor) cut

/-- The transaction of `evict_streams`: the streams a predicate accepted. -/
def evictStreams (source_id : Int) (cutoff_ts : Int64) (floor : Option CallerRowFloor)
    (streams : List String) (a : Archive) : Archive :=
  let cut := streams.foldl (fun a stream =>
    evictCallerRows source_id cutoff_ts floor (evictStream source_id cutoff_ts a stream) stream) a
  cut.evictClockOffsets source_id ((cut.oldestRowOfSource source_id).getD cutoff_ts)

/-- The live rows a pass over a whole source deletes: those before the cutoff. -/
def liveBefore (a : Archive) (source_id : Int) (cutoff_ts : Int64) : Nat :=
  (a.wal.keys.filter fun k => (ofLex (ofLex k).1).1 = source_id && (ofLex k).2 < cutoff_ts &&
    a.isLive (ofLex k).1 (ofLex k).2).length

/-- The live rows a pass over some streams deletes. -/
def liveBeforeIn (a : Archive) (source_id : Int) (cutoff_ts : Int64) (streams : List String) :
    Nat :=
  (streams.map fun stream =>
    ((a.live (streamKey source_id stream)).keys.filter (· < cutoff_ts)).length).sum

/-- The counts of a pass that took `a` to `a'` and deleted `live_rows` live rows. -/
def evictedCounts (a a' : Archive) (live_rows : Nat) : Evicted where
  segments := a.segments.entries.length - a'.segments.entries.length
  wal_rows := a.wal.entries.length - a'.wal.entries.length
  live_rows
  caller_rows := a.caller_rows.length - a'.caller_rows.length
  held_streams := 0

end Archive

end Dendro
