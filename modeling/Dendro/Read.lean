import Dendro.Archive.Store
import Dendro.Segment

/-!
# Reading a stream

The readers of `read.rs`: the sealed segments of a stream, then its live WAL tail as the
newest one. Each reader holds one snapshot, so it is a function of an archive.
-/

namespace Dendro

/-- One source's contents, resolved to bytes. -/
structure SourceSegments where
  labels : StringMap
  metadata : StringMap
  /-- Survives a copy: it describes the data. -/
  complete : Bool
  /-- Each stream's segments, oldest first, live tail last. -/
  streams : List (String × List Bytes)
  deriving DecidableEq

namespace Archive

variable (a : Archive) (source_id : Int) (stream : String) (encoder : SegmentEncoder)

/-- Materialize a stream's live tail. The uuid is looked up only when there is a tail. -/
def materializeTail (live : List WalRow) : Except Error (Option Segment) := do
  if live.isEmpty then return none
  let source_uuid ← a.sourceUuid source_id
  materialize encoder { source_id, source_uuid, stream } live

/-- `check_encoder` for a source named by id. -/
def checkEncoderOf : Except Error Unit := do
  if encoder.version.isNone then return ()
  checkEncoder source_id (← a.sourceMetadata source_id) encoder

/-- `stream_segments` inside a snapshot. -/
def streamSegmentsSnapshotted : Except Error (List Bytes) := do
  let segments := (a.readSegments source_id stream).map (·.bytes)
  match ← a.materializeTail source_id stream encoder (a.liveWal source_id stream) with
  | some tail => return segments ++ [tail.bytes]
  | none => return segments

/-- One stream's segments, oldest first: the sealed ones in `seq` order, then the tail. -/
def streamSegments : Except Error (List Bytes) := do
  a.checkEncoderOf source_id encoder
  a.streamSegmentsSnapshotted source_id stream encoder

/-- A stream's segments overlapping `[start, end]`, whole, and the live tail trimmed to it. -/
def streamRange (start end_ : Int64) : Except Error (List Bytes) := do
  a.checkEncoderOf source_id encoder
  let segments := (a.segmentsOverlapping source_id stream start end_).map (·.bytes)
  let live := (a.liveWal source_id stream).filter fun r => r.ts ≥ start && r.ts ≤ end_
  match ← a.materializeTail source_id stream encoder live with
  | some tail => return segments ++ [tail.bytes]
  | none => return segments

/-- One stream's indexes: the sealed segments' from the catalog, then the tail's. -/
def streamIndexes : Except Error (List (Option Bytes)) := do
  a.checkEncoderOf source_id encoder
  let out := (a.readSegmentIndexes source_id stream).map (·.2)
  match ← a.materializeTail source_id stream encoder (a.liveWal source_id stream) with
  | some tail => return out ++ [tail.index]
  | none => return out

/-- A source's streams. A stream with no bytes is skipped. -/
def readStreams : Except Error (List (String × List Bytes)) := do
  let streams ← (a.allStreams source_id).mapM fun stream => do
    return (stream, ← a.streamSegmentsSnapshotted source_id stream encoder)
  return streams.filter fun s => !s.2.isEmpty

/-- One source of `read_archive`. -/
def readSource (src : SourceRow) : Except Error SourceSegments := do
  checkEncoder src.id src.identity.metadata encoder
  let streams ← a.readStreams src.id encoder
  return { labels := src.identity.labels, metadata := src.identity.metadata
           complete := src.complete, streams }

/-- Every source in the archive, in one snapshot. -/
def readArchive : Except Error (List SourceSegments) :=
  a.readSources.mapM fun src => a.readSource encoder src

/-- What the two readers list: the bytes of every segment of the stream beside the index of
the same segment, the tail's last. -/
def indexedSegments : Except Error (List (Bytes × Option Bytes)) := do
  a.checkEncoderOf source_id encoder
  let tail ← a.materializeTail source_id stream encoder (a.liveWal source_id stream)
  return (a.readSegments source_id stream).map (fun s => (s.bytes, s.caller_index)) ++
    tail.toList.map fun s => (s.bytes, s.index)

variable {a source_id stream encoder}

/-- The catalog lists the indexes that a read of the whole segments finds. -/
theorem readSegmentIndexes_eq : a.readSegmentIndexes source_id stream =
    (a.readSegments source_id stream).map fun s => (s.seq, s.caller_index) := by
  rw [readSegmentIndexes, readSegments, List.map_map]
  rfl

/-- **`stream_segments` lists the segments of the stream.** -/
theorem streamSegments_eq : a.streamSegments source_id stream encoder =
    (a.indexedSegments source_id stream encoder).map (List.map Prod.fst) := by
  unfold streamSegments streamSegmentsSnapshotted indexedSegments
  rcases a.checkEncoderOf source_id encoder with e | u
  · rfl
  · rcases a.materializeTail source_id stream encoder (a.liveWal source_id stream) with e | tail
    · rfl
    · refine (?_ : _ = Except.ok (List.map Prod.fst (_ ++ _)))
      rw [List.map_append, List.map_map, List.map_map]
      cases tail with
      | none => exact congrArg Except.ok (List.append_nil _).symm
      | some tail => rfl

/-- **`stream_indexes` lists the indexes of the same segments**, each at its segment's place. -/
theorem streamIndexes_eq : a.streamIndexes source_id stream encoder =
    (a.indexedSegments source_id stream encoder).map (List.map Prod.snd) := by
  unfold streamIndexes indexedSegments
  rw [readSegmentIndexes_eq, List.map_map]
  rcases a.checkEncoderOf source_id encoder with e | u
  · rfl
  · rcases a.materializeTail source_id stream encoder (a.liveWal source_id stream) with e | tail
    · rfl
    · refine (?_ : _ = Except.ok (List.map Prod.snd (_ ++ _)))
      rw [List.map_append, List.map_map, List.map_map]
      cases tail with
      | none => exact congrArg Except.ok (List.append_nil _).symm
      | some tail => rfl

end Archive

end Dendro
