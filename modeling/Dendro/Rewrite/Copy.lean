import Dendro.Documents.Copy
import Dendro.Read
import Dendro.Rewrite.Projection

/-!
# Copying sources

`copy_sources_into` of `rewrite.rs` carries every source of one archive into the open
transaction of another: the segments a spec selects, the live tail made into a segment, the
clock observations, the caller's rows, and the documents.

A program here runs over the destination. The source is held in one snapshot, so it is a value,
and each read of it is still a call that can fail. An error is the caller's, who rolls the
transaction back.
-/

namespace Dendro

/-- An archive file: what it holds of its sources, and its documents. -/
structure ArchiveFile where
  db : Archive
  documents : DocumentFile

/-- A file that was just created. -/
def ArchiveFile.create : ArchiveFile where
  db := .create .table
  documents := .create

/-- A program over the destination of a copy. -/
abbrev CopyM := Prog ArchiveFile SqliteError Error

namespace CopyM

/-- Read from the snapshot of the source. -/
def fetch {α : Type} (context : String) (x : α) : CopyM α :=
  Prog.read (.sqlite context) fun _ => .ok x

/-- A statement on the destination. -/
def execute (context : String) (stmt : Archive → Except Error Archive) : CopyM Unit :=
  Prog.call (.sqlite context) fun f => match stmt f.db with
    | .ok db => (.ok (), { f with db })
    | .error e => (.error e, f)

/-- `insert_source_with_uuid`: `last_insert_rowid` is the new id. -/
def insertSource (seed : SourceMeta) (uuid : String) : CopyM Int :=
  Prog.call (.sqlite "failed to insert source") fun f =>
    (.ok f.db.nextSourceId, { f with db := f.db.insertSource seed uuid })

end CopyM

/-- What one copy pass carries across. -/
structure CopySpec (Props : Type) where
  start : Int64
  end_ : Int64
  keep_streams : Option (String → Bool)
  /-- Merged into each copied source's metadata, over what is there. -/
  metadata_extra : Option StringMap
  keep_columns : Option ColumnFilter
  writer_props : Option Props

/-- Every source, every stream, every row, metadata untouched. -/
def CopySpec.everything (Props : Type) : CopySpec Props where
  start := Int64.minValue
  end_ := Int64.maxValue
  keep_streams := none
  metadata_extra := none
  keep_columns := none
  writer_props := none

/-- Whether the stream filter lets a name through. -/
def CopySpec.accepts {Props : Type} (spec : CopySpec Props) (name : String) : Bool :=
  match spec.keep_streams with
  | some keep => keep name
  | none => true

/-- The identity a source is copied with. -/
def CopySpec.seed {Props : Type} (spec : CopySpec Props) (rec : SourceRow) : SourceMeta :=
  { rec.identity with
    metadata := rec.identity.metadata.insertAll ((spec.metadata_extra.getD ∅).entries) }

namespace Archive

/-- `set_heartbeat`, as a copy carries it. -/
def setHeartbeat (source_id : Int) (heartbeat heartbeat_interval_ns : Option Int64) (a : Archive) :
    Archive :=
  a.updateSource source_id fun s => { s with heartbeat, heartbeat_interval_ns }

end Archive

section

variable {Props Writer : Type} (pq : Parquet Props Writer) (spec : CopySpec Props)
  (encoder : SegmentEncoder)

/-- What is inserted for one segment: trimmed to the columns that are kept, or as it is. The
index describes the whole segment, so a trimmed one has none. -/
def trimmed (keep_columns : Option ColumnFilter) (bytes : Bytes) (index : Option Bytes) :
    Except Error (Option (Bytes × Option Bytes)) :=
  match keep_columns with
  | some keep => do
    let projected ← projectSegmentColumns pq bytes keep (spec.writer_props.getD pq.writer_props)
    return projected.map (·, none)
  | none => .ok (some (bytes, index))

/-- Insert one segment of a stream, if it has anything left, and count it. -/
def copySegment (keep_columns : Option ColumnFilter) (id : Int) (table : String) (seq : Nat)
    (seg_meta : SegmentMeta) (bytes : Bytes) (index : Option Bytes) : CopyM Nat := do
  match ← Prog.lift (trimmed pq spec keep_columns bytes index) with
  | some (bytes, index) =>
    CopyM.execute s!"failed to insert segment {table}#{seq}" fun a =>
      a.insertSegment id table seq seg_meta bytes index
    return seq + 1
  | none => return seq

/-- The live tail as the stream's last segment, when it is in range at all. -/
def copyTail (keep_columns : Option ColumnFilter) (rec : SourceRow) (id : Int) (table : String)
    (seq : Nat) (tail : List WalRow) : CopyM Nat :=
  match tail.head?, tail.getLast? with
  | some first, some last =>
    if last.ts < spec.start || first.ts > spec.end_ then pure seq
    else do
      -- the rows are the source's, so the encoder is told where they came from
      match ← Prog.lift (materialize encoder
          { source_id := rec.id, source_uuid := rec.uuid, stream := table } tail) with
      | some segment =>
        copySegment pq spec keep_columns id table seq segment.segMeta segment.bytes segment.index
      | none => return seq
  | _, _ => pure seq

/-- Copy one stream, its segments numbered from 0. -/
def copyStream (src : Archive) (rec : SourceRow) (id : Int) (table : String) : CopyM Unit :=
  if spec.accepts table then do
    let keep_columns := spec.keep_columns.filter fun k => k.projects table
    let segments ← CopyM.fetch s!"failed to query segments for {table}"
      (src.segmentsOverlapping rec.id table spec.start spec.end_)
    let seq ← Prog.foldEach (fun seq (s : SegmentRow) =>
      copySegment pq spec keep_columns id table seq s.seg_meta s.bytes s.caller_index) 0 segments
    let tail ← CopyM.fetch s!"failed to query live WAL for {table}" (src.liveWal rec.id table)
    let _ ← copyTail pq spec encoder keep_columns rec id table seq tail
    return ()
  else pure ()

/-- Copy the caller's rows of one name. -/
def copyCallerRows (src : Archive) (rec : SourceRow) (id : Int) (name : String) : CopyM Unit :=
  if spec.accepts name then do
    let rows ← CopyM.fetch s!"failed to query caller rows for {name}"
      (src.readCallerRows rec.id name spec.start spec.end_)
    CopyM.execute s!"failed to insert a caller row for {name}" (·.insertCallerRows id name rows)
  else pure ()

/-- A copy keeps its source's `complete` flag. -/
def copyComplete (rec : SourceRow) (id : Int) : CopyM Unit :=
  if rec.complete then
    CopyM.execute s!"failed to mark source {id} complete" fun a => .ok (a.markComplete id)
  else pure ()

/-- The heartbeat as it stands: no writer bumps the copy's. -/
def copyHeartbeat (rec : SourceRow) (id : Int) : CopyM Unit :=
  if rec.heartbeat.isSome || rec.heartbeat_interval_ns.isSome then
    CopyM.execute s!"failed to set the heartbeat of source {id}" fun a =>
      .ok (a.setHeartbeat id rec.heartbeat rec.heartbeat_interval_ns)
  else pure ()

/-- Copy one source. `mint` stands for the uuid that a source without one gets. -/
def copySource (mint : Int → String) (src : Archive) (copied : Nat) (rec : SourceRow) :
    CopyM Nat := do
  -- the tail is encoded on the way across
  Prog.lift (checkEncoder rec.id rec.identity.metadata encoder)
  let id ← CopyM.insertSource (spec.seed rec) (rec.uuid.getD (mint rec.id))
  copyComplete rec id
  copyHeartbeat rec id
  let tables ← CopyM.fetch "failed to query all_streams" (src.allStreams rec.id)
  Prog.forEach (copyStream pq spec encoder src rec id) tables
  let offsets ← CopyM.fetch "failed to query clock offsets" (src.readClockOffsets rec.id)
  Prog.forEach (fun o => CopyM.execute "failed to insert clock offset" fun a =>
    a.insertClockOffset id o.1 o.2) offsets
  let names ← CopyM.fetch "failed to query caller row streams" (src.callerRowStreams rec.id)
  Prog.forEach (copyCallerRows spec src rec id) names
  return copied + 1

/-- Copy every source, and the documents. -/
def copySourcesSnapshotted (mint : Int → String) (src : ArchiveFile) : CopyM Nat := do
  let sources ← CopyM.fetch "failed to query sources" src.db.readSources
  let copied ← Prog.foldEach (copySource pq spec encoder mint src.db) 0 sources
  let _ ← Prog.zoom ArchiveFile.documents (fun documents f => { f with documents })
    (DocumentFile.copyDocuments src.documents)
  return copied

/-- `copy_sources_into`: the same, once the snapshot is open. -/
def copySourcesInto (mint : Int → String) (src : ArchiveFile) : CopyM Nat := do
  CopyM.fetch "failed to open a read snapshot" ()
  copySourcesSnapshotted pq spec encoder mint src

end

end Dendro
