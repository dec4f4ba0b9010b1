import Dendro.Archive.Store

/-!
# Transactions, and the history of a file

Everything the crate does to an archive is one of the transactions `Write`, each of which
commits whole or leaves the archive as it was. `Disk` is the archive together with two
records that no code reads and that the theorems are stated over: the transactions that
committed, each with the archive it committed to, and those a constraint refused.
-/

namespace Dendro

/-- An encoded segment waiting to be inserted. -/
structure Encoded where
  stream : String
  seq : Nat
  seg_meta : SegmentMeta
  bytes : Bytes
  caller_index : Option Bytes
  deriving DecidableEq, Repr

/-- One segment built elsewhere: `Encoded` without the `seq`. -/
structure Adopted where
  stream : String
  seg_meta : SegmentMeta
  bytes : Bytes
  caller_index : Option Bytes
  deriving DecidableEq, Repr

/-- The transactions of the crate. -/
inductive Write where
  /-- One tick's rows for several sources. -/
  | walRows (ticks : List (Int × List WalRow))
  /-- A seal: the segments made of the batch, and the batch's clock observation. -/
  | seal (source_id : Int) (batch : List String) (encoded : List Encoded)
      (observation : Option (Int64 × Int64))
  /-- A segment built elsewhere, at the stream's next `seq`. -/
  | adopt (source_id : Int) (segment : Adopted) (seq : Nat)
  | pruneWal (source_id : Int) (stream : String) (upto_ts : Int64)
  | evict (source_id : Int) (cutoff_ts : Int64) (floor : Option Archive.CallerRowFloor)
      (names : List String)
  | evictStreams (source_id : Int) (cutoff_ts : Int64) (floor : Option Archive.CallerRowFloor)
      (streams : List String)
  | clockOffset (source_id : Int) (ts offset_ns : Int64)
  | callerRows (source_id : Int) (stream : String) (rows : List CallerRow)
  | insertSource (seed : SourceMeta) (uuid : String)
  | updateMetadata (source_id : Int) (metadata : StringMap)
  | setIdentity (source_id : Int) (labels metadata : StringMap)
  | markIncomplete (source_id : Int)
  /-- The final clock offset and the complete flag. -/
  | finalize (source_id : Int) (ts offset_ns : Int64)
  | startHeartbeat (source_id : Int) (interval_ns : Int64)
  | beat (source_ids : List Int)
  /-- Compaction: the run's segments replaced by their merge. -/
  | merge (source_id : Int) (stream : String) (run : List Nat) (seq : Nat)
      (seg_meta : SegmentMeta) (bytes : Bytes)

/-- Insert a seal's segments one by one. -/
def Archive.insertEncoded (source_id : Int) (a : Archive) (e : Encoded) : Except Error Archive :=
  a.insertSegment source_id e.stream e.seq e.seg_meta e.bytes e.caller_index

/-- What a transaction does when it commits, or why it is rolled back. -/
def Write.apply (a : Archive) : Write → Except Error Archive
  | .walRows ticks => a.insertWalRowsBatch ticks
  | .seal source_id _ encoded observation => do
      let a ← encoded.foldlM (Archive.insertEncoded source_id) a
      match observation with
      | some (ts, offset) => a.insertClockOffset source_id ts offset
      | none => return a
  | .adopt source_id s seq =>
      a.insertSegment source_id s.stream seq s.seg_meta s.bytes s.caller_index
  | .pruneWal source_id stream upto_ts => .ok (a.pruneWal source_id stream upto_ts)
  | .evict source_id cutoff_ts floor names => .ok (a.evict source_id cutoff_ts floor names)
  | .evictStreams source_id cutoff_ts floor streams =>
      .ok (a.evictStreams source_id cutoff_ts floor streams)
  | .clockOffset source_id ts offset_ns => a.insertClockOffset source_id ts offset_ns
  | .callerRows source_id stream rows => a.insertCallerRows source_id stream rows
  | .insertSource seed uuid => .ok (a.insertSource seed uuid)
  | .updateMetadata source_id metadata => a.updateSourceMetadata source_id metadata
  | .setIdentity source_id labels metadata => a.setIdentity source_id labels metadata
  | .markIncomplete source_id => a.markIncomplete source_id
  | .finalize source_id ts offset_ns => do
      let a ← a.insertClockOffset source_id ts offset_ns
      return a.markComplete source_id
  | .startHeartbeat source_id interval_ns =>
      .ok ((a.setHeartbeatInterval source_id interval_ns).beat [source_id])
  | .beat source_ids => .ok (a.beat source_ids)
  | .merge source_id stream run seq seg_meta bytes =>
      (run.foldl (fun a s => a.deleteSegment source_id stream s) a).insertSegment
        source_id stream seq seg_meta bytes none

/-- A transaction that a constraint refused. -/
structure Refusal where
  db : Archive
  write : Write
  error : Error

/-- The file and its history. -/
structure Disk where
  db : Archive
  /-- The transactions that committed, each with the archive it committed to. -/
  log : List (Archive × Write)
  /-- The transactions that were rolled back by a constraint. -/
  refused : List Refusal

/-- A file that was just created. -/
def Disk.create (layout : IndexLayout) : Disk :=
  { db := Archive.create layout, log := [], refused := [] }

/-- Run one transaction. -/
def Disk.run (d : Disk) (w : Write) : Except Error Unit × Disk :=
  match w.apply d.db with
  | .ok db => (.ok (), { d with db, log := d.log ++ [(d.db, w)] })
  | .error e => (.error e, { d with refused := d.refused ++ [⟨d.db, w, e⟩] })

/-- A storage call failed: what was being done, and SQLite's error. -/
structure StorageFailure where
  context : String
  source : SqliteError
  deriving DecidableEq, Repr

/-- A failed storage call as the error the code makes of it. -/
def storageError (f : StorageFailure) : Error := .sqlite f.context f.source

end Dendro
