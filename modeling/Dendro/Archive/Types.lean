import Mathlib.Data.String.Basic
import Dendro.Error
import Dendro.Lib.OrdMap

/-!
# Plain values of the container

The values the archive's catalog and the replication wire share: what SQLite is asked to
know about a sealed segment, and a row of the `wal` table.
-/

namespace Dendro

/-- The catalog facts about one sealed segment. -/
structure SegmentMeta where
  /-- How many WAL rows the segment covers. -/
  rows : UInt64
  first_ts : Int64
  /-- What the WAL prune and the read watermark are computed from. -/
  last_ts : Int64
  deriving DecidableEq, Repr

/-- A row of the `wal` table, keyed by `(source_id, stream, ts)`. The payload is opaque. -/
structure WalRow where
  stream : String
  ts : Int64
  /-- Wall time minus `ts` at the moment the row was taken. -/
  wall_offset : Int64
  row : Bytes
  deriving DecidableEq, Repr

/-- A `BTreeMap<String, String>`: labels and metadata. -/
abbrev StringMap := OrdMap String String

end Dendro
