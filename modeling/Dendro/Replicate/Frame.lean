import Dendro.Archive.Types

/-!
# What a publisher emits and a subscriber applies

One frame kind per per-source table, plus `sourceUpdate` for a change to a row of
`sources` after its handshake. `Replicate/Wire.lean` turns these into bytes.
-/

namespace Dendro.Replicate

/-- The hash a publisher declares over its index state. -/
abbrev IndexState := UInt64 × UInt64

/-- The state a stream starts at: no index entry has been applied. -/
def NO_INDEX_STATE : IndexState := (0, 0)

/-- Whether an index entry carries the whole slot set or a change to it. -/
inductive IndexKind where
  | full
  | delta
  deriving DecidableEq, Repr

/-- One unit of replication. Every variant carries `source`, the handshake ordinal. -/
inductive Frame where
  /-- A source's identity, and the ordinal every later frame for it carries. -/
  | handshake (source : UInt32) (uuid : Option String) (labels metadata : StringMap)
      (clock_anchor_wall_ns : Int64) (complete : Bool)
  /-- One entry of the caller's secondary index, bound for `caller_rows`. -/
  | index (source : UInt32) (stream : String) (ts : Int64) (kind : IndexKind)
      (state : IndexState) (blob : Bytes)
  /-- Live observations, bound for the `wal` table. -/
  | rows (source : UInt32) (seq : UInt64) (index_state : IndexState) (rows : List WalRow)
  /-- A sealed segment, bound for `segments`. -/
  | segment (source : UInt32) (stream : String) (seg_meta : SegmentMeta) (bytes : Bytes)
      (caller_index : Option Bytes)
  /-- One clock-drift observation, bound for `clock_offsets`. -/
  | clockOffset (source : UInt32) (ts offset_ns : Int64)
  /-- A source's labels and metadata, whole, after a change to either. -/
  | sourceUpdate (source : UInt32) (ts : Int64) (labels metadata : StringMap)
  deriving DecidableEq

/-- The handshake ordinal this frame belongs to. -/
def Frame.source : Frame → UInt32
  | .handshake s .. | .index s .. | .rows s .. | .segment s .. | .clockOffset s ..
  | .sourceUpdate s .. => s

end Dendro.Replicate
