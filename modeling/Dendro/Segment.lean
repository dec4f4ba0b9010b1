import Dendro.Archive.Store
import Dendro.Lib.Chunks

/-!
# Segments

What a stream's rows become when they are sealed, and the contract an encoder's answer has
to meet (`segment.rs`), together with the split of a capped seal (`split_seal` of
`writer.rs`).

The encoder is the caller's: a function from the rows to an answer, an error of its own or
a panic, which `materialize` turns into an error.
-/

namespace Dendro

/-- One sealed segment: parquet bytes plus the catalog facts about what is in them. -/
structure Segment where
  bytes : Bytes
  rows : UInt64
  first_ts : Int64
  last_ts : Int64
  index : Option Bytes
  deriving DecidableEq, Repr

/-- The catalog facts of a segment, all three from the segment. -/
def Segment.segMeta (s : Segment) : SegmentMeta :=
  { rows := s.rows, first_ts := s.first_ts, last_ts := s.last_ts }

/-- Which stream an encode is for, and whose. -/
structure EncodeContext where
  source_id : Int
  source_uuid : Option String
  stream : String
  deriving DecidableEq, Repr

/-- What a call of an encoder does: answers, fails, or panics with a message. -/
inductive EncodeResult where
  | ok (segment : Option Segment)
  | failed (source : String)
  | panicked (what : String)
  deriving DecidableEq, Repr

/-- Turns a stream's WAL rows into one parquet segment. -/
structure SegmentEncoder where
  encode : EncodeContext → List WalRow → EncodeResult
  /-- A version for this encoding, or `none` to opt out. -/
  version : Option String
  /-- Encode rows of a split seal after the rows before them. -/
  encode_after : EncodeContext → List WalRow → List WalRow → EncodeResult

/-- The rows handed over that fall inside the span a segment claims. -/
def covered (rows : List WalRow) (s : Segment) : Nat :=
  (rows.filter fun r => s.first_ts ≤ r.ts && r.ts ≤ s.last_ts).length

/-- The refusal of a segment that does not describe the rows. -/
def contractError (stream : String) (s : Segment) (rows : List WalRow) (first last : WalRow) :
    Error :=
  .encoderContract stream
    s!"it claims {s.rows} row(s) over [{s.first_ts}, {s.last_ts}]; that span holds {covered rows s} of the {rows.length} row(s) it was given over [{first.ts}, {last.ts}]"

/-- The contract: contiguity by counting, and a span inside the rows' own. A slice's length
fits a `u64`, so the counts are compared as numbers. -/
def meetsContract (s : Segment) (rows : List WalRow) (first last : WalRow) : Bool :=
  s.rows ≠ 0 && s.first_ts ≤ s.last_ts && first.ts ≤ s.first_ts && s.last_ts ≤ last.ts &&
    s.rows.toNat = covered rows s

/-- Run an encoder over a part of a seal and validate the result. Nothing before the rows
calls `encode`, and no rows at all calls nothing. -/
def materializeAfter (encoder : SegmentEncoder) (ctx : EncodeContext)
    (before rows : List WalRow) : Except Error (Option Segment) :=
  match rows.head?, rows.getLast? with
  | some first, some last =>
    let outcome := if before.isEmpty then encoder.encode ctx rows
      else encoder.encode_after ctx before rows
    match outcome with
    | .failed source => .error (.encoder ctx.stream source)
    | .panicked what => .error (.encoder ctx.stream s!"the encoder panicked: {what}")
    | .ok none => .ok none
    | .ok (some segment) =>
      if meetsContract segment rows first last then .ok (some segment)
      else .error (contractError ctx.stream segment rows first last)
  | _, _ => .ok none

/-- Run an encoder over a run of WAL rows and validate the result. -/
def materialize (encoder : SegmentEncoder) (ctx : EncodeContext) (rows : List WalRow) :
    Except Error (Option Segment) :=
  materializeAfter encoder ctx [] rows

namespace keys

/-- Every writer session that appended to the source. Written by dendro. -/
def WRITER_SESSIONS : String := "writer_sessions"

/-- Timeline events; dendro appends one at a resume. -/
def EVENTS : String := "events"

/-- The encoder version that wrote the source. Written by dendro. -/
def ENCODER : String := "encoder"

end keys

/-- Refuse a source written by a different encoder version. Either side reporting nothing
is not a mismatch. -/
def checkEncoder (source_id : Int) (metadata : StringMap) (encoder : SegmentEncoder) :
    Except Error Unit :=
  match metadata.get? keys.ENCODER, encoder.version with
  | some wrote, some reading =>
    if wrote ≠ reading then .error (.encoderMismatch source_id wrote reading) else .ok ()
  | _, _ => .ok ()

/-! ## A capped seal -/

/-- Whether a part's segment leaves no gap at an edge it shares with another part. -/
def tiles (segment : Segment) (part : List WalRow) (isFirst isLast : Bool) : Bool :=
  (isFirst || part.head?.map (·.ts) = some segment.first_ts) &&
    (isLast || part.getLast?.map (·.ts) = some segment.last_ts)

/-- The parts of a split, each encoded after the rows before it; `none` when a part does
not tile and the split is abandoned. -/
def splitParts (encoder : SegmentEncoder) (ctx : EncodeContext) :
    List WalRow → List (List WalRow) → Except Error (Option (List Segment))
  | _, [] => .ok (some [])
  | before, part :: parts => do
      match ← materializeAfter encoder ctx before part with
      | none => return none
      | some segment =>
        if tiles segment part before.isEmpty parts.isEmpty then
          return (← splitParts encoder ctx (before ++ part) parts).map (segment :: ·)
        else return none

/-- A stream's live rows as segments of at most `max_rows` WAL rows each, oldest first;
the whole run as one segment when it is within the cap or a part does not tile. -/
def splitSeal (encoder : SegmentEncoder) (ctx : EncodeContext) (rows : List WalRow)
    (max_rows : Nat) : Except Error (List Segment) := do
  let max_rows := max max_rows 1
  if rows.length ≤ max_rows then
    return (← materialize encoder ctx rows).toList
  match ← splitParts encoder ctx [] (rows.chunksOf max_rows) with
  | some parts => return parts
  | none => return (← materialize encoder ctx rows).toList

end Dendro
