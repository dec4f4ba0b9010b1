import Dendro.Archive.Disk
import Dendro.Lib.Prog
import Dendro.Lib.Word
import Dendro.Replicate.Frame

/-!
# Tailing an archive as frames

`ArchivePublisher`: what it remembers of each source between polls, and the reads by which
`next` turns what is new into frames. A poll reads one snapshot, so the archive is a
parameter here; each read is a call that can fail, and the cursors are advanced in place
between them, as the source advances them. The frames collected so far are a local of the
call and are lost if it gives up.
-/

namespace Dendro.Replicate

open Dendro

/-! ## The index state -/

def FNV_PRIME : UInt64 := 0x00000100000001b3

/-- The bases of the two streams. -/
def FNV_BASES : IndexState := (0xcbf29ce484222325, 0x9e3779b97f4a7c15)

/-- One byte into both streams; the second prime is the first, rotated left by 17. -/
def foldByte (s : IndexState) (byte : UInt8) : IndexState :=
  ((s.1 ^^^ byte.toUInt64) * FNV_PRIME,
    (s.2 ^^^ byte.toUInt64) * (FNV_PRIME <<< 17 ||| FNV_PRIME >>> 47))

/-- A declared state is never the one that means "against no index". -/
def declared (s : IndexState) : IndexState := if s = NO_INDEX_STATE then (1, 0) else s

/-- Fold one index entry into the running state: two FNV-1a streams over its timestamp and
its blob. -/
def foldIndexState (state : IndexState) (ts : Int64) (blob : Bytes) : IndexState :=
  declared ((Codec.i64Bytes ts ++ blob).foldl foldByte
    (if state = NO_INDEX_STATE then FNV_BASES else state))

theorem foldIndexState_ne (state : IndexState) (ts : Int64) (blob : Bytes) :
    foldIndexState state ts blob ≠ NO_INDEX_STATE := by
  have hdeclared : ∀ s, declared s ≠ NO_INDEX_STATE := fun s => by
    unfold declared
    split
    · decide
    · assumption
  exact hdeclared _

/-! ## What a publisher remembers -/

/-- How far a stream has been published. -/
structure StreamCursor where
  /-- Newest WAL row timestamp emitted, if any. -/
  wal_after : Option Int64
  /-- Newest `caller_rows` timestamp emitted, and how many rows at exactly that timestamp
  were sent. -/
  index_after : Option (Int64 × Nat)
  deriving DecidableEq

/-- A stream nothing of which has been published. -/
def StreamCursor.start : StreamCursor := { wal_after := none, index_after := none }

/-- One source, and everything the publisher remembers about it between polls. -/
structure SourceCursor where
  ordinal : UInt32
  source_id : Int
  streams : OrdMap String StreamCursor
  /-- Newest `clock_offsets` timestamp emitted. -/
  clock_after : Option Int64
  seq : UInt64
  index_state : IndexState
  /-- Whether the source's first entry, its `full`, was emitted. -/
  sent_full : Bool
  /-- The labels and metadata last sent. -/
  labels : StringMap
  metadata : StringMap
  deriving DecidableEq

structure ArchivePublisher where
  sources : List SourceCursor
  /-- Where a source created after opening starts. -/
  since : Int64
  deriving DecidableEq

/-- The frames a call has collected, and the time it read the clock at, if it did. -/
structure Batch where
  frames : List Frame
  polled_at : Option Int64

def Batch.empty : Batch := { frames := [], polled_at := none }

def Batch.push (b : Batch) (frames : List Frame) : Batch := { b with frames := b.frames ++ frames }

namespace SourceCursor

/-- The cursor of a source that was just met. -/
def fresh (ordinal : UInt32) (rec : SourceRow) : SourceCursor where
  ordinal
  source_id := rec.id
  streams := ∅
  clock_after := none
  seq := 0
  index_state := NO_INDEX_STATE
  sent_full := false
  labels := rec.identity.labels
  metadata := rec.identity.metadata

def entry (c : SourceCursor) (stream : String) : StreamCursor :=
  (c.streams.get? stream).getD .start

def setEntry (c : SourceCursor) (stream : String) (e : StreamCursor) : SourceCursor :=
  { c with streams := c.streams.insert stream e }

/-- `entry(stream).or_default()`. -/
def enter (c : SourceCursor) (stream : String) : SourceCursor :=
  c.setEntry stream (c.entry stream)

def advance (c : SourceCursor) (stream : String) (wal_after : Option Int64) : SourceCursor :=
  c.setEntry stream { c.entry stream with wal_after }

end SourceCursor

/-! ## Emitting -/

/-- A program of the publisher: each read of the snapshot can fail. -/
abbrev PublishM (σ : Type) := Prog σ StorageFailure Error

/-- One source while it is polled, and what the call has collected. -/
abbrev Poll := SourceCursor × Batch

/-- A read of the snapshot. -/
def ask {σ α : Type} (answer : α) : PublishM σ α := Prog.read storageError fun _ => .ok answer

/-- Where the loop of `emit_index` stands. -/
structure Resume where
  /-- Rows at `last_ts` that were sent before and are yet to be passed. -/
  skip : Nat
  at_last : Nat
  last_ts : Option Int64

/-- Whether the next row was sent by an earlier call. -/
def Resume.sent (r : Resume) (row : CallerRow) : Bool := 0 < r.skip && some row.ts = r.last_ts

def Resume.pass (r : Resume) (row : CallerRow) : Resume :=
  if r.sent row then { r with skip := r.skip - 1, at_last := r.at_last + 1 }
  else if some row.ts = r.last_ts then { r with at_last := r.at_last + 1 }
  else { r with last_ts := some row.ts, at_last := 1 }

/-- Emit one entry: the first a source ever sends is its `full`. -/
def pushEntry (stream : String) (p : Poll) (row : CallerRow) : Poll :=
  let (c, b) := p
  let state := foldIndexState c.index_state row.ts row.blob
  let kind := if c.sent_full then IndexKind.delta else .full
  ({ c with index_state := state, sent_full := true },
    b.push [.index c.ordinal stream row.ts kind state row.blob])

def emitRow (stream : String) (x : Resume × Poll) (row : CallerRow) : Resume × Poll :=
  (x.1.pass row, if x.1.sent row then x.2 else pushEntry stream x.2 row)

/-- The loop of `emit_index`, and the position it leaves. -/
def emitRows (stream : String) (r : Resume) (rows : List CallerRow) (p : Poll) : Poll :=
  let (r, c, b) := rows.foldl (emitRow stream) (r, p)
  match r.last_ts with
  | some ts => (c.setEntry stream { c.entry stream with index_after := some (ts, r.at_last) }, b)
  | none => (c, b)

/-- Where `emit_index` resumes: inside the last timestamp sent, or at `start`. -/
def StreamCursor.resume (e : StreamCursor) (start : Int64) : Int64 × Resume :=
  match e.index_after with
  | some (ts, count) => (ts, { skip := count, at_last := 0, last_ts := some ts })
  | none => (start, { skip := 0, at_last := 0, last_ts := none })

/-- Emit every index entry at or after `start` that has not been sent, advancing both the
cursor and the declared state. -/
def emitIndex (db : Archive) (start : Int64) (stream : String) : PublishM Poll Unit := do
  Prog.update fun p => (p.1.enter stream, p.2)
  let (c, _) ← Prog.state
  let (start, r) := (c.entry stream).resume start
  let rows ← ask (db.readCallerRows c.source_id stream start Int64.maxValue)
  Prog.update (emitRows stream r rows)

/-- One clock observation, unless it was sent before. -/
def pushOffset (p : Poll) (offset : Int64 × Int64) : Poll :=
  let (c, b) := p
  if c.clock_after.any (offset.1 ≤ ·) then p
  else ({ c with clock_after := some offset.1 },
    b.push [.clockOffset c.ordinal offset.1 offset.2])

/-- Segments, whole. -/
def pushSegments (stream : String) (segments : List SegmentRow) (p : Poll) : Poll :=
  let (c, b) := p
  (c, b.push (segments.map fun s =>
    .segment c.ordinal stream s.seg_meta s.bytes s.caller_index))

/-! ## Polling one source -/

/-- A watermark past the cursor: rows were sealed before they were read. -/
def sealedPast (source_id : Int) (stream : String) (w after : Int64) : Error :=
  .message (s!"source {source_id}: stream `{stream}` sealed past this publisher's cursor " ++
    s!"(watermark {w}, last row shipped {after}); those rows are no longer " ++
    s!"in the live tail. Reconnect with `catching_up` from {after}")

/-- The newest row shipped, after more of them. -/
def newestShipped (after : Option Int64) (rows : List WalRow) : Option Int64 :=
  rows.foldl (fun newest r => some (match newest with
    | some n => max n r.ts
    | none => r.ts)) after

/-- One stream of a poll: its segments if nothing of it was shipped yet, then its live
rows past the cursor. -/
def pollStream (db : Archive) (watermarks : OrdMap StreamKey Int64) (rows : List WalRow)
    (stream : String) : PublishM Poll (List WalRow) := do
  Prog.update fun p => (p.1.enter stream, p.2)
  let (c, _) ← Prog.state
  let watermark := watermarks.get? (streamKey c.source_id stream)
  match watermark, (c.entry stream).wal_after with
  | some w, none =>
    let segments ← ask
      (db.segmentsOverlapping c.source_id stream Int64.minValue Int64.maxValue)
    Prog.update fun p =>
      let (c, b) := pushSegments stream segments p
      (c.advance stream (some w), b)
  | _, _ => pure ()
  let (c, _) ← Prog.state
  let after := (c.entry stream).wal_after
  match watermark, after with
  | some w, some after =>
    if after < w then Prog.fail (sealedPast c.source_id stream w after)
  | _, _ => pure ()
  let live ← ask (db.liveWal c.source_id stream)
  let unsent := live.filter fun r => !after.any (r.ts ≤ ·)
  Prog.update fun p => (p.1.advance stream (newestShipped after unsent), p.2)
  return rows ++ unsent

/-- Timestamp order across the source's streams. -/
def sortRows (rows : List WalRow) : List WalRow :=
  rows.insertionSort fun r s => toLex (r.ts, r.stream) ≤ toLex (s.ts, s.stream)

/-- The one `rows` frame of a poll, empty or not. -/
def pushRows (rows : List WalRow) (p : Poll) : Poll :=
  let (c, b) := p
  ({ c with seq := c.seq + 1 }, b.push [.rows c.ordinal c.seq c.index_state (sortRows rows)])

/-- One poll of one source: index entries, then clock offsets, then exactly one `rows`
frame. -/
def poll (db : Archive) : PublishM Poll Unit := do
  let (c, _) ← Prog.state
  let names ← ask (db.callerRowStreams c.source_id)
  Prog.forEach (emitIndex db Int64.minValue) names
  let offsets ← ask (db.readClockOffsets c.source_id)
  Prog.update fun p => offsets.foldl pushOffset p
  let watermarks ← ask db.sealedWatermarks
  let streams ← ask (db.allStreams c.source_id)
  let rows ← Prog.foldEach (pollStream db watermarks) [] streams
  Prog.update (pushRows rows)

/-! ## Opening one source -/

/-- One stream of an opening batch: caught up, or started at its present. -/
def openStream (db : Archive) (since : Option Int64) (watermarks : OrdMap StreamKey Int64)
    (stream : String) : PublishM Poll Unit := do
  Prog.update fun p => (p.1.enter stream, p.2)
  let (c, _) ← Prog.state
  let watermark := watermarks.get? (streamKey c.source_id stream)
  match since with
  | some since =>
    let segments ← ask (db.segmentsOverlapping c.source_id stream since Int64.maxValue)
    Prog.update fun p =>
      let (c, b) := pushSegments stream segments p
      (c.advance stream watermark, b)
  | none =>
    let live ← ask (db.liveWalSpan c.source_id stream)
    Prog.update fun p => (p.1.advance stream (live.last_ts.or watermark), p.2)

/-- One clock observation of an opening batch. -/
def openOffset (since : Option Int64) (p : Poll) (offset : Int64 × Int64) : Poll :=
  let (c, b) := p
  match since with
  | some since =>
    if offset.1 < since then p
    else ({ c with clock_after := some offset.1 },
      b.push [.clockOffset c.ordinal offset.1 offset.2])
  | none => ({ c with clock_after := some offset.1 }, b)

/-- One source's handshake and opening batch. -/
def openSource (db : Archive) (rec : SourceRow) (since : Option Int64)
    (watermarks : OrdMap StreamKey Int64) : PublishM Poll Unit := do
  Prog.update fun p => (p.1, p.2.push [.handshake p.1.ordinal rec.uuid rec.identity.labels
    rec.identity.metadata rec.identity.clock_anchor_wall_ns rec.complete])
  let names ← ask (db.callerRowStreams rec.id)
  Prog.forEach (emitIndex db (since.getD Int64.minValue)) names
  let streams ← ask (db.allStreams rec.id)
  Prog.forEach (openStream db since watermarks) streams
  let offsets ← ask (db.readClockOffsets rec.id)
  Prog.update fun p => offsets.foldl (openOffset since) p

/-! ## The publisher -/

/-- The publisher's sources while a call runs, and what it has collected. -/
abbrev Polls := List SourceCursor × Batch

/-- The ordinal for the source at `index` in the order the publisher read them. -/
def nextOrdinal (index : Nat) : Except Error UInt32 :=
  if index < 2 ^ 32 then .ok (UInt32.ofNat index)
  else .error (.message "an archive with more than u32::MAX sources")

/-- Meet a source: its cursor is kept once its part of the call went through. -/
def meet (opening : SourceRow → PublishM Poll Unit) (rec : SourceRow) : PublishM Polls Unit := do
  let (sources, _) ← Prog.state
  let ordinal ← Prog.lift (nextOrdinal sources.length)
  let cursor ← Prog.zoom Prod.snd (fun b s => (s.1, b))
    (Prog.withValue (SourceCursor.fresh ordinal rec) (opening rec))
  Prog.update fun s => (s.1 ++ [cursor], s.2)

/-- A change of a source's identity since it was last sent. -/
def updateIdentity (now : Int64) (rec : SourceRow) : PublishM Poll Unit := do
  let (c, b) ← Prog.state
  if rec.identity.labels ≠ c.labels ∨ rec.identity.metadata ≠ c.metadata then
    let ts ← match b.polled_at with
      | some ts => pure ts
      | none => ask now
    Prog.update fun p =>
      ({ p.1 with labels := rec.identity.labels, metadata := rec.identity.metadata },
        { p.2 with polled_at := some ts }.push
          [.sourceUpdate p.1.ordinal ts rec.identity.labels rec.identity.metadata])

/-- A call's part for a source it knows. -/
def pollKnown (db : Archive) (now : Int64) (records : List SourceRow) : PublishM Poll Unit := do
  let (c, _) ← Prog.state
  match records.find? (·.id = c.source_id) with
  | some rec => updateIdentity now rec
  | none => pure ()
  poll db

/-- The sources that are not known yet. -/
def unknown (known : List SourceCursor) (records : List SourceRow) : List SourceRow :=
  records.filter fun r => !known.any (·.source_id = r.id)

/-- The body of `next`, inside the snapshot. -/
def collect (db : Archive) (now since : Int64) : PublishM Polls Unit := do
  let records ← ask db.readSources
  Prog.onEach (pollKnown db now records)
  let (known, _) ← Prog.state
  let records := unknown known records
  if !records.isEmpty then
    let watermarks ← ask db.sealedWatermarks
    Prog.forEach (meet fun rec => do
      openSource db rec (some since) watermarks
      poll db) records

/-- `open`, inside the snapshot. -/
def openAll (db : Archive) (since : Option Int64) : PublishM Polls Unit := do
  let watermarks ← ask db.sealedWatermarks
  let records ← ask db.readSources
  Prog.forEach (meet fun rec => openSource db rec since watermarks) records

/-- Open the snapshot, and run a program that collects frames. -/
def collecting (m : PublishM Polls Unit) : PublishM (List SourceCursor) (List Frame) := do
  ask ()
  let batch ← Prog.withValue Batch.empty (Prog.zoom Prod.swap (fun s _ => s.swap) m)
  return batch.frames

namespace ArchivePublisher

/-- Everything new since the last call, as frames. -/
def next (db : Archive) (now : Int64) : PublishM ArchivePublisher (List Frame) := do
  let since := (← Prog.state).since
  Prog.zoom ArchivePublisher.sources (fun sources p => { p with sources })
    (collecting (collect db now since))

/-- A publisher that has read nothing yet. -/
def unopened (since : Option Int64) : ArchivePublisher :=
  { sources := [], since := since.getD Int64.minValue }

/-- Both constructors. `since` present means catch up from there; absent means start at the
present. -/
def open_ (db : Archive) (since : Option Int64) : PublishM ArchivePublisher (List Frame) :=
  Prog.zoom ArchivePublisher.sources (fun sources p => { p with sources })
    (collecting (openAll db since))

end ArchivePublisher

end Dendro.Replicate
