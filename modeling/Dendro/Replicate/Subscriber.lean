import Dendro.Replicate.Frame
import Dendro.Writer.Loop

/-!
# Applying frames to an archive

`Subscriber`: what it remembers of each source of a connection, and what one frame does to the
archive its writer owns. The writer thread handles messages in the order they are sent, so a
frame's messages are handled where it is applied; a handler that stops the thread is noticed at
the next message.

`logged_gap` only decides whether a gap is logged again and is left out.
-/

namespace Dendro.Replicate

open Dendro

/-- What one `apply` did. -/
structure Applied where
  /-- WAL rows written. -/
  rows : Nat
  /-- Rows not written: they were built against an index state that is not the subscriber's. -/
  rows_skipped : Nat
  segments : Nat
  /-- Segments not inserted, because the stream's newest sealed row covers them. -/
  segments_held : Nat
  index_entries : Nat
  clock_offsets : Nat
  sources : Nat
  source_updates : Nat
  /-- Whether the frame's sequence number skipped one. -/
  gap : Bool
  deriving DecidableEq, Repr

/-- Nothing done. -/
def Applied.none : Applied where
  rows := 0
  rows_skipped := 0
  segments := 0
  segments_held := 0
  index_entries := 0
  clock_offsets := 0
  sources := 0
  source_updates := 0
  gap := false

/-- One source of the connection, and what the subscriber remembers of it between frames. -/
structure SourceState where
  /-- The handle: the source of the copy that its rows go to. -/
  writer : Int
  /-- The `state` of the newest index entry applied. -/
  index_state : IndexState
  /-- Whether a `full` entry has arrived. -/
  seen_full : Bool
  /-- The `seq` of the last `rows` frame. -/
  last_seq : Option UInt64
  /-- Whether the publisher's source was cleanly finalized. -/
  complete : Bool
  /-- The newest clock observation seen. -/
  last_offset : Option (Int64 × Int64)
  deriving DecidableEq

/-- A source that was just introduced. -/
def SourceState.start (writer : Int) (complete : Bool) : SourceState where
  writer
  index_state := NO_INDEX_STATE
  seen_full := false
  last_seq := none
  complete
  last_offset := none

/-- The subscriber and the thread of the writer it owns. -/
structure Subscriber where
  thread : WriterState
  /-- The error the thread stopped with. -/
  stopped : Option Error
  sources : OrdMap UInt32 SourceState

/-- A program of the subscriber. -/
abbrev SubscribeM := Prog Subscriber StorageFailure Error

namespace SubscribeM

/-- Send a message whose handling nobody waits for. -/
def post (env : Env) (msg : Msg) : SubscribeM Unit := fun s fs =>
  match s.stopped with
  | some e => (.err (.writer e), s, fs)
  | none => match handle env msg s.thread fs with
    | (.ok _, thread, fs) => (.ok (), { s with thread }, fs)
    | (.err e, thread, fs) => (.ok (), { s with thread, stopped := some e }, fs)
    | (.killed, thread, fs) => (.killed, { s with thread }, fs)

/-- Send a message and wait for the reply. -/
def request (env : Env) (msg : Msg) : SubscribeM Reply := fun s fs =>
  match s.stopped with
  | some e => (.err (.writer e), s, fs)
  | none => match handle env msg s.thread fs with
    | (.ok reply, thread, fs) => (.ok reply, { s with thread }, fs)
    | (.err e, thread, fs) => (.err (.writer e), { s with thread, stopped := some e }, fs)
    | (.killed, thread, fs) => (.killed, { s with thread }, fs)

/-- `Writer::add_source_with_uuid`. -/
def addSourceWithUuid (env : Env) (seed : SourceMeta) (uuid : Option String) : SubscribeM Int := do
  match ← request env (.addSource seed uuid) with
  | .added inserted => Prog.lift inserted
  | _ => Prog.fail .writerGone

/-- `SourceWriter::adopt_segment`. -/
def adoptSegment (env : Env) (source_id : Int) (segment : Adopted) : SubscribeM Bool := do
  match ← request env (.adoptSegment source_id segment) with
  | .adopted inserted => Prog.lift inserted
  | _ => Prog.fail .writerGone

/-- `source_mut`: a frame names a source that a handshake introduced. -/
def sourceMut (source : UInt32) : SubscribeM SourceState := do
  match (← Prog.state).sources.get? source with
  | some st => return st
  | none => Prog.fail (.message (s!"replication frame for source {source}, which no handshake " ++
      "has introduced; every frame names a source by the ordinal its handshake assigned"))

/-- What the subscriber remembers of a source. -/
def remember (source : UInt32) (st : SourceState) : SubscribeM Unit :=
  Prog.update fun s => { s with sources := s.sources.insert source st }

end SubscribeM

namespace Subscriber

open SubscribeM

/-- `u64::saturating_add(1)`. -/
def saturatingSucc (n : UInt64) : UInt64 := if n = UInt64.ofNat (2 ^ 64 - 1) then n else n + 1

/-- Whether a `rows` frame's sequence number skipped one. -/
def isGap (last_seq : Option UInt64) (seq : UInt64) : Bool :=
  match last_seq with
  | some last => saturatingSucc last < seq
  | none => false

/-- Whether the rows of a frame cannot be attributed: they were built against an index of
which no `full` entry has arrived, or against a state that is not the subscriber's. -/
def skips (st : SourceState) (index_state : IndexState) : Bool :=
  (index_state ≠ NO_INDEX_STATE && !st.seen_full) || index_state ≠ st.index_state

/-- Apply one frame. -/
def apply (env : Env) : Frame → SubscribeM Applied
  | .handshake source uuid labels metadata clock_anchor_wall_ns complete => do
      let writer ← addSourceWithUuid env { labels, metadata, clock_anchor_wall_ns } uuid
      remember source (.start writer complete)
      return { Applied.none with sources := 1 }
  | .index source stream ts kind state blob => do
      let st ← sourceMut source
      post env (.callerRows st.writer stream [{ ts, blob }])
      remember source { st with index_state := state, seen_full := st.seen_full || kind = .full }
      return { Applied.none with index_entries := 1 }
  | .rows source seq index_state rows => do
      let st ← sourceMut source
      let gap := isGap st.last_seq seq
      remember source { st with last_seq := some seq }
      if skips st index_state then
        return { Applied.none with rows_skipped := rows.length, gap }
      if !rows.isEmpty then
        post env (.wal [(st.writer, rows)])
      return { Applied.none with rows := rows.length, gap }
  | .segment source stream seg_meta bytes caller_index => do
      let st ← sourceMut source
      let inserted ← SubscribeM.adoptSegment env st.writer { stream, seg_meta, bytes, caller_index }
      return { Applied.none with
        segments := inserted.toNat
        segments_held := (!inserted).toNat }
  | .clockOffset source ts offset_ns => do
      let st ← sourceMut source
      post env (.clockOffset st.writer ts offset_ns)
      remember source { st with last_offset := some (ts, offset_ns) }
      return { Applied.none with clock_offsets := 1 }
  | .sourceUpdate source _ labels metadata => do
      let st ← sourceMut source
      post env (.setIdentity st.writer labels metadata)
      return { Applied.none with source_updates := 1 }

/-- A subscriber into the archive of a thread. -/
def new (thread : WriterState) : Subscriber := { thread, stopped := none, sources := ∅ }

end Subscriber

end Dendro.Replicate
