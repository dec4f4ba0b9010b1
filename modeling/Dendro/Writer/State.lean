import Dendro.Archive.Disk
import Dendro.Segment
import Dendro.Lib.Prog

/-!
# The writer thread: what it owns and what it remembers

The state of `writer_thread`: the file it owns and the maps of `writer_loop`. A message
handler is a `Prog` over it: each storage call can fail or be the point at which the
process is killed, and the caches change only between calls.

`watermarks` and `deferred` are nested maps in the source, keyed by source and then by
stream to save an allocation on lookup; here they are keyed by the pair. The sets of
already warned-about sources and streams only decide what is logged and are left out.
-/

namespace Dendro

/-- The maps and counters of `writer_loop`. -/
structure Caches where
  /-- Sources added or resumed and not yet finalized. -/
  beating : OrdMap Int Unit
  /-- Next segment sequence number, per stream. -/
  next_seq : OrdMap StreamKey Nat
  /-- Per resumed source, the newest row its previous session left. -/
  floors : OrdMap Int Int64
  /-- Every stream's newest sealed row. -/
  watermarks : OrdMap StreamKey Int64
  /-- The streams whose last seal was deferred, with the smallest `max_rows` asked for. -/
  deferred : OrdMap StreamKey Nat
  added : Nat
  finalized : Nat
  consecutive_dropped : Nat
  /-- Rows dropped as shadowed, per source: the counts shared with the handles. -/
  shadowed : OrdMap Int UInt64
  deriving DecidableEq

/-- The thread's state: the file, and what it remembers. -/
structure WriterState where
  disk : Disk
  mem : Caches

/-- The archive as it stands. -/
abbrev WriterState.db (s : WriterState) : Archive := s.disk.db

/-- The state after a transaction. -/
def WriterState.run (s : WriterState) (w : Write) : WriterState :=
  { s with disk := (s.disk.run w).2 }

/-- A handler of the writer thread. -/
abbrev WriterM := Prog WriterState StorageFailure Error

/-- A JSON document, as `serde_json::Value`; a number is kept as its text. -/
inductive Json where
  | null
  | bool (b : Bool)
  | num (text : String)
  | str (s : String)
  | arr (elements : List Json)
  | obj (fields : List (String × Json))

/-- What a run of the writer is given from outside: the caller's encoder, the JSON reader
and printer, the random uuids, and its own build and cadence. -/
structure Env where
  encoder : SegmentEncoder
  parseJson : String → Option Json
  printJson : Json → String
  /-- The uuids `mint_uuid` draws while one message is handled, by turn. -/
  mint : Nat → String
  crate_version : String
  heartbeat_interval_ns : Int64

namespace WriterM

/-- A query. -/
def query {α : Type} (f : Archive → Except Error α) : WriterM α :=
  Prog.read storageError fun s => f s.db

/-- A transaction. -/
def commit (w : Write) : WriterM Unit :=
  Prog.call storageError fun s => ((s.disk.run w).1, s.run w)

/-- What the thread remembers. -/
def remembered : WriterM Caches := do
  return (← Prog.state).mem

/-- Update what the thread remembers. -/
def remember (f : Caches → Caches) : WriterM Unit :=
  Prog.update fun s => { s with mem := f s.mem }

/-- `with_retries`: three more attempts on a retryable failure. -/
def withRetries {α : Type} (op : WriterM α) : WriterM α := Prog.retry Error.isRetryable op 3

end WriterM

/-- How many consecutive ticks the writer may drop before it stops. -/
def MAX_CONSECUTIVE_DROPPED_TICKS : Nat := 30

open WriterM

/-- `WriterHealth::committed`. -/
def committed : WriterM Unit := remember fun m => { m with consecutive_dropped := 0 }

/-- `WriterHealth::dropped`: a tick was dropped after retries. The counter is a `u32`, and
the writer stops long before it could wrap. -/
def dropped (e : Error) : WriterM Unit := do
  remember fun m => { m with consecutive_dropped := m.consecutive_dropped + 1 }
  let n := (← remembered).consecutive_dropped
  if n ≥ MAX_CONSECUTIVE_DROPPED_TICKS then
    Prog.fail (.message
      s!"the archive writer dropped {n} consecutive ticks; last error: {e.display}")

/-- The caches of a thread that just opened the file. -/
def Caches.seed (db : Archive) : Caches where
  beating := ∅
  next_seq := db.nextSeqs
  floors := ∅
  watermarks := db.sealedWatermarks
  deferred := ∅
  added := 0
  finalized := 0
  consecutive_dropped := 0
  shadowed := ∅

end Dendro
