import Dendro.Writer.State

/-!
# Source rows on the writer thread

What the writer does to a row of `sources`: adding one, resuming one in a new session,
and the metadata it patches on the way (`record_session`, `resume_source`,
`patch_source_metadata`, `set_source_identity`, `start_heartbeat`).
-/

namespace Dendro

open WriterM

/-! ## JSON values -/

/-- `json!({ … })`: a map keeps its keys in order. -/
def Json.object (fields : List (String × Json)) : Json := .obj (OrdMap.ofList fields).entries

/-- `value[key]` where it is read: `null` for anything missing. -/
def Json.getKey (key : String) : Json → Json
  | .obj fields => (fields.lookup key).getD .null
  | _ => .null

/-- `value[key] = v`: `null` becomes an object, and what is neither panics. -/
def Json.setKey : Json → String → Json → Option Json
  | .null, key, v => some (.object [(key, v)])
  | .obj fields, key, v => some (.object (fields ++ [(key, v)]))
  | _, _, _ => none

def Json.int (n : Int64) : Json := .num (toString n)

/-! ## Metadata -/

/-- Merge `patch` into a source's metadata: a read, then an update of the whole map. -/
def patchSourceMetadata (source_id : Int) (patch : StringMap) : WriterM Unit := do
  let metadata ← query (·.sourceMetadata source_id)
  commit (.updateMetadata source_id (metadata.insertAll patch.entries))

/-- Replace a source's labels and metadata, except the two keys this archive's writer
maintains, where it has them. -/
def setSourceIdentity (source_id : Int) (labels metadata : StringMap) : WriterM Unit := do
  let stored ← query (·.sourceMetadata source_id)
  let kept := [keys.ENCODER, keys.WRITER_SESSIONS].filterMap fun key =>
    (stored.get? key).map (key, ·)
  commit (.setIdentity source_id labels (metadata.insertAll kept))

/-! ## Sessions -/

/-- The `writer_session` event of a resume. -/
def sessionEvent (session : String) (clock_anchor_wall_ns : Int64) (after : Option Int64) :
    Json :=
  .object [
    ("timestamp", .int clock_anchor_wall_ns),
    ("description", .str "source resumed by a new writer session"),
    ("kind", .str "writer_session"),
    ("details", .str (match after with
      | some ts => s!"previous session's last row at {ts}"
      | none => "previous session left no rows")),
    ("id", .str s!"writer_session:{session}")]

/-- Append an event to the stored timeline. `none` is the panic of indexing a stored value
that is no object. -/
def appendEvent (stored : Option Json) (event : Json) : Option Json := do
  let events := stored.getD (.object [("events", .arr [])])
  let events ← match events.getKey "events" with
    | .arr _ => some events
    | _ => events.setKey "events" (.arr [])
  match events.getKey "events" with
  | .arr es => events.setKey "events" (.arr (es ++ [event]))
  | _ => none

/-- Append a writer session to a source's metadata and, for a resume, an event. -/
def recordSession (env : Env) (turn : Nat) (source_id : Int) (clock_anchor_wall_ns : Int64)
    (resumed_after_ts : Option (Option Int64)) : WriterM Unit := do
  let session ← query fun _ => .ok (env.mint turn)
  let metadata ← query (·.sourceMetadata source_id)
  let sessions := match (metadata.get? keys.WRITER_SESSIONS).bind env.parseJson with
    | some (.arr sessions) => sessions
    | _ => []
  let entry := [("session", Json.str session), ("clock_anchor_wall_ns", .int clock_anchor_wall_ns),
    ("dendro", .str env.crate_version)]
  match resumed_after_ts with
  | none =>
    let sessions := sessions ++ [.object entry]
    patchSourceMetadata source_id
      (OrdMap.ofList [(keys.WRITER_SESSIONS, env.printJson (.arr sessions))])
  | some after =>
    let resumed := match after with
      | some ts => Json.int ts
      | none => .null
    let sessions := sessions ++ [.object (entry ++ [("resumed_after_ts", resumed)])]
    match appendEvent ((metadata.get? keys.EVENTS).bind env.parseJson)
        (sessionEvent session clock_anchor_wall_ns after) with
    | none => Prog.abort
    | some events =>
      patchSourceMetadata source_id (OrdMap.ofList [
        (keys.EVENTS, env.printJson events),
        (keys.WRITER_SESSIONS, env.printJson (.arr sessions))])

/-- Record that this writer beats a source, and give it its first beat. Best-effort. -/
def startHeartbeat (env : Env) (source_id : Int) : WriterM Unit := do
  let _ ← Prog.attempt (commit (.startHeartbeat source_id env.heartbeat_interval_ns))

/-- The `AddSource` arm up to its reply: the row, its session, its heartbeat and the
version of the encoder that will write it. -/
def addSource (env : Env) (seed : SourceMeta) (uuid : Option String) : WriterM Int := do
  let uuid ← match uuid with
    | some uuid => pure uuid
    | none => query fun _ => .ok (env.mint 0)
  let source_id := (← Prog.state).db.nextSourceId
  commit (.insertSource seed uuid)
  recordSession env 1 source_id seed.clock_anchor_wall_ns none
  startHeartbeat env source_id
  match env.encoder.version with
  | some version => patchSourceMetadata source_id (OrdMap.ofList [(keys.ENCODER, version)])
  | none => pure ()
  return source_id

/-- What a resumed handle is told. -/
structure Resumed where
  labels : StringMap
  last_ts : Option Int64
  deriving DecidableEq

/-- The writer-thread half of `Writer::resume_source`. -/
def resumeSource (env : Env) (source_id : Int) (clock_anchor_wall_ns : Int64) :
    WriterM Resumed := do
  let sources ← query fun a => .ok a.readSources
  match sources.find? (·.id = source_id) with
  | none => Prog.fail (.message s!"no source with id {source_id} to resume")
  | some src =>
    Prog.lift (checkEncoder source_id src.identity.metadata env.encoder)
    let (_, last_ts) ← query fun a => .ok (a.sourceTimeSpan source_id)
    match last_ts with
    | some floor =>
      if clock_anchor_wall_ns ≤ floor then
        Prog.fail (.timelineBackwards source_id clock_anchor_wall_ns floor)
    | none => pure ()
    commit (.markIncomplete source_id)
    recordSession env 0 source_id clock_anchor_wall_ns (some last_ts)
    return { labels := src.identity.labels, last_ts }

end Dendro
