import Dendro.Writer.Session

/-!
# The writer loop

The arms of `writer_loop`, one handler for each message, and the functions they call:
`commit_tick`, `seal_batch`, `adopt_segment` and `retry_deferred_seals`. An error that a
handler returns stops the thread; an answer to the caller is part of the handler's value.
-/

namespace Dendro

open WriterM

/-! ## Ticks -/

/-- Whether a resumed source's floor refuses a tick of its rows. -/
def belowFloor (m : Caches) (tick : Int × List WalRow) : Bool :=
  match m.floors.get? tick.1 with
  | some floor => tick.2.any fun r => r.ts ≤ floor
  | none => false

/-- Whether a row is at or below its stream's newest sealed row. -/
def shadows (m : Caches) (source_id : Int) (r : WalRow) : Bool :=
  match m.watermarks.get? (streamKey source_id r.stream) with
  | some w => r.ts ≤ w
  | none => false

/-- A tick without its shadowed rows. The common tick is passed on as it is. -/
def dropShadowed (m : Caches) (ticks : List (Int × List WalRow)) : List (Int × List WalRow) :=
  if ticks.any fun t => t.2.any (shadows m t.1) then
    ticks.filterMap fun t =>
      let keep := t.2.filter fun r => !shadows m t.1 r
      if keep.isEmpty then none else some (t.1, keep)
  else ticks

/-- `WriterHealth::count_shadowed`, for every shadowed row of a tick. -/
def countShadowed (m : Caches) (ticks : List (Int × List WalRow)) : OrdMap Int UInt64 :=
  ticks.foldl (fun counts t =>
    (t.2.filter (shadows m t.1)).foldl (fun counts _ =>
      counts.insert t.1 ((counts.get? t.1).getD 0 + 1)) counts) m.shadowed

/-- What `commit_tick` will try to commit. -/
def admitted (m : Caches) (ticks : List (Int × List WalRow)) : List (Int × List WalRow) :=
  dropShadowed m (ticks.filter fun t => !belowFloor m t)

/-- One source's part of a tick whose batch a constraint refused. -/
def commitSource (any : Bool) (tick : Int × List WalRow) : WriterM Bool := do
  match ← Prog.attempt (withRetries (commit (.walRows [tick]))) with
  | .ok () => return true
  | .error e =>
    if e.isConstraint then return any
    else if e.isRetryable then
      dropped e
      return any
    else Prog.fail e

/-- Commit one tick's rows for every source in the archive. -/
def commitTick (ticks : List (Int × List WalRow)) : WriterM Unit := do
  let m ← remembered
  let kept := ticks.filter fun t => !belowFloor m t
  remember fun m => { m with shadowed := countShadowed m kept }
  let ticks := admitted m ticks
  if ticks.isEmpty then return ()
  match ← Prog.attempt (withRetries (commit (.walRows ticks))) with
  | .ok () => committed
  | .error e =>
    if e.isConstraint then
      let any ← Prog.foldEach commitSource false ticks
      if any then committed
    else if e.isRetryable then dropped e
    else Prog.fail e

/-! ## Seals -/

/-- What a batch encoded so far: the segments, and the batch's clock observation. -/
abbrev Batch := List Encoded × Option (Int64 × Int64)

/-- One part of a stream's seal, numbered and cataloged. -/
def encodedPart (stream : String) (seq : Nat) (segment : Segment) : Encoded :=
  { stream, seq, seg_meta := segment.segMeta, bytes := segment.bytes,
    caller_index := segment.index }

/-- The parts numbered from `first_seq` on. -/
def numbered (stream : String) (first_seq : Nat) (parts : List Segment) : List Encoded :=
  parts.zipIdx first_seq |>.map fun p => encodedPart stream p.2 p.1

/-- The next `seq` of a stream. -/
def nextSeq (m : Caches) (source_id : Int) (stream : String) : Nat :=
  (m.next_seq.get? (streamKey source_id stream)).getD 0

/-- The newer of the batch's observation and a row's own `(ts, wall_offset)`; a later stream
wins a tie. -/
def observe (observation : Option (Int64 × Int64)) (r : WalRow) : Option (Int64 × Int64) :=
  match observation with
  | some (seen, offset) => if seen ≤ r.ts then some (r.ts, r.wall_offset) else some (seen, offset)
  | none => some (r.ts, r.wall_offset)

/-- Read and encode one stream of a batch. -/
def encodeStream (env : Env) (source_id : Int) (uuid : Option String) (max_rows : Nat)
    (acc : Batch) (stream : String) : WriterM Batch := do
  let rows ← query fun a => .ok (a.liveWal source_id stream)
  if rows.isEmpty then
    -- only decides whether to warn about a stream nobody has written
    let _ ← query fun a => .ok (a.readSegments source_id stream)
    return acc
  let parts ← Prog.lift
    (splitSeal env.encoder { source_id, source_uuid := uuid, stream } rows max_rows)
  match parts.getLast? with
  | none => return acc
  | some tail =>
    match rows.reverse.find? (·.ts = tail.last_ts) with
    | none => Prog.abort
    | some segment_last =>
      let m ← remembered
      return (acc.1 ++ numbered stream (nextSeq m source_id stream) parts,
        observe acc.2 segment_last)

/-- The caches after a seal committed: `next_seq` and the watermark of every segment. -/
def sealed (source_id : Int) (m : Caches) (encoded : List Encoded) : Caches :=
  encoded.foldl (fun m e =>
    { m with
      next_seq := m.next_seq.insert (streamKey source_id e.stream) (e.seq + 1)
      watermarks := m.watermarks.insert (streamKey source_id e.stream) e.seg_meta.last_ts }) m

/-- The last segment of each run of one stream's parts. -/
def lastParts : List Encoded → List Encoded
  | [] => []
  | [e] => [e]
  | e :: next :: es =>
    if next.stream = e.stream then lastParts (next :: es) else e :: lastParts (next :: es)

/-- Encode one batch's segments, insert them with the batch's clock observation in one
transaction, then prune the sealed streams' WAL outside it. -/
def sealBatch (env : Env) (source_id : Int) (batch : List String) (max_rows : Nat) :
    WriterM Unit := do
  let uuid ← query (·.sourceUuid source_id)
  let (encoded, observation) ←
    Prog.foldEach (encodeStream env source_id uuid max_rows) ([], none) batch
  commit (.seal source_id batch encoded observation)
  remember fun m => sealed source_id m encoded
  Prog.forEach (fun e => commit (.pruneWal source_id e.stream e.seg_meta.last_ts))
    (lastParts encoded)

/-- The streams of a batch that go, or stay, on the deferred list after a retryable failure,
each with the smallest cap asked for it. -/
def deferBatch (source_id : Int) (batch : List String) (max_rows : Nat)
    (deferred : OrdMap StreamKey Nat) : OrdMap StreamKey Nat :=
  batch.foldl (fun held stream =>
    let key := streamKey source_id stream
    held.insert key (min ((held.get? key).getD max_rows) max_rows)) deferred

/-- The streams of a batch that sealed leave the list. -/
def undeferBatch (source_id : Int) (batch : List String) (deferred : OrdMap StreamKey Nat) :
    OrdMap StreamKey Nat :=
  batch.foldl (fun held stream => held.erase (streamKey source_id stream)) deferred

/-- The `Seal` arm. A retryable failure that outlasts the retries defers the batch. -/
def handleSeal (env : Env) (source_id : Int) (batch : List String) (max_rows : Nat) :
    WriterM Unit := do
  match ← Prog.attempt (withRetries (sealBatch env source_id batch max_rows)) with
  | .ok () => remember fun m => { m with deferred := undeferBatch source_id batch m.deferred }
  | .error e =>
    if e.isRetryable then
      remember fun m => { m with deferred := deferBatch source_id batch max_rows m.deferred }
    else Prog.fail e

/-! ## Adoption -/

/-- Insert a segment built elsewhere at this stream's next `seq`; `false` when the stream's
watermark already covers it. -/
def adoptSegment (source_id : Int) (segment : Adopted) : WriterM Bool := do
  let { stream, seg_meta, .. } := segment
  let key := streamKey source_id stream
  if seg_meta.rows = 0 || seg_meta.last_ts < seg_meta.first_ts then
    Prog.fail (.message
      s!"source {source_id}: the segment offered for `{stream}` claims {seg_meta.rows} row(s) over              [{seg_meta.first_ts}, {seg_meta.last_ts}], which is not a segment that can exist")
  else
    let m ← remembered
    match m.watermarks.get? key with
    | some w =>
      if seg_meta.last_ts ≤ w then return false
      if seg_meta.first_ts ≤ w then
        Prog.fail (.message
          s!"source {source_id}: the segment offered for `{stream}` spans [{seg_meta.first_ts}, {seg_meta.last_ts}], which                  straddles the stream's newest sealed row ({w}); its rows at or below {w}                  could never be read, and splitting it would mean decoding it")
      insert m
    | none => insert m
where
  /-- The rest of the checks, and the insert. -/
  insert (m : Caches) : WriterM Bool := do
    let { stream, seg_meta, .. } := segment
    let key := streamKey source_id stream
    let live ← query fun a => .ok (a.liveWalSpan source_id stream)
    match live.first_ts.filter (· ≤ seg_meta.last_ts) with
    | some first =>
      Prog.fail (.message
        s!"source {source_id}: the segment offered for `{stream}` ends at {seg_meta.last_ts}, at or                  after an unsealed row already in the WAL ({first}); adopting it would                  shadow rows no segment holds")
    | none =>
      let seq := nextSeq m source_id stream
      commit (.adopt source_id segment seq)
      remember fun m => { m with
        next_seq := m.next_seq.insert key (seq + 1)
        watermarks := m.watermarks.insert key seg_meta.last_ts }
      return true

/-! ## Retention -/

/-- One deferred stream before a retention pass; after the first retryable failure the rest
are held without being tried. -/
def retryDeferredSeal (env : Env) (source_id : Int) (held : List (String × Nat))
    (entry : String × Nat) : WriterM (List (String × Nat)) := do
  if !held.isEmpty then return held ++ [entry]
  match ← Prog.attempt (withRetries (sealBatch env source_id [entry.1] entry.2)) with
  | .ok () => return held
  | .error e => if e.isRetryable then return held ++ [entry] else return held

/-- Seal a source's deferred streams and return the ones still unsealed. -/
def retryDeferredSeals (env : Env) (source_id : Int) : WriterM (List String) := do
  let listed := ((← remembered).deferred.group source_id).entries
  remember fun m =>
    { m with deferred := m.deferred.filter fun k _ => (ofLex k).1 ≠ source_id }
  let held ← Prog.foldEach (retryDeferredSeal env source_id) [] listed
  remember fun m =>
    { m with deferred := m.deferred.insertAll (held.map fun e => (streamKey source_id e.1, e.2)) }
  return held.map Prod.fst

/-- `ArchiveMut::evict_before` and its form with a floor: the caller row names are listed
before the pass only where there is a floor. -/
def evictBefore (source_id : Int) (cutoff_ts : Int64) (floor : Option Archive.CallerRowFloor) :
    WriterM Archive.Evicted := do
  let names ← match floor with
    | some _ => query fun a => .ok (a.callerRowStreams source_id)
    | none => pure []
  let a := (← Prog.state).db
  commit (.evict source_id cutoff_ts floor names)
  return a.evictedCounts (← Prog.state).db (a.liveBefore source_id cutoff_ts)

/-- `ArchiveMut::evict_streams`: the streams, and the names of the caller's store that are
not streams, that the predicate accepts. -/
def evictStreamsBefore (source_id : Int) (cutoff_ts : Int64) (accepts : String → Bool)
    (floor : Option Archive.CallerRowFloor) : WriterM Archive.Evicted := do
  let streams ← query fun a => .ok (a.allStreams source_id)
  let names ← query fun a => .ok (a.callerRowStreams source_id)
  let streams := (streams ++ names.filter fun n => !streams.contains n).filter accepts
  let a := (← Prog.state).db
  commit (.evictStreams source_id cutoff_ts floor streams)
  return a.evictedCounts (← Prog.state).db (a.liveBeforeIn source_id cutoff_ts streams)

/-- Pages given back to the filesystem: no table changes. -/
def reclaim : WriterM Unit := query fun _ => .ok ()

/-- The `Evict` arm. -/
def handleEvict (env : Env) (source_id : Int) (cutoff_ts : Int64)
    (streams : Option (String → Bool)) (floor : Option Archive.CallerRowFloor) :
    WriterM (Except Error Archive.Evicted) := do
  let held ← retryDeferredSeals env source_id
  let held := held.filter fun s => match streams with
    | some accepts => accepts s
    | none => true
  let streams := if held.isEmpty then streams else
    some fun s => !held.contains s && match streams with
      | some accepts => accepts s
      | none => true
  let evicted ← Prog.attempt (match streams with
    | some accepts => evictStreamsBefore source_id cutoff_ts accepts floor
    | none => evictBefore source_id cutoff_ts floor)
  match evicted with
  | .error e => return .error e
  | .ok evicted =>
    let _ ← Prog.attempt reclaim
    return .ok { evicted with held_streams := held.length }

/-! ## Messages -/

/-- What reaches the thread through its channel. -/
inductive Msg where
  | addSource (seed : SourceMeta) (uuid : Option String)
  | resumeSource (source_id : Int) (clock_anchor_wall_ns : Int64)
  | wal (ticks : List (Int × List WalRow))
  | seal (source_id : Int) (batch : List String) (max_rows : Nat)
  | adoptSegment (source_id : Int) (segment : Adopted)
  | evict (source_id : Int) (cutoff_ts : Int64) (streams : Option (String → Bool))
      (floor : Option Archive.CallerRowFloor)
  | updateMetadata (source_id : Int) (patch : StringMap)
  | setIdentity (source_id : Int) (labels metadata : StringMap)
  | clockOffset (source_id : Int) (ts offset_ns : Int64)
  | callerRows (source_id : Int) (stream : String) (rows : List CallerRow)
  | finalize (source_id : Int) (clock_offset : Int64 × Int64)
  | sync
  | shutdown

/-- What the sender of a message gets back. -/
inductive Reply where
  /-- Handled, with nothing to say. -/
  | done
  | added (source_id : Except Error Int)
  | resumed (resumed : Except Error Resumed)
  | adopted (inserted : Except Error Bool)
  | evicted (evicted : Except Error Archive.Evicted)
  /-- The thread was asked to stop and did. -/
  | stopped

/-- A message of data: retried, and a run of failures stops the writer. -/
def commitData (w : Write) : WriterM Unit := do
  match ← Prog.attempt (withRetries (commit w)) with
  | .ok () => committed
  | .error e => if e.isRetryable then dropped e else Prog.fail e

/-- One turn of `writer_loop` on a message. -/
def handle (env : Env) : Msg → WriterM Reply
  | .addSource seed uuid => do
      let inserted ← Prog.attempt (addSource env seed uuid)
      match inserted with
      | .ok id =>
        remember fun m => { m with added := m.added + 1, beating := m.beating.insert id () }
      | .error _ => pure ()
      return .added inserted
  | .resumeSource source_id clock_anchor_wall_ns => do
      let resumed ← Prog.attempt (resumeSource env source_id clock_anchor_wall_ns)
      match resumed with
      | .ok r =>
        startHeartbeat env source_id
        remember fun m => { m with
          floors := match r.last_ts with
            | some floor => m.floors.insert source_id floor
            | none => m.floors
          added := m.added + 1
          beating := m.beating.insert source_id () }
      | .error _ => pure ()
      return .resumed resumed
  | .wal ticks => do
      commitTick ticks
      return .done
  | .seal source_id batch max_rows => do
      handleSeal env source_id batch max_rows
      return .done
  | .adoptSegment source_id segment => do
      return .adopted (← Prog.attempt (withRetries (adoptSegment source_id segment)))
  | .evict source_id cutoff_ts streams floor => do
      return .evicted (← handleEvict env source_id cutoff_ts streams floor)
  | .updateMetadata source_id patch => do
      let _ ← Prog.attempt (withRetries (patchSourceMetadata source_id patch))
      return .done
  | .setIdentity source_id labels metadata => do
      let _ ← Prog.attempt (withRetries (setSourceIdentity source_id labels metadata))
      return .done
  | .clockOffset source_id ts offset_ns => do
      commitData (.clockOffset source_id ts offset_ns)
      return .done
  | .callerRows source_id stream rows => do
      commitData (.callerRows source_id stream rows)
      return .done
  | .finalize source_id clock_offset => do
      withRetries (commit (.finalize source_id clock_offset.1 clock_offset.2))
      remember fun m => { m with
        finalized := m.finalized + 1
        beating := m.beating.erase source_id }
      return .done
  | .sync => return .done
  | .shutdown => do
      let m ← remembered
      if m.added > 0 && m.finalized = m.added then reclaim
      return .stopped

/-- The heartbeat that the loop's timer bumps. Best-effort. -/
def beatTimer : WriterM Unit := do
  let m ← remembered
  if !m.beating.entries.isEmpty then
    let _ ← Prog.attempt (commit (.beat m.beating.keys))

end Dendro
