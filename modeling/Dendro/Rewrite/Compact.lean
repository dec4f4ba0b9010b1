import Mathlib.Data.UInt
import Dendro.Archive.Disk
import Dendro.Lib.Prog
import Dendro.Rewrite.Parquet

/-!
# Compaction

`compact_stream_with` of `rewrite.rs` and the concatenation it is made of. A run is planned
from the catalog alone, then cut where the schema policy or the metadata merge refuses a
segment, and replaced by its merge in one transaction.

The fields a run has seen are one list here, each with the number of segments that carry
it; the source keeps the counts beside the list and an index from the names into it.
-/

namespace Dendro

/-- What a merge does when two segments do not have the same schema. -/
inductive SchemaPolicy where
  | stopAtChange
  | unionFields
  deriving DecidableEq, Repr

/-- One segment of a run, as a `MetadataMerge` sees it. -/
structure MergeInput where
  key_value : List KeyValue
  fields : List Field
  rows : UInt64

/-- How a run's file key-value metadata combines. `extend` may change what it keeps even
where it refuses the segment. -/
structure MetadataMerge (Run : Type) where
  start : MergeInput → Option Run
  extend : Run → MergeInput → Bool × Run
  finish : Run → List KeyValue

/-- What one compaction pass aims for. -/
structure CompactSpec (Props : Type) where
  target_rows : UInt64
  writer_props : Option Props
  schema : SchemaPolicy

/-- What one compaction pass did. -/
structure Compacted where
  before : Nat
  after : Nat
  merges : Nat
  deriving DecidableEq, Repr

/-- A program that rewrites a file in place. -/
abbrev RewriteM := Prog Disk StorageFailure Error

namespace RewriteM

def query {α : Type} (f : Archive → α) : RewriteM α :=
  Prog.read storageError fun d => .ok (f d.db)

def commit (w : Write) : RewriteM Unit := Prog.call storageError fun d => d.run w

end RewriteM

section

variable {Props Writer Run : Type}

/-! ## The schema of a run -/

/-- What is known of a run so far. -/
structure RunState (Run : Type) where
  opened : List ParquetFile
  run : Option Run
  /-- `StopAtChange`: the first segment's schema. -/
  first : Option Schema
  /-- `UnionFields`: the fields in the order they first appear, with how many segments carry
  each. -/
  order : List (Field × Nat)

/-- A run with nothing in it. -/
def RunState.empty : RunState Run := { opened := [], run := none, first := none, order := [] }

/-- `file_kv`: the file's key-value metadata without Arrow's schema entry. -/
def ParquetFile.fileKv (f : ParquetFile) : List KeyValue :=
  (f.key_value.getD []).filter (·.key ≠ "ARROW:schema")

/-- The schema without the entries that the file's metadata also carries. -/
def ParquetFile.ownSchema (f : ParquetFile) : Schema :=
  { f.schema with
    metadata := f.schema.metadata.filter fun k _ => !f.fileKv.any fun e => e.key = k }

def ParquetFile.mergeInput (f : ParquetFile) : MergeInput :=
  { key_value := f.fileKv, fields := f.ownSchema.fields
    rows := UInt64.ofNat f.num_rows.toInt.toNat }

/-- Whether the policy lets a segment of this schema into the run. -/
def schemaAdmitted (policy : SchemaPolicy) (r : RunState Run) (schema : Schema) : Bool :=
  match policy with
  | .stopAtChange => match r.first with
    | none => true
    | some first => first = schema
  | .unionFields => schema.fields.all fun f =>
    match r.order.find? (·.1.name = f.name) with
    | none => true
    | some seen => seen.1 = f

/-- Count a field of a segment that joins the run. -/
def carry (order : List (Field × Nat)) (f : Field) : List (Field × Nat) :=
  if order.any (·.1.name = f.name) then
    order.map fun e => if e.1.name = f.name then (e.1, e.2 + 1) else e
  else order ++ [(f, 1)]

/-- The run with one more segment. -/
def RunState.push (policy : SchemaPolicy) (r : RunState Run) (file : ParquetFile) (run : Run) :
    RunState Run :=
  { opened := r.opened ++ [file]
    run := some run
    first := match policy with
      | .stopAtChange => r.first.or (some file.ownSchema)
      | .unionFields => r.first
    order := match policy with
      | .stopAtChange => r.order
      | .unionFields => file.ownSchema.fields.foldl carry r.order }

/-- Ask the merge about a segment: what it keeps, and whether the run goes on. -/
def judge (merge : MetadataMerge Run) (run : Option Run) (input : MergeInput) :
    Option Run × Option Run :=
  match run with
  | none => (none, merge.start input)
  | some r =>
    let (go, r) := merge.extend r input
    (some r, if go then some r else none)

/-- The schema a merged segment of `consumed` segments is written with. -/
def RunState.schema (r : RunState Run) (consumed : Nat) : Schema :=
  match r.first with
  | some schema => schema
  | none =>
    { fields := r.order.map fun e =>
        if e.2 = consumed then e.1 else { e.1 with nullable := true }
      metadata := ∅ }

/-! ## Concatenation -/

/-- Open the segments a run reaches, one at a time. -/
def openRun (pq : Parquet Props Writer) (merge : MetadataMerge Run) (policy : SchemaPolicy)
    (stream : String) (fetch : Nat → RewriteM (Option Bytes)) :
    RunState Run → List Nat → RewriteM (RunState Run)
  | r, [] => pure r
  | r, seq :: seqs => do
      match ← fetch seq with
      | none => return r
      | some blob =>
        match pq.openFile blob with
        | .error e => Prog.fail (.message s!"failed to open a {stream} segment to merge: {e}")
        | .ok file =>
          if schemaAdmitted policy r file.ownSchema then
            match judge merge r.run file.mergeInput with
            | (_, some run) => openRun pq merge policy stream fetch (r.push policy file run) seqs
            | (run, none) => return { r with run }
          else return r

/-- `with_file_metadata`: a carried entry replaces the properties' entry for its key. -/
def withFileMetadata (pq : Parquet Props Writer) (props : Props) (carried : List KeyValue) :
    Props :=
  let carried := carried.filter (·.key ≠ "ARROW:schema")
  if carried.isEmpty then props
  else
    let kv := ((pq.key_value_metadata props).getD []).filter fun e =>
      !carried.any fun c => c.key = e.key
    pq.set_key_value_metadata props (some (kv ++ carried))

/-- A batch of one of the inputs under the merged schema. -/
def widenBatch (pq : Parquet Props Writer) (stream : String) (schema : Schema)
    (fields : List Field) (batch : List Row) : Except Error (List Row) :=
  if fields = schema.fields then .ok batch
  else (pq.record_batch schema (batch.map (widenRow schema fields))).mapError fun e =>
    .message s!"failed to widen a {stream} batch: {e}"

/-- Copy one batch into the merged file. -/
def writeBatch (pq : Parquet Props Writer) (stream : String) (schema : Schema)
    (fields : List Field) (w : Writer) (batch : Except String (List Row)) :
    Except Error Writer := do
  let batch ← batch.mapError fun e =>
    Error.message s!"failed to read a {stream} batch to merge: {e}"
  let batch ← widenBatch pq stream schema fields batch
  (pq.write w batch).mapError fun e =>
    .message s!"failed to write a merged {stream} batch: {e}"

/-- Copy one segment's rows into the merged file. -/
def writeFile (pq : Parquet Props Writer) (stream : String) (schema : Schema) (w : Writer)
    (file : ParquetFile) : Except Error Writer := do
  let batches ← file.batches.mapError fun e =>
    Error.message s!"failed to read a {stream} segment to merge: {e}"
  batches.foldlM (writeBatch pq stream schema file.schema.fields) w

/-- The merged file. -/
def writeMerged (pq : Parquet Props Writer) (stream : String) (schema : Schema) (props : Props)
    (opened : List ParquetFile) : Except Error Bytes := do
  let w ← (pq.try_new schema props).mapError fun e =>
    Error.message s!"failed to open a merged {stream} writer: {e}"
  let w ← opened.foldlM (writeFile pq stream schema) w
  (pq.close w).mapError fun e =>
    .message s!"failed to finish a merged {stream} segment: {e}"

/-- Concatenate the leading run of the segments that the policy and the merge admit, and
say how many were consumed; under two, nothing was written. -/
def concatParquet (pq : Parquet Props Writer) (seqs : List Nat)
    (fetch : Nat → RewriteM (Option Bytes)) (props : Props) (policy : SchemaPolicy)
    (merge : MetadataMerge Run) (stream : String) : RewriteM (Bytes × Nat) := do
  let r ← openRun pq merge policy stream fetch .empty seqs
  let consumed := r.opened.length
  match r.run.filter fun _ => consumed ≥ 2 with
  | none => return ([], 1)
  | some run =>
    let schema := r.schema consumed
    let props := withFileMetadata pq props (merge.finish run)
    let bytes ← Prog.lift (writeMerged pq stream schema props r.opened)
    return (bytes, consumed)

/-! ## The pass -/

/-- How many of the segments ahead fit the target, over the rows planned already. -/
def fits (target_rows : UInt64) : UInt64 → List (Nat × SegmentMeta) → Nat
  | _, [] => 0
  | rows, m :: metas =>
    if rows + m.2.rows ≤ max target_rows 1 then 1 + fits target_rows (rows + m.2.rows) metas
    else 0

/-- The catalog facts of the merge of a run. -/
def runMeta (run : List (Nat × SegmentMeta)) (first last : SegmentMeta) : SegmentMeta :=
  { rows := (run.map (·.2.rows)).sum, first_ts := first.first_ts, last_ts := last.last_ts }

/-- The pass from the segment at `pos` on. -/
def compactFrom (pq : Parquet Props Writer) (source_id : Int) (stream : String)
    (spec : CompactSpec Props) (merge : MetadataMerge Run) (metas : List (Nat × SegmentMeta))
    (pos : Nat) (done : Compacted) : RewriteM Compacted := do
  if pos < metas.length then
    let planned := fits spec.target_rows 0 (metas.drop pos)
    if planned < 2 then
      compactFrom pq source_id stream spec merge metas (max (pos + 1) (pos + planned)) done
    else
      let seqs := ((metas.drop pos).take planned).map Prod.fst
      let fetch := fun seq => RewriteM.query fun a => a.readSegmentBytes source_id stream seq
      let (merged, consumed) ← concatParquet pq seqs fetch
        (spec.writer_props.getD pq.writer_props) spec.schema merge stream
      if consumed < 2 then
        compactFrom pq source_id stream spec merge metas (pos + 1) done
      else
        let run := (metas.drop pos).take consumed
        match run.head?, run.getLast? with
        | some first, some last =>
          RewriteM.commit (.merge source_id stream (run.map Prod.fst) first.1
            (runMeta run first.2 last.2) merged)
          compactFrom pq source_id stream spec merge metas (pos + consumed)
            { done with merges := done.merges + 1, after := done.after - (consumed - 1) }
        | _, _ => Prog.abort
  else return done
termination_by metas.length - pos

/-- Merge a stream's small adjacent segments into larger ones, in place. -/
def compactStreamWith (pq : Parquet Props Writer) (source_id : Int) (stream : String)
    (spec : CompactSpec Props) (merge : MetadataMerge Run) : RewriteM Compacted := do
  let metas ← RewriteM.query fun a => a.readSegmentMeta source_id stream
  compactFrom pq source_id stream spec merge metas 0
    { before := metas.length, after := metas.length, merges := 0 }

end

end Dendro
