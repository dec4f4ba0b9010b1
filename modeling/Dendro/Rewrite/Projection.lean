import Dendro.Rewrite.Staging

/-!
# Projecting a segment

`project_segment_columns` of `rewrite.rs` writes a segment again with the columns that a filter
keeps. A segment that was projected holds the same rows with the cells of those columns, and the
file metadata that it had (`projectSegmentColumns_selects`); one without a data column among them
is not written at all.
-/

namespace Dendro

/-- Which columns of a segment survive a projection. -/
structure ColumnFilter where
  keep : Field → Bool
  /-- Whether a column carries data, as opposed to being structural. -/
  is_data : Field → Bool
  /-- Whether a stream's segments are projected at all. -/
  projects : String → Bool

/-- The indices of the columns that are kept. -/
def keptIndices (keep : ColumnFilter) (fields : List Field) : List Nat :=
  (fields.zipIdx.filter fun e => keep.keep e.1).map Prod.snd

/-- Whether a column that is kept carries data. -/
def hasValue (keep : ColumnFilter) (fields : List Field) : Bool :=
  fields.any fun f => keep.keep f && keep.is_data f

/-- `Schema::project`. -/
def Schema.project (schema : Schema) (indices : List Nat) : Except String Schema := do
  let fields ← indices.mapM fun i => match schema.fields[i]? with
    | some f => Except.ok f
    | none => .error s!"Schema error: project index {i} out of bounds, max field {schema.fields.length}"
  return { schema with fields }

/-- The cells of a row at some indices. -/
def projectRow (indices : List Nat) (row : Row) : Row := indices.map row.cell

/-- `RecordBatch::project`, for a batch of a schema. -/
def projectBatch (schema : Schema) (indices : List Nat) (batch : List Row) :
    Except String (List Row) := do
  let _ ← schema.project indices
  return batch.map (projectRow indices)

section

variable {Props Writer : Type}

/-- Copy one batch into the projected file. -/
def writeProjected (pq : Parquet Props Writer) (schema : Schema) (indices : List Nat) (w : Writer)
    (batch : Except String (List Row)) : Except Error Writer := do
  let batch ← batch.mapError fun e => Error.message s!"failed to read a segment batch: {e}"
  let projected ← (projectBatch schema indices batch).mapError fun e =>
    Error.message s!"failed to project a segment batch: {e}"
  (pq.write w projected).mapError fun e =>
    .message s!"failed to write a projected segment batch: {e}"

/-- A segment with only the columns that are kept, or `none` when none of them carries data. -/
def projectSegmentColumns (pq : Parquet Props Writer) (bytes : Bytes) (keep : ColumnFilter)
    (props : Props) : Except Error (Option Bytes) := do
  let file ← (pq.openFile bytes).mapError fun e =>
    Error.message s!"failed to open a segment for projection: {e}"
  let props := withFileMetadata pq props file.fileKv
  let indices := keptIndices keep file.schema.fields
  if hasValue keep file.schema.fields then
    let projected_schema ← (file.schema.project indices).mapError fun e =>
      Error.message s!"failed to project a segment schema: {e}"
    let batches ← file.batches.mapError fun e =>
      Error.message s!"failed to read a segment for projection: {e}"
    let w ← (pq.try_new projected_schema props).mapError fun e =>
      Error.message s!"failed to open a projected segment writer: {e}"
    let w ← batches.foldlM (writeProjected pq file.schema indices) w
    let buf ← (pq.close w).mapError fun e =>
      Error.message s!"failed to finalize a projected segment: {e}"
    return some buf
  else return none

/-! ## Columns by index -/

variable {keep : ColumnFilter} {fields : List Field}

theorem keptIndices_getElem? : (keptIndices keep fields).map (fun i => fields[i]?) =
    (fields.filter keep.keep).map some := by
  have hget : (fields.zipIdx.filter fun e => keep.keep e.1).map (fun e => fields[e.2]?) =
      (fields.zipIdx.filter fun e => keep.keep e.1).map fun e => some e.1 :=
    List.map_congr_left fun e he => List.mem_zipIdx_iff_getElem?.mp (List.mem_filter.mp he).1
  have hfst : fields.filter keep.keep =
      (fields.zipIdx.filter fun e => keep.keep e.1).map Prod.fst := by
    nth_rewrite 1 [← List.zipIdx_map_fst 0 fields]
    exact List.filter_map
  rw [keptIndices, List.map_map, hfst, List.map_map]
  exact hget

/-- **The kept indices are in bounds**, and name the kept columns in their order. -/
theorem project_keptIndices (schema : Schema) : schema.project (keptIndices keep schema.fields) =
    .ok { schema with fields := schema.fields.filter keep.keep } := by
  have hall : ∀ (indices : List Nat) (kept : List Field),
      indices.map (fun i => schema.fields[i]?) = kept.map some →
        (indices.mapM fun i => match schema.fields[i]? with
          | some f => Except.ok f
          | none => .error s!"Schema error: project index {i} out of bounds, max field {schema.fields.length}") =
        .ok kept := by
    intro indices
    induction indices with
    | nil =>
        intro kept h
        obtain rfl : kept = [] := by simpa using h.symm
        rfl
    | cons i indices ih =>
        intro kept h
        rcases kept with _ | ⟨f, kept⟩
        · simp at h
        · simp only [List.map_cons, List.cons.injEq] at h
          rw [List.mapM_cons, h.1, ih kept h.2]
          rfl
  rw [Schema.project, hall _ _ keptIndices_getElem?]
  rfl

/-- The cells of a row at the kept indices are those under the kept columns. -/
theorem projectRow_keptIndices : ∀ {fields : List Field} {row : Row},
    row.length = fields.length →
      projectRow (keptIndices keep fields) row = Table.pick keep.keep fields row := by
  -- the induction is on what is left of both, behind cells that were passed over
  have hall : ∀ (fields : List Field) (before row : Row), row.length = fields.length →
      (((fields.zipIdx before.length).filter fun e => keep.keep e.1).map Prod.snd).map
        (Row.cell (before ++ row)) = Table.pick keep.keep fields row := by
    intro fields
    induction fields with
    | nil => intro before row _; rfl
    | cons f fields ih =>
        intro before row hlen
        rcases row with _ | ⟨c, row⟩
        · simp at hlen
        have hrest := ih (before ++ [c]) row (by simpa using hlen)
        rw [List.length_append, List.length_singleton, List.append_assoc,
          List.singleton_append] at hrest
        rw [List.zipIdx_cons, Table.pick, List.zip_cons_cons, List.filter_cons, List.filter_cons]
        by_cases hf : keep.keep f = true
        · rw [if_pos hf, if_pos hf, List.map_cons, List.map_cons, List.map_cons, hrest]
          have hcell : Row.cell (before ++ c :: row) before.length = c := by
            rw [Row.cell, List.getElem?_append_right (by omega)]
            simp
          rw [hcell]
          rfl
        · rw [if_neg hf, if_neg hf, hrest]
          rfl
  intro fields row hlen
  exact hall fields [] row hlen

/-! ## The projected segment -/

variable {pq : Parquet Props Writer}

theorem writeProjected_batches {schema : Schema} :
    ∀ {batches : List (Except String (List Row))} {w w' : Writer},
      batches.foldlM (writeProjected pq schema (keptIndices keep schema.fields)) w = .ok w' →
        ∃ rows : List (List Row), batches.mapM Except.toOption = some rows ∧
          (rows.map (List.map (projectRow (keptIndices keep schema.fields)))).foldlM pq.write w =
            .ok w'
  | [], w, w', h => by
      obtain rfl := Except.ok.inj h
      exact ⟨[], rfl, rfl⟩
  | batch :: batches, w, w', h => by
      obtain ⟨w₁, hw, htail⟩ := Except.foldlM_cons_eq_ok.mp h
      simp only [writeProjected, projectBatch, project_keptIndices, Except.bind_eq_ok,
        Except.mapError_eq_ok] at hw
      obtain ⟨rows, rfl, projected, ⟨-, -, hprojected⟩, hwrite⟩ := hw
      obtain rfl := Except.pure_eq_ok.mp hprojected
      obtain ⟨rest, hrest, hwritten⟩ := writeProjected_batches htail
      refine ⟨rows :: rest, ?_, Except.foldlM_cons_eq_ok.mpr ⟨w₁, hwrite, hwritten⟩⟩
      simp [List.mapM_cons, hrest, Except.toOption]

/-- What a projection makes of a file that it opened. -/
structure Projects (pq : Parquet Props Writer) (keep : ColumnFilter) (props : Props)
    (f : ParquetFile) (bytes' : Bytes) : Prop where
  /-- The rows are the same, each with the cells of the kept columns. -/
  table : ∃ t f', f.table = some t ∧ pq.openFile bytes' = .ok f' ∧
    f'.table = some (t.select keep.keep)
  /-- The file metadata travels along. -/
  metadata : ∃ f', pq.openFile bytes' = .ok f' ∧ f'.fileKv = writtenKv pq props f.fileKv

/-- **A projection keeps the rows, the kept columns' cells and the file's metadata**, and drops a
segment exactly when no column that it keeps carries data. -/
theorem projectSegmentColumns_selects (hpq : pq.RoundTrips) (hrect : pq.Rectangular)
    (hmeta : pq.KeepsMetadata) {bytes : Bytes} {props : Props} {out : Option Bytes}
    (h : projectSegmentColumns pq bytes keep props = .ok out) :
    ∃ f, pq.openFile bytes = .ok f ∧
      (out = none ↔ ∀ g ∈ f.schema.fields, keep.keep g → keep.is_data g = false) ∧
      ∀ bytes' ∈ out, Projects pq keep props f bytes' := by
  unfold projectSegmentColumns at h
  obtain ⟨f, hopen, h⟩ := Except.bind_eq_ok.mp h
  replace hopen := Except.mapError_eq_ok.mp hopen
  refine ⟨f, hopen, ?_⟩
  dsimp only at h
  split at h
  case isFalse hnone =>
    obtain rfl := Except.pure_eq_ok.mp h
    refine ⟨iff_of_true rfl fun g hg hkeep => ?_, nofun⟩
    by_contra hdata
    exact hnone (List.any_eq_true.mpr ⟨g, hg, by simp [hkeep, hdata]⟩)
  case isTrue hsome =>
    simp only [Except.bind_eq_ok, Except.mapError_eq_ok, project_keptIndices, Except.ok.injEq,
      exists_eq_left', Except.pure_eq_ok] at h
    obtain ⟨batches, hbatches, w, hnew, w', hfold, buf, hclose, rfl⟩ := h
    obtain ⟨rows, hrows, hwritten⟩ := writeProjected_batches hfold
    have hread : f.rows = some rows.flatten := by simp [ParquetFile.rows, hbatches, hrows]
    refine ⟨iff_of_false (by simp) fun hnone => ?_, ?_⟩
    · obtain ⟨g, hg, hgood⟩ := List.any_eq_true.mp hsome
      obtain ⟨hkeep, hdata⟩ := Bool.and_eq_true_iff.mp hgood
      rw [hnone g hg hkeep] at hdata
      cases hdata
    · intro bytes' hbytes'
      obtain rfl : buf = bytes' := Option.some.inj hbytes'
      obtain ⟨f', hopen', hfields', hrows'⟩ := hpq.written _ _ _ _ _ _ hnew hwritten hclose
      obtain ⟨g, hopeng, -, hkv, -⟩ := hmeta.written _ _ _ _ _ _ hnew hwritten hclose
      constructor
      · refine ⟨{ columns := f.schema.fields, rows := rows.flatten }, f', ?_, hopen', ?_⟩
        · rw [ParquetFile.table, hread]
          rfl
        · rw [ParquetFile.table, hrows', hfields', Option.map_some]
          refine congrArg some (congrArg (Table.mk _) ?_)
          rw [← List.map_flatten]
          exact List.map_congr_left fun row hrow =>
            projectRow_keptIndices (hrect bytes f _ hopen hread row hrow)
      · exact ⟨g, hopeng, hkv.trans (withFileMetadata_kv hmeta props f.fileKv)⟩

end

end Dendro
