import Dendro.Lib.Fallible
import Dendro.Rewrite.Runs

/-!
# What a concatenation writes

The segments a run reaches are opened in order (`Reaches.opened`), and whatever cut the run
short, the schema it is written with covers them: under `StopAtChange` it is every
segment's own, under `UnionFields` it has every name of every segment.

With the library's round trip the merged file then decodes to the segments' rows one after
the other, each as it was or widened with nulls (`decodeRows_writeMerged`).
-/

namespace Dendro

open Relation

section

variable {Props Writer Run : Type} {pq : Parquet Props Writer}

/-! ## The run's schema -/

/-- What the run's schema owes the segments it has opened. -/
structure RunInv (policy : SchemaPolicy) (r : RunState Run) : Prop where
  stop : policy = .stopAtChange → ∀ f ∈ r.opened, r.first = some f.ownSchema
  first : policy = .unionFields → r.first = none
  union : policy = .unionFields →
    ∀ f ∈ r.opened, ∀ g ∈ f.schema.fields, ∃ e ∈ r.order, e.1.name = g.name

theorem runInv_empty (policy : SchemaPolicy) : RunInv policy (.empty : RunState Run) :=
  ⟨fun _ _ hf => absurd hf List.not_mem_nil, fun _ => rfl,
    fun _ _ hf => absurd hf List.not_mem_nil⟩

/-- Counting a field adds its name and loses none. -/
theorem carry_name (order : List (Field × Nat)) (f : Field) :
    (∃ e ∈ carry order f, e.1.name = f.name) ∧
      ∀ name, (∃ e ∈ order, e.1.name = name) → ∃ e ∈ carry order f, e.1.name = name := by
  unfold carry
  split
  · rename_i hany
    have hkeep : ∀ name, (∃ e ∈ order, e.1.name = name) →
        ∃ e ∈ order.map fun e => if e.1.name = f.name then (e.1, e.2 + 1) else e,
          e.1.name = name := by
      rintro name ⟨e, he, rfl⟩
      refine ⟨_, List.mem_map.mpr ⟨e, he, rfl⟩, ?_⟩
      split <;> rfl
    refine ⟨hkeep _ ?_, hkeep⟩
    simpa using hany
  · refine ⟨⟨(f, 1), by simp, rfl⟩, ?_⟩
    rintro name ⟨e, he, rfl⟩
    exact ⟨e, by simp [he], rfl⟩

theorem foldl_carry_name : ∀ (fields : List Field) (order : List (Field × Nat)),
    (∀ g ∈ fields, ∃ e ∈ fields.foldl carry order, e.1.name = g.name) ∧
      ∀ name, (∃ e ∈ order, e.1.name = name) →
        ∃ e ∈ fields.foldl carry order, e.1.name = name
  | [], _ => ⟨by simp, fun _ h => h⟩
  | f :: fields, order => by
      obtain ⟨hself, hkeep⟩ := carry_name order f
      obtain ⟨hrest, hfold⟩ := foldl_carry_name fields (carry order f)
      refine ⟨fun g hg => ?_, fun name h => hfold name (hkeep name h)⟩
      rcases List.mem_cons.mp hg with rfl | hg
      · exact hfold _ hself
      · exact hrest g hg

/-- A segment the policy admits keeps the schema of the run what it owes. -/
theorem RunInv.push {policy : SchemaPolicy} {r : RunState Run} {file : ParquetFile}
    (h : RunInv policy r) (hadm : schemaAdmitted policy r file.ownSchema = true) (run : Run) :
    RunInv policy (r.push policy file run) := by
  cases policy with
  | stopAtChange =>
      refine ⟨fun _ f hf => ?_, fun hp => absurd hp (by simp), fun hp => absurd hp (by simp)⟩
      have hfirst : (r.push .stopAtChange file run).first = some file.ownSchema := by
        show r.first.or (some file.ownSchema) = _
        rcases hr : r.first with _ | first
        · rfl
        · simp only [schemaAdmitted, hr, decide_eq_true_eq] at hadm
          rw [hadm]
          rfl
      rcases List.mem_append.mp hf with hf | hf
      · have hold := h.stop rfl f hf
        rw [hfirst]
        rw [RunState.push] at hfirst
        simpa [hold] using hfirst.symm
      · rw [List.mem_singleton.mp hf]
        exact hfirst
  | unionFields =>
      obtain ⟨hself, hkeep⟩ := foldl_carry_name file.ownSchema.fields r.order
      refine ⟨fun hp => absurd hp (by simp), fun _ => h.first rfl, fun _ f hf g hg => ?_⟩
      rcases List.mem_append.mp hf with hf | hf
      · exact hkeep _ (h.union rfl f hf g hg)
      · rw [List.mem_singleton.mp hf] at hg
        exact hself g hg

/-- **The merged schema covers every segment of the run**: it is each segment's own, or has
every name of it. -/
theorem RunInv.covers {policy : SchemaPolicy} {r : RunState Run} (h : RunInv policy r)
    {f : ParquetFile} (hf : f ∈ r.opened) (consumed : Nat) :
    match policy with
    | .stopAtChange => f.schema.fields = (r.schema consumed).fields
    | .unionFields => ∀ g ∈ f.schema.fields, ∃ g' ∈ (r.schema consumed).fields,
        g'.name = g.name := by
  cases policy with
  | stopAtChange =>
      have hfirst := h.stop rfl f hf
      simp only [RunState.schema, hfirst]
      rfl
  | unionFields =>
      intro g hg
      obtain ⟨e, he, hname⟩ := h.union rfl f hf g hg
      simp only [RunState.schema, h.first rfl]
      refine ⟨_, List.mem_map.mpr ⟨e, he, rfl⟩, ?_⟩
      split <;> exact hname

/-! ## Opening a run -/

/-- The files of the leading segments of a run, as the file stores them. -/
def Opened (pq : Parquet Props Writer) (a : Archive) (source_id : Int) (stream : String)
    (seqs : List Nat) (files : List ParquetFile) : Prop :=
  files.length ≤ seqs.length ∧ List.Forall₂ (fun seq f => ∃ blob,
    a.readSegmentBytes source_id stream seq = some blob ∧ pq.openFile blob = .ok f)
      (seqs.take files.length) files

theorem Reaches.opened {merge : MetadataMerge Run} {policy : SchemaPolicy} {a : Archive}
    {source_id : Int} {stream : String} : ∀ {seqs : List Nat} {r r' : RunState Run},
    RunInv policy r →
      Reaches pq merge policy r (seqs.map (a.readSegmentBytes source_id stream)) r' →
      RunInv policy r' ∧ ∃ files, r'.opened = r.opened ++ files ∧
        Opened pq a source_id stream seqs files
  | [], r, _, h, .all => ⟨h, [], by simp, by simp, .nil⟩
  | seq :: seqs, r, r', h, hreach => by
      have hstop : ∀ run : Option Run, RunInv policy { r with run } ∧ ∃ files,
          r.opened = r.opened ++ files ∧ Opened pq a source_id stream (seq :: seqs) files :=
        fun run => ⟨⟨h.stop, h.first, h.union⟩, [], by simp, by simp, .nil⟩
      rw [List.map_cons] at hreach
      generalize hblob : a.readSegmentBytes source_id stream seq = blob at hreach
      cases hreach with
      | gone => exact hstop r.run
      | refused => exact hstop r.run
      | declined => exact hstop _
      | @joined _ _ blob _ file _ run hopen hadm _ hrest =>
          obtain ⟨hinv, files, hfiles, hlen, hall⟩ := Reaches.opened (h.push hadm run) hrest
          refine ⟨hinv, file :: files, ?_, by simpa using hlen, ?_⟩
          · simp [hfiles, RunState.push]
          · exact .cons ⟨blob, hblob, hopen⟩ hall

/-! ## Writing the merged file -/

/-- A row of one of the inputs as it is written. -/
def conform (schema : Schema) (fields : List Field) (row : Row) : Row :=
  if fields = schema.fields then row else widenRow schema fields row

theorem widenBatch_ok (hpq : pq.RoundTrips) {stream : String} {schema : Schema}
    {fields : List Field} {batch batch' : List Row}
    (h : widenBatch pq stream schema fields batch = .ok batch') :
    batch' = batch.map (conform schema fields) := by
  unfold widenBatch at h
  unfold conform
  split at h
  · rename_i heq
    simp [heq, ← Except.ok.inj h]
  · rename_i hne
    rw [hpq.batch _ _ _ (Except.mapError_eq_ok.mp h)]
    simp [hne]

theorem writeFile_batches (hpq : pq.RoundTrips) {stream : String} {schema : Schema}
    {fields : List Field} : ∀ {batches : List (Except String (List Row))} {w w' : Writer},
    batches.foldlM (writeBatch pq stream schema fields) w = .ok w' →
      ∃ (rows written : List (List Row)), batches.mapM Except.toOption = some rows ∧
        written.foldlM pq.write w = .ok w' ∧
        written.flatten = rows.flatten.map (conform schema fields)
  | [], w, w', h => by
      obtain rfl := Except.ok.inj h
      exact ⟨[], [], rfl, rfl, rfl⟩
  | batch :: batches, w, w', h => by
      obtain ⟨w₁, hw, htail⟩ := Except.foldlM_cons_eq_ok.mp h
      simp only [writeBatch, Except.bind_eq_ok, Except.mapError_eq_ok] at hw
      obtain ⟨rows, rfl, batch', hwiden, hwrite⟩ := hw
      obtain rfl := widenBatch_ok hpq hwiden
      obtain ⟨rest, written, hrest, hwritten, hflat⟩ := writeFile_batches hpq htail
      refine ⟨rows :: rest, rows.map (conform schema fields) :: written, ?_, ?_, ?_⟩
      · simp [List.mapM_cons, hrest, Except.toOption]
      · exact Except.foldlM_cons_eq_ok.mpr ⟨w₁, hwrite, hwritten⟩
      · simp [hflat]

/-- A segment that was copied could be read to its end, and its rows were written. -/
theorem writeFile_ok (hpq : pq.RoundTrips) {stream : String} {schema : Schema} {w w' : Writer}
    {file : ParquetFile} (h : writeFile pq stream schema w file = .ok w') :
    ∃ (rows : List Row) (written : List (List Row)), file.rows = some rows ∧ written.foldlM pq.write w = .ok w' ∧
      written.flatten = rows.map (conform schema file.schema.fields) := by
  simp only [writeFile, Except.bind_eq_ok, Except.mapError_eq_ok] at h
  obtain ⟨batches, hb, h⟩ := h
  obtain ⟨rows, written, hrows, hwritten, hflat⟩ := writeFile_batches hpq h
  exact ⟨rows.flatten, written, by simp [ParquetFile.rows, hb, hrows], hwritten, hflat⟩

theorem writeFiles_ok (hpq : pq.RoundTrips) {stream : String} {schema : Schema} :
    ∀ {files : List ParquetFile} {w w' : Writer},
      files.foldlM (writeFile pq stream schema) w = .ok w' →
        ∃ written : List (List Row), written.foldlM pq.write w = .ok w' ∧ written.flatten =
          files.flatMap fun f => (f.rows.getD []).map (conform schema f.schema.fields)
  | [], w, w', h => by
      obtain rfl := Except.ok.inj h
      exact ⟨[], rfl, rfl⟩
  | file :: files, w, w', h => by
      obtain ⟨w₁, hw, htail⟩ := Except.foldlM_cons_eq_ok.mp h
      obtain ⟨rows, written, hrows, hwritten, hflat⟩ := writeFile_ok hpq hw
      obtain ⟨written', hwritten', hflat'⟩ := writeFiles_ok hpq htail
      refine ⟨written ++ written', ?_, ?_⟩
      · rw [List.foldlM_append, hwritten]
        exact hwritten'
      · simp [hflat, hflat', hrows]

/-- **A merged file opens with the rows of its segments**, each under the merged schema. -/
theorem writeMerged_rows (hpq : pq.RoundTrips) {stream : String} {schema : Schema}
    {props : Props} {files : List ParquetFile} {bytes : Bytes}
    (h : writeMerged pq stream schema props files = .ok bytes) :
    ∃ f, pq.openFile bytes = .ok f ∧ f.schema.fields = schema.fields ∧ f.rows = some
      (files.flatMap fun f => (f.rows.getD []).map (conform schema f.schema.fields)) := by
  simp only [writeMerged, Except.bind_eq_ok, Except.mapError_eq_ok] at h
  obtain ⟨w, hnew, w', hfiles, hclose⟩ := h
  obtain ⟨written, hwritten, hflat⟩ := writeFiles_ok hpq hfiles
  rw [← hflat]
  exact hpq.written _ _ _ _ _ _ hnew hwritten hclose

theorem decodeRows_writeMerged (hpq : pq.RoundTrips) {stream : String} {schema : Schema}
    {props : Props} {files : List ParquetFile} {bytes : Bytes}
    (h : writeMerged pq stream schema props files = .ok bytes) :
    decodeRows pq bytes = files.flatMap fun f =>
      (f.rows.getD []).map fun row => named schema.fields (conform schema f.schema.fields row) := by
  obtain ⟨f, hopen, hfields, hrows⟩ := writeMerged_rows hpq h
  simp only [decodeRows, hopen, hrows, hfields, Option.getD_some, List.map_flatMap, List.map_map]
  rfl

/-! ## The metadata of the merged file -/

/-- What the library keeps of a file that is written: the entries of its properties, the
fields, and the schema's own entries, which only an entry of the file can hide. -/
structure Parquet.KeepsMetadata (pq : Parquet Props Writer) : Prop where
  set : ∀ props kv, pq.key_value_metadata (pq.set_key_value_metadata props kv) = kv
  written : ∀ schema props w w' (batches : List (List Row)) bytes, pq.try_new schema props = .ok w →
    batches.foldlM pq.write w = .ok w' → pq.close w' = .ok bytes →
      ∃ f, pq.openFile bytes = .ok f ∧ f.schema.fields = schema.fields ∧
        f.fileKv = ((pq.key_value_metadata props).getD []).filter (·.key ≠ "ARROW:schema") ∧
        ∀ key, (∀ e ∈ f.fileKv, e.key ≠ key) →
          f.schema.metadata.get? key = schema.metadata.get? key

/-- What is copied step by step is a list of batches that the writer took. -/
theorem exists_batches {α : Type} {step : Writer → α → Except Error Writer}
    (h : ∀ w a w', step w a = .ok w' →
      ∃ batches : List (List Row), batches.foldlM pq.write w = .ok w') :
    ∀ {as : List α} {w w' : Writer}, as.foldlM step w = .ok w' →
      ∃ batches : List (List Row), batches.foldlM pq.write w = .ok w'
  | [], w, w', hfold => ⟨[], by obtain rfl := Except.ok.inj hfold; rfl⟩
  | a :: as, w, w', hfold => by
      obtain ⟨w₁, hstep, hrest⟩ := Except.foldlM_cons_eq_ok.mp hfold
      obtain ⟨batches, hbatches⟩ := h w a w₁ hstep
      obtain ⟨batches', hbatches'⟩ := exists_batches h hrest
      refine ⟨batches ++ batches', ?_⟩
      rw [List.foldlM_append, hbatches]
      exact hbatches'

/-- A merged file opens as what the library keeps of it. -/
theorem writeMerged_opens (hmeta : pq.KeepsMetadata) {stream : String} {schema : Schema}
    {props : Props} {files : List ParquetFile} {bytes : Bytes}
    (h : writeMerged pq stream schema props files = .ok bytes) :
    ∃ f, pq.openFile bytes = .ok f ∧ f.schema.fields = schema.fields ∧
      f.fileKv = ((pq.key_value_metadata props).getD []).filter (·.key ≠ "ARROW:schema") ∧
      ∀ key, (∀ e ∈ f.fileKv, e.key ≠ key) →
        f.schema.metadata.get? key = schema.metadata.get? key := by
  simp only [writeMerged, Except.bind_eq_ok, Except.mapError_eq_ok] at h
  obtain ⟨w, hnew, w', hfiles, hclose⟩ := h
  have hbatch : ∀ {fields : List Field} (w : Writer) (batch : Except String (List Row)) w',
      writeBatch pq stream schema fields w batch = .ok w' →
        ∃ batches : List (List Row), batches.foldlM pq.write w = .ok w' := by
    intro fields w batch w' hw
    simp only [writeBatch, Except.bind_eq_ok, Except.mapError_eq_ok] at hw
    obtain ⟨-, -, rows, -, hwrite⟩ := hw
    exact ⟨[rows], Except.foldlM_cons_eq_ok.mpr ⟨w', hwrite, rfl⟩⟩
  have hfile : ∀ (w : Writer) (file : ParquetFile) w', writeFile pq stream schema w file = .ok w' →
      ∃ batches : List (List Row), batches.foldlM pq.write w = .ok w' := by
    intro w file w' hw
    simp only [writeFile, Except.bind_eq_ok] at hw
    obtain ⟨batches, -, hw⟩ := hw
    exact exists_batches hbatch hw
  obtain ⟨batches, hbatches⟩ := exists_batches hfile hfiles
  exact hmeta.written _ _ _ _ _ _ hnew hbatches hclose

/-- What a merge's file metadata is, over properties that may have entries of their own. -/
def writtenKv (pq : Parquet Props Writer) (props : Props) (finished : List KeyValue) :
    List KeyValue :=
  let carried := finished.filter (·.key ≠ "ARROW:schema")
  (((pq.key_value_metadata props).getD []).filter fun e =>
    decide (e.key ≠ "ARROW:schema") && !carried.any fun c => c.key = e.key) ++ carried

theorem withFileMetadata_kv (hmeta : pq.KeepsMetadata) (props : Props)
    (finished : List KeyValue) :
    ((pq.key_value_metadata (withFileMetadata pq props finished)).getD []).filter
      (·.key ≠ "ARROW:schema") = writtenKv pq props finished := by
  unfold withFileMetadata writtenKv
  generalize hcarried : finished.filter (·.key ≠ "ARROW:schema") = carried
  dsimp only
  split
  · rename_i hempty
    rw [List.isEmpty_iff.mp hempty, List.append_nil]
    simp
  · have hself : carried.filter (·.key ≠ "ARROW:schema") = carried := by
      rw [← hcarried, List.filter_filter]
      simp
    rw [hmeta.set, Option.getD_some, List.filter_append, hself, List.filter_filter]

/-! ## One row -/

/-- What a policy may do to a row: nothing, or add columns that are null. -/
def RowKept : SchemaPolicy → NamedRow → NamedRow → Prop
  | .stopAtChange, r, r' => r' = r
  | .unionFields, r, r' => Widens r r'

theorem rowKept_refl (policy : SchemaPolicy) (r : NamedRow) : RowKept policy r r := by
  cases policy with
  | stopAtChange => rfl
  | unionFields => exact .refl r

/-- A segment whose columns have distinct names. -/
def DistinctColumns (pq : Parquet Props Writer) (bytes : Bytes) : Prop :=
  ∀ f, pq.openFile bytes = .ok f → (f.schema.fields.map Field.name).Nodup

theorem rowKept_conform {policy : SchemaPolicy} {r : RunState Run} (h : RunInv policy r)
    {f : ParquetFile} (hf : f ∈ r.opened) (consumed : Nat)
    (hnd : (f.schema.fields.map Field.name).Nodup) (row : Row) :
    RowKept policy (named f.schema.fields row)
      (named (r.schema consumed).fields (conform (r.schema consumed) f.schema.fields row)) := by
  have hcov := h.covers hf consumed
  unfold conform
  cases policy with
  | stopAtChange =>
      have heq : f.schema.fields = (r.schema consumed).fields := hcov
      rw [if_pos heq, heq]
      rfl
  | unionFields =>
      split
      · rename_i heq
        rw [heq]
        exact .refl _
      · exact widens_widenRow hnd hcov

/-- The rows of a run of segments and of the file it is merged into. -/
theorem rowsKept_run (hpq : pq.RoundTrips) {policy : SchemaPolicy} {r : RunState Run}
    (h : RunInv policy r) {consumed : Nat} {stream : String} {props : Props} {bytes : Bytes}
    {blobs : List Bytes}
    (hopen : List.Forall₂ (fun blob f => pq.openFile blob = .ok f) blobs r.opened)
    (hnd : ∀ blob ∈ blobs, DistinctColumns pq blob)
    (hw : writeMerged pq stream (r.schema consumed) props r.opened = .ok bytes) :
    List.Forall₂ (RowKept policy) (blobs.flatMap (decodeRows pq)) (decodeRows pq bytes) := by
  rw [decodeRows_writeMerged hpq hw]
  suffices ∀ {blobs : List Bytes} {files : List ParquetFile},
      List.Forall₂ (fun blob f => pq.openFile blob = .ok f) blobs files →
      (∀ blob ∈ blobs, DistinctColumns pq blob) → files ⊆ r.opened →
      List.Forall₂ (RowKept policy) (blobs.flatMap (decodeRows pq))
        (files.flatMap fun f => (f.rows.getD []).map fun row =>
          named (r.schema consumed).fields (conform (r.schema consumed) f.schema.fields row)) from
    this hopen hnd (List.Subset.refl _)
  intro blobs files hopen hnd hsub
  induction hopen with
  | nil => exact .nil
  | @cons blob f blobs files hf _ ih =>
      rw [List.flatMap_cons, List.flatMap_cons]
      refine List.rel_append ?_ (ih (fun b hb => hnd b (by simp [hb]))
        fun x hx => hsub (by simp [hx]))
      simp only [decodeRows, hf]
      rw [List.forall₂_map_left_iff, List.forall₂_map_right_iff, List.forall₂_same]
      exact fun row _ => rowKept_conform h (hsub (by simp)) consumed (hnd blob (by simp) f hf) row

end

end Dendro
