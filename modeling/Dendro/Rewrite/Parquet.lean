import Dendro.Archive.Types

/-!
# Parquet, as far as a merge looks into it

A merge opens segments with the parquet library and writes a new one. The library is a
parameter, `Parquet`: what a file holds once it is opened, and a writer that takes record
batches one at a time. What the merge relies on is `Parquet.RoundTrips`: a file that was
written opens again with the schema and the rows it was given.

A record batch is its rows, each a list of cells in the order of the schema's fields. A
cell's contents are opaque; only that it is null matters here.
-/

namespace Dendro

/-- A column of a schema. The data type is kept as its text. -/
structure Field where
  name : String
  data_type : String
  nullable : Bool
  metadata : StringMap
  deriving DecidableEq

structure Schema where
  fields : List Field
  metadata : StringMap
  deriving DecidableEq

/-- An entry of a file's key-value metadata. -/
structure KeyValue where
  key : String
  value : Option String
  deriving DecidableEq

inductive Cell where
  | null
  | value (bytes : Bytes)
  deriving DecidableEq

/-- The cells of a row, in the order of the schema's fields. -/
abbrev Row := List Cell

/-- A file that was opened: its footer, and what reading its batches gives. -/
structure ParquetFile where
  /-- The schema as Arrow reads it, with the file's metadata merged into its own. -/
  schema : Schema
  key_value : Option (List KeyValue)
  num_rows : Int64
  /-- The batches, each with the file's fields. -/
  batches : Except String (List (Except String (List Row)))

/-- The parquet library. -/
structure Parquet (Props Writer : Type) where
  /-- `segment::writer_props`. -/
  writer_props : Props
  key_value_metadata : Props → Option (List KeyValue)
  set_key_value_metadata : Props → Option (List KeyValue) → Props
  openFile : Bytes → Except String ParquetFile
  /-- `RecordBatch::try_new`: whether rows are a batch of a schema. -/
  record_batch : Schema → List Row → Except String (List Row)
  try_new : Schema → Props → Except String Writer
  write : Writer → List Row → Except String Writer
  close : Writer → Except String Bytes

/-! ## Rows as a reader gets them -/

/-- A row with its columns' names. -/
abbrev NamedRow := List (String × Cell)

def named (fields : List Field) (row : Row) : NamedRow := (fields.map Field.name).zip row

/-- All the batches of a file that can be read to its end. -/
def ParquetFile.rows (f : ParquetFile) : Option (List Row) :=
  match f.batches with
  | .ok batches => (batches.mapM Except.toOption).map List.flatten
  | .error _ => none

/-- The rows of a segment; a segment that cannot be read has none. -/
def decodeRows {Props Writer : Type} (pq : Parquet Props Writer) (bytes : Bytes) :
    List NamedRow :=
  match pq.openFile bytes with
  | .ok f => (f.rows.getD []).map (named f.schema.fields)
  | .error _ => []

/-- What the library promises: a batch is the rows it was made of, and a file that was
written opens with the fields and the rows that were written. -/
structure Parquet.RoundTrips {Props Writer : Type} (pq : Parquet Props Writer) : Prop where
  batch : ∀ schema rows rows', pq.record_batch schema rows = .ok rows' → rows' = rows
  written : ∀ schema props w w' (batches : List (List Row)) bytes, pq.try_new schema props = .ok w →
    batches.foldlM pq.write w = .ok w' → pq.close w' = .ok bytes →
      ∃ f, pq.openFile bytes = .ok f ∧ f.schema.fields = schema.fields ∧
        f.rows = some batches.flatten

/-! ## Widening -/

/-- A row whose columns are a wider schema's: the old cells, and nulls for the rest. -/
structure Widens (r r' : NamedRow) : Prop where
  keeps : ∀ e ∈ r, e ∈ r'
  adds : ∀ e ∈ r', e ∈ r ∨ (e.2 = .null ∧ e.1 ∉ r.map Prod.fst)

theorem Widens.refl (r : NamedRow) : Widens r r := ⟨fun _ h => h, fun _ h => .inl h⟩

/-- The columns of a batch of `fields` under another schema: null where it has none. -/
def widenRow (schema : Schema) (fields : List Field) (row : Row) : Row :=
  schema.fields.map fun f => ((named fields row).lookup f.name).getD .null

/-- In a list of pairs with distinct keys, a pair is what its key looks up. -/
theorem lookup_of_mem {κ ρ : Type} [BEq κ] [LawfulBEq κ] {k : κ} {v : ρ} : ∀ {l : List (κ × ρ)},
    (l.map Prod.fst).Nodup → (k, v) ∈ l → l.lookup k = some v
  | [], _, h => absurd h (by simp)
  | (k', v') :: l, hnd, h => by
      obtain ⟨hnot, hnd⟩ := List.nodup_cons.mp hnd
      rcases List.mem_cons.mp h with heq | hm
      · obtain ⟨rfl, rfl⟩ := Prod.mk.inj heq
        exact List.lookup_cons_self
      · have hne : (k == k') = false := by
          refine beq_false_of_ne ?_
          rintro rfl
          exact hnot (List.mem_map.mpr ⟨(k, v), hm, rfl⟩)
        rw [List.lookup_cons, hne]
        exact lookup_of_mem hnd hm

theorem mem_of_lookup {κ ρ : Type} [BEq κ] [LawfulBEq κ] {k : κ} {v : ρ} {l : List (κ × ρ)}
    (h : l.lookup k = some v) : (k, v) ∈ l := by
  obtain ⟨l₁, l₂, rfl, -⟩ := List.lookup_eq_some_iff.mp h
  simp

theorem fst_zip_sublist {κ ρ : Type} : ∀ (ks : List κ) (vs : List ρ),
    ((ks.zip vs).map Prod.fst).Sublist ks
  | [], _ => by simp
  | _ :: _, [] => by simp
  | k :: ks, _ :: vs => by simpa using fst_zip_sublist ks vs

theorem named_keys_nodup {fields : List Field} (row : Row) (h : (fields.map Field.name).Nodup) :
    ((named fields row).map Prod.fst).Nodup :=
  h.sublist (fst_zip_sublist _ _)

theorem named_widenRow (schema : Schema) (fields : List Field) (row : Row) :
    named schema.fields (widenRow schema fields row) = schema.fields.map fun f =>
      (f.name, ((named fields row).lookup f.name).getD .null) := by
  simp [named, widenRow, List.zip_map']

/-- **A widened row keeps its cells, and the columns it lacked are null.** -/
theorem widens_widenRow {schema : Schema} {fields : List Field} {row : Row}
    (hnd : (fields.map Field.name).Nodup)
    (hsub : ∀ f ∈ fields, ∃ g ∈ schema.fields, g.name = f.name) :
    Widens (named fields row) (named schema.fields (widenRow schema fields row)) := by
  rw [named_widenRow]
  constructor
  · rintro ⟨name, c⟩ he
    have hname : name ∈ fields.map Field.name := (List.of_mem_zip he).1
    obtain ⟨f, hf, rfl⟩ := List.mem_map.mp hname
    obtain ⟨g, hg, hgf⟩ := hsub f hf
    refine List.mem_map.mpr ⟨g, hg, ?_⟩
    rw [hgf, lookup_of_mem (named_keys_nodup row hnd) he]
    rfl
  · rintro ⟨name, c⟩ he
    obtain ⟨g, -, heq⟩ := List.mem_map.mp he
    obtain ⟨rfl, rfl⟩ := Prod.mk.inj heq
    rcases hl : (named fields row).lookup g.name with _ | c
    · refine .inr ⟨rfl, fun hm => ?_⟩
      obtain ⟨e, hem, heq⟩ := List.mem_map.mp hm
      have := List.lookup_eq_none_iff.mp hl e hem
      simp [heq] at this
    · exact .inl (mem_of_lookup hl)

end Dendro
