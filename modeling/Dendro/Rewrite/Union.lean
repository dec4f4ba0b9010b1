import Dendro.Lib.Tables
import Dendro.Rewrite.Reading

/-!
# What a union merge writes

`Unites` says what the merge of a run of segments should be: their columns in the order they
first appear, every row with its own cells and nulls for the rest, and the file metadata
folded over the run. A column is looked up by its name, so this is what the code writes
exactly if no segment of the run has two columns of one name
(`concatParquet_unites_iff`): the second of two is counted as if another segment carried it,
and its cells are dropped.
-/

namespace Dendro

open Archive Relation

section

variable {Props Writer Run : Type} {pq : Parquet Props Writer} {merge : MetadataMerge Run}

/-! ## The union of a run -/

/-- The cell of a row in a column. -/
def Row.cell (row : Row) (i : Nat) : Cell := row[i]?.getD .null

/-- Each column of a segment has a merged column of its own, of its name, type and
metadata. -/
structure Placed (fields merged : List Field) (place : Nat → Nat) : Prop where
  column : ∀ i g, fields[i]? = some g → ∃ m, merged[place i]? = some m ∧ m.name = g.name ∧
    m.data_type = g.data_type ∧ m.metadata = g.metadata
  inj : ∀ i j, i < fields.length → j < fields.length → place i = place j → i = j

/-- A merged row: the row's cells in their columns, and null in every other. -/
structure KeepsCells (fields merged : List Field) (place : Nat → Nat) (row row' : Row) : Prop where
  keeps : ∀ i, i < fields.length → row'.cell (place i) = row.cell i
  rest : ∀ j, j < merged.length → (∀ i, i < fields.length → place i ≠ j) → row'.cell j = .null

/-- The merge folded over the segments of a run. -/
inductive Folded (merge : MetadataMerge Run) : List MergeInput → Run → Prop where
  | start {first : MergeInput} {run : Run} : merge.start first = some run →
      Folded merge [first] run
  | extend {inputs : List MergeInput} {next : MergeInput} {run run' : Run} :
      Folded merge inputs run → merge.extend run next = (true, run') →
      Folded merge (inputs ++ [next]) run'

/-- The rows of a run, each with its segment. -/
def openedRows (files : List ParquetFile) : List (ParquetFile × Row) :=
  files.flatMap fun f => (f.rows.getD []).map fun row => (f, row)

/-- The names of a segment's columns. -/
def ParquetFile.names (f : ParquetFile) : List String := f.schema.fields.map Field.name

/-- **The union of a run.** -/
structure Unites (pq : Parquet Props Writer) (merge : MetadataMerge Run) (props : Props)
    (files : List ParquetFile) (merged : ParquetFile) : Prop where
  /-- The columns are those of the run, in the order they first appear. -/
  names : merged.names = (files.flatMap ParquetFile.names).eraseDups
  nullable : ∀ m ∈ merged.schema.fields, m.nullable = false →
    ∀ f ∈ files, ∃ g ∈ f.schema.fields, g.name = m.name
  /-- Columns of one name are alike. -/
  alike : ∀ f ∈ files, ∀ f' ∈ files, ∀ g ∈ f.schema.fields, ∀ g' ∈ f'.schema.fields,
    g.name = g'.name → g = g'
  rows : ∃ place : ParquetFile → Nat → Nat,
    (∀ f ∈ files, Placed f.schema.fields merged.schema.fields (place f)) ∧
    ∃ rows', merged.rows = some rows' ∧
      List.Forall₂ (fun e row' => KeepsCells e.1.schema.fields merged.schema.fields (place e.1)
        e.2 row') (openedRows files) rows'
  key_value : ∃ run, Folded merge (files.map ParquetFile.mergeInput) run ∧
    merged.fileKv = writtenKv pq props (merge.finish run)

/-! ## Counting the fields of a run -/

/-- What is known of the fields of the segments `files`. -/
structure Tally (order : List (Field × Nat)) (files : List ParquetFile) : Prop where
  names : order.map (fun e => e.1.name) = (files.flatMap ParquetFile.names).eraseDups
  count : ∀ e ∈ order, e.2 = (files.filter fun f => decide (e.1.name ∈ f.names)).length
  same : ∀ f ∈ files, ∀ g ∈ f.schema.fields, ∀ e ∈ order, e.1.name = g.name → e.1 = g

/-- Counting fields of distinct names: those that were there are counted once more, and the
others follow in their order. -/
theorem foldl_carry_eq : ∀ {fields : List Field} {order : List (Field × Nat)},
    (fields.map Field.name).Nodup → fields.foldl carry order =
      order.map (fun e => if e.1.name ∈ fields.map Field.name then (e.1, e.2 + 1) else e) ++
        (fields.filter fun f => decide (f.name ∉ order.map fun e => e.1.name)).map fun f => (f, 1)
  | [], order, _ => by simp
  | f :: fields, order, hnd => by
      rw [List.map_cons, List.nodup_cons] at hnd
      obtain ⟨hnot, hnd⟩ := hnd
      rw [List.foldl_cons, foldl_carry_eq hnd]
      by_cases hmem : f.name ∈ order.map fun e => e.1.name
      · have hcarry : carry order f =
            order.map fun e => if e.1.name = f.name then (e.1, e.2 + 1) else e := by
          rw [carry, if_pos]
          obtain ⟨e, he, heq⟩ := List.mem_map.mp hmem
          exact List.any_eq_true.mpr ⟨e, he, by simpa using heq⟩
        have hnames : (carry order f).map (fun e => e.1.name) = order.map fun e => e.1.name := by
          rw [hcarry, List.map_map]
          refine List.map_congr_left fun e _ => ?_
          simp only [Function.comp_apply]
          split <;> rfl
        rw [hnames, List.filter_cons_of_neg (by simpa using hmem), hcarry, List.map_map]
        congr 1
        refine List.map_congr_left fun e _ => ?_
        simp only [Function.comp_apply, List.map_cons, List.mem_cons]
        by_cases he : e.1.name = f.name
        · rw [if_pos he, if_pos (Or.inl he)]
          exact if_neg (by rw [he]; exact hnot)
        · by_cases hin : e.1.name ∈ fields.map Field.name
          · rw [if_neg he, if_pos hin, if_pos (Or.inr hin)]
          · rw [if_neg he, if_neg hin, if_neg (by tauto)]
      · have hcarry : carry order f = order ++ [(f, 1)] := by
          rw [carry, if_neg]
          intro hany
          obtain ⟨e, he, heq⟩ := List.any_eq_true.mp hany
          exact hmem (List.mem_map.mpr ⟨e, he, by simpa using heq⟩)
        rw [hcarry, List.filter_cons_of_pos (by simpa using hmem), List.map_append, List.map_cons,
          List.map_nil, List.map_cons, if_neg hnot, List.append_assoc, List.singleton_append]
        refine congrArg₂ (· ++ ·) ?_ (congrArg₂ List.cons rfl ?_)
        · refine List.map_congr_left fun e he => ?_
          have hne : e.1.name ≠ f.name := fun heq => hmem (List.mem_map.mpr ⟨e, he, heq⟩)
          simp only [List.mem_cons]
          by_cases hin : e.1.name ∈ fields.map Field.name
          · rw [if_pos hin, if_pos (Or.inr hin)]
          · rw [if_neg hin, if_neg (by tauto)]
        · refine congrArg _ (List.filter_congr fun g hg => ?_)
          have hne : g.name ≠ f.name := fun heq => hnot (List.mem_map.mpr ⟨g, hg, heq⟩)
          simp [hne]

theorem Tally.mem_names {order : List (Field × Nat)} {files : List ParquetFile}
    (h : Tally order files) (name : String) :
    name ∈ order.map (fun e => e.1.name) ↔ ∃ f ∈ files, name ∈ f.names := by
  rw [h.names, List.mem_eraseDups, List.mem_flatMap]

/-- **One more segment, of distinct names.** -/
theorem Tally.push {order : List (Field × Nat)} {files : List ParquetFile} {f : ParquetFile}
    (h : Tally order files) (hnd : f.names.Nodup)
    (hadm : ∀ g ∈ f.schema.fields, ∀ e ∈ order, e.1.name = g.name → e.1 = g) :
    Tally (f.schema.fields.foldl carry order) (files ++ [f]) := by
  have hcounted : ∀ files : List ParquetFile, ∀ name, ((files ++ [f]).filter fun f =>
      decide (name ∈ f.names)).length = (files.filter fun f => decide (name ∈ f.names)).length +
        if name ∈ f.names then 1 else 0 := by
    intro files name
    rw [List.filter_append, List.length_append, List.filter_singleton]
    by_cases hin : name ∈ f.names <;> simp [hin]
  rw [foldl_carry_eq hnd]
  refine ⟨?_, fun e he => ?_, fun f' hf' g hg e he hname => ?_⟩
  · have hold : (order.map fun e => if e.1.name ∈ f.names then (e.1, e.2 + 1) else e).map
        (fun e => e.1.name) = order.map fun e => e.1.name := by
      rw [List.map_map]
      refine List.map_congr_left fun e _ => ?_
      simp only [Function.comp_apply]
      split <;> rfl
    have hnew : ((f.schema.fields.filter fun g =>
        decide (g.name ∉ order.map fun e => e.1.name)).map Field.name) =
          f.names.removeAll (files.flatMap ParquetFile.names) := by
      rw [List.removeAll, ParquetFile.names, List.filter_map]
      refine congrArg _ (List.filter_congr fun g _ => ?_)
      have hmem : g.name ∈ order.map (fun e => e.1.name) ↔
          g.name ∈ files.flatMap ParquetFile.names := by
        rw [h.mem_names, List.mem_flatMap]
      rw [Function.comp_apply, List.elem_eq_mem, ← decide_not]
      exact decide_eq_decide.mpr (not_congr hmem)
    have hnodup : (f.names.removeAll (files.flatMap ParquetFile.names)).Nodup := hnd.filter _
    rw [List.flatMap_append, List.flatMap_singleton, List.eraseDups_append,
      List.eraseDups_of_nodup hnodup, ← hnew, ← h.names, List.map_append, List.map_map (f := fun f => (f, 1))]
    exact congrArg₂ (· ++ ·) hold rfl
  · rw [hcounted]
    rcases List.mem_append.mp he with he | he
    · obtain ⟨e₀, he₀, rfl⟩ := List.mem_map.mp he
      have hcount := h.count e₀ he₀
      by_cases hin : e₀.1.name ∈ f.schema.fields.map Field.name
      · rw [if_pos hin]
        rw [if_pos (show e₀.1.name ∈ f.names from hin), ← hcount]
      · rw [if_neg hin, if_neg (show e₀.1.name ∉ f.names from hin), ← hcount, Nat.add_zero]
    · obtain ⟨g, hg, rfl⟩ := List.mem_map.mp he
      obtain ⟨hg, hnot⟩ := List.mem_filter.mp hg
      have hnone : files.filter (fun f => decide (g.name ∈ f.names)) = [] := by
        refine List.filter_eq_nil_iff.mpr fun f' hf' => ?_
        rw [decide_eq_true_eq] at hnot ⊢
        exact fun hin => hnot ((h.mem_names _).mpr ⟨f', hf', hin⟩)
      rw [hnone, if_pos (show g.name ∈ f.names from List.mem_map.mpr ⟨g, hg, rfl⟩)]
      rfl
  · rcases List.mem_append.mp he with he | he
    · obtain ⟨e₀, he₀, rfl⟩ := List.mem_map.mp he
      have hfst : ∀ {p : Prop} [Decidable p], (if p then (e₀.1, e₀.2 + 1) else e₀).1 = e₀.1 := by
        intro p _
        split <;> rfl
      rw [hfst] at hname ⊢
      rcases List.mem_append.mp hf' with hf' | hf'
      · exact h.same f' hf' g hg e₀ he₀ hname
      · rw [List.mem_singleton.mp hf'] at hg
        exact hadm g hg e₀ he₀ hname
    · obtain ⟨g₀, hg₀, rfl⟩ := List.mem_map.mp he
      obtain ⟨hg₀, hnot⟩ := List.mem_filter.mp hg₀
      rw [decide_eq_true_eq] at hnot
      rcases List.mem_append.mp hf' with hf' | hf'
      · refine absurd ((h.mem_names _).mpr ⟨f', hf', ?_⟩) hnot
        exact List.mem_map.mpr ⟨g, hg, hname.symm⟩
      · rw [List.mem_singleton.mp hf'] at hg
        exact List.inj_on_of_nodup_map hnd hg₀ hg hname

theorem Tally.names_nodup {order : List (Field × Nat)} {files : List ParquetFile}
    (h : Tally order files) : (order.map fun e => e.1.name).Nodup := by
  rw [h.names]
  exact List.nodup_eraseDups _

/-- What the policy admits has the fields of the run wherever it has their names. -/
theorem Tally.admitted {r : RunState Run} {files : List ParquetFile} (h : Tally r.order files)
    {f : ParquetFile} (hadm : schemaAdmitted .unionFields r f.ownSchema = true) :
    ∀ g ∈ f.schema.fields, ∀ e ∈ r.order, e.1.name = g.name → e.1 = g := by
  intro g hg e he hname
  have hall := List.all_eq_true.mp hadm g hg
  rcases hfind : r.order.find? (·.1.name = g.name) with _ | seen
  · have hnone := List.find?_eq_none.mp hfind e he
    simp [hname] at hnone
  · rw [hfind] at hall
    have hseen : seen.1.name = g.name := by simpa using List.find?_some hfind
    obtain rfl : seen = e := List.inj_on_of_nodup_map h.names_nodup (List.mem_of_find?_eq_some hfind)
      he (hseen.trans hname.symm)
    simpa using hall

/-! ## A run -/

theorem Reaches.first_union {blobs : List (Option Bytes)} {r r' : RunState Run}
    (h : Reaches pq merge .unionFields r blobs r') (hr : r.first = none) : r'.first = none := by
  induction h with
  | all | gone | refused | declined => exact hr
  | joined _ _ _ _ ih => exact ih hr

/-- A merge that, where it refuses a segment, still describes the run without it. -/
def MetadataMerge.Describes (merge : MetadataMerge Run) : Prop :=
  ∀ run next run', merge.extend run next = (false, run') → merge.finish run' = merge.finish run

/-- While a run goes on, what the merge keeps is its fold over the segments so far. -/
def Keeping (merge : MetadataMerge Run) (r : RunState Run) : Prop :=
  (r.opened = [] ∧ r.run = none) ∨
    ∃ run, r.run = some run ∧ Folded merge (r.opened.map ParquetFile.mergeInput) run

theorem Keeping.push {r : RunState Run} (h : Keeping merge r) {policy : SchemaPolicy}
    {f : ParquetFile} {kept : Option Run} {run : Run}
    (hjudge : judge merge r.run f.mergeInput = (kept, some run)) :
    Keeping merge (r.push policy f run) := by
  refine .inr ⟨run, rfl, ?_⟩
  show Folded merge ((r.opened ++ [f]).map ParquetFile.mergeInput) run
  rw [List.map_append]
  rcases h with ⟨hopened, hrun⟩ | ⟨run₀, hrun, hfold⟩
  · rw [hrun] at hjudge
    rw [hopened]
    exact .start (Prod.mk.inj hjudge).2
  · rw [hrun, judge] at hjudge
    rcases hext : merge.extend run₀ f.mergeInput with ⟨go, run'⟩
    rw [hext] at hjudge
    cases go with
    | false => cases (Prod.mk.inj hjudge).2
    | true =>
        obtain rfl : run' = run := Option.some.inj (Prod.mk.inj hjudge).2
        exact .extend hfold hext

/-- **What the merge finishes is its fold over the segments of the run**, also where it or the
policy ended the run. -/
theorem Reaches.folded (hmerge : merge.Describes) {policy : SchemaPolicy}
    {blobs : List (Option Bytes)} {r r' : RunState Run} (h : Reaches pq merge policy r blobs r')
    (hr : Keeping merge r) : ∀ run' : Run, r'.run = some run' → r'.opened ≠ [] →
      ∃ run, Folded merge (r'.opened.map ParquetFile.mergeInput) run ∧
        merge.finish run' = merge.finish run := by
  have hstays : ∀ {r : RunState Run}, Keeping merge r → ∀ run' : Run, r.run = some run' →
      ∃ run, Folded merge (r.opened.map ParquetFile.mergeInput) run ∧
        merge.finish run' = merge.finish run := by
    rintro r (⟨-, hnone⟩ | ⟨run, hrun, hfold⟩) run' hrun'
    · rw [hnone] at hrun'
      cases hrun'
    · obtain rfl : run = run' := Option.some.inj (hrun.symm.trans hrun')
      exact ⟨run, hfold, rfl⟩
  induction h with
  | all | gone | refused => exact fun run' hrun' _ => hstays hr run' hrun'
  | joined _ _ hjudge _ ih => exact ih (hr.push hjudge)
  | @declined r _ _ f kept _ _ hjudge =>
      intro run' hrun' hopened
      rcases hr with ⟨hnil, -⟩ | ⟨run, hrun, hfold⟩
      · exact absurd hnil hopened
      · rw [hrun, judge] at hjudge
        rcases hext : merge.extend run f.mergeInput with ⟨go, next⟩
        rw [hext] at hjudge
        cases go with
        | true => cases (Prod.mk.inj hjudge).2
        | false =>
            obtain rfl : kept = some next := (Prod.mk.inj hjudge).1.symm
            obtain rfl : next = run' := Option.some.inj hrun'
            exact ⟨run, hfold, hmerge run _ _ hext⟩

/-- **What a union run counts**, where its segments have distinct names. -/
theorem Reaches.tally {blobs : List (Option Bytes)} {r r' : RunState Run}
    (h : Reaches pq merge .unionFields r blobs r') (hr : Tally r.order r.opened)
    (hnd : ∀ f ∈ r'.opened, f.names.Nodup) : Tally r'.order r'.opened := by
  induction h with
  | all | gone | refused | declined => exact hr
  | @joined r r' blob blobs f kept run hopen hadm hjudge hrest ih =>
      have hmem : f ∈ r'.opened := by
        have hsub := hrest.opened_prefix.subset
        exact hsub (by simp [RunState.push])
      exact ih (hr.push (hnd f hmem) (hr.admitted hadm)) hnd

/-! ## Where a column goes -/

/-- The merged column of a segment's column: the one of its name. -/
def placeIn (merged : List Field) (f : ParquetFile) (i : Nat) : Nat :=
  (merged.map Field.name).idxOf (f.names[i]?.getD "")

theorem placeIn_name {merged : List Field} {f : ParquetFile} {i : Nat} {g : Field}
    (hg : f.schema.fields[i]? = some g) (hmem : g.name ∈ merged.map Field.name) :
    ∃ m, merged[placeIn merged f i]? = some m ∧ m.name = g.name := by
  have hname : f.names[i]?.getD "" = g.name := by
    rw [ParquetFile.names, List.getElem?_map, hg]
    rfl
  have hlt := List.idxOf_lt_length_of_mem hmem
  have hget : (merged.map Field.name)[placeIn merged f i]? = some g.name := by
    rw [placeIn, hname, List.getElem?_eq_getElem hlt, List.getElem_idxOf]
  rw [List.getElem?_map] at hget
  obtain ⟨m, hm, hmg⟩ := Option.map_eq_some_iff.mp hget
  exact ⟨m, hm, hmg⟩

/-- In columns of distinct names, a name's column is one. -/
theorem index_unique {fields : List Field} (hnd : (fields.map Field.name).Nodup) {i j : Nat}
    {g g' : Field} (hg : fields[i]? = some g) (hg' : fields[j]? = some g')
    (hname : g.name = g'.name) : i = j := by
  have hlt : i < (fields.map Field.name).length := by
    rw [List.length_map]
    exact (List.getElem?_eq_some_iff.mp hg).1
  refine (List.getElem?_inj hlt hnd).mp ?_
  rw [List.getElem?_map, List.getElem?_map, hg, hg', Option.map_some, Option.map_some, hname]

/-- The cell that a row has under a name is that of the name's column. -/
theorem lookup_named : ∀ {fields : List Field} {row : Row} {i : Nat} {g : Field},
    (fields.map Field.name).Nodup → fields[i]? = some g →
      ((named fields row).lookup g.name).getD .null = row.cell i
  | [], _, _, _, _, hg => absurd hg (by simp)
  | f :: fields, [], i, g, _, _ => by simp [named, Row.cell]
  | f :: fields, c :: row, 0, g, _, hg => by
      obtain rfl : f = g := by simpa using hg
      simp [named, Row.cell]
  | f :: fields, c :: row, i + 1, g, hnd, hg => by
      rw [List.map_cons, List.nodup_cons] at hnd
      rw [List.getElem?_cons_succ] at hg
      have hne : (g.name == f.name) = false := by
        refine beq_false_of_ne fun heq => hnd.1 ?_
        exact heq ▸ List.mem_map.mpr ⟨g, List.mem_of_getElem? hg, rfl⟩
      have hrest : ((named fields row).lookup g.name).getD .null = Row.cell row i :=
        lookup_named hnd.2 hg
      rw [named] at hrest
      rw [named, List.map_cons, List.zip_cons_cons, List.lookup_cons, hne, hrest]
      simp [Row.cell]

theorem cell_widenRow {schema : Schema} {fields : List Field} {row : Row} {j : Nat} {m : Field}
    (hm : schema.fields[j]? = some m) :
    (widenRow schema fields row).cell j = ((named fields row).lookup m.name).getD .null := by
  rw [Row.cell, widenRow, List.getElem?_map, hm]
  rfl

/-- **A row of a run, as it is written.** -/
theorem keepsCells_conform {schema : Schema} {f : ParquetFile} (hnd : f.names.Nodup)
    (hmerged : (schema.fields.map Field.name).Nodup)
    (hsub : ∀ name ∈ f.names, name ∈ schema.fields.map Field.name) (row : Row) :
    KeepsCells f.schema.fields schema.fields (placeIn schema.fields f) row
      (conform schema f.schema.fields row) := by
  have hplace : ∀ i, i < f.schema.fields.length → ∃ g m, f.schema.fields[i]? = some g ∧
      schema.fields[placeIn schema.fields f i]? = some m ∧ m.name = g.name := by
    intro i hi
    have hg := List.getElem?_eq_getElem hi
    have hmem : f.schema.fields[i].name ∈ f.names :=
      List.mem_map.mpr ⟨_, List.getElem_mem hi, rfl⟩
    obtain ⟨m, hm, hname⟩ := placeIn_name hg (hsub _ hmem)
    exact ⟨_, m, hg, hm, hname⟩
  unfold conform
  split
  · rename_i heq
    -- the segment has the merged columns: each stays where it is
    have hself : ∀ i, i < f.schema.fields.length → placeIn schema.fields f i = i := by
      intro i hi
      obtain ⟨g, m, hg, hm, hname⟩ := hplace i hi
      exact index_unique hmerged hm (heq ▸ hg) hname
    refine ⟨fun i hi => by rw [hself i hi], fun j hj hnot => ?_⟩
    rw [← heq] at hj
    exact absurd (hself j hj) (hnot j hj)
  · refine ⟨fun i hi => ?_, fun j hj hnot => ?_⟩
    · obtain ⟨g, m, hg, hm, hname⟩ := hplace i hi
      rw [cell_widenRow hm, hname, lookup_named hnd hg]
    · have hm := List.getElem?_eq_getElem hj
      have hout : schema.fields[j].name ∉ f.names := by
        intro hin
        obtain ⟨g, hg, hname⟩ := List.mem_map.mp hin
        obtain ⟨i, hi, rfl⟩ := List.mem_iff_getElem.mp hg
        obtain ⟨g', m', hg', hm', hname'⟩ := hplace i hi
        obtain rfl := Option.some.inj ((List.getElem?_eq_getElem hi).symm.trans hg')
        exact hnot i hi (index_unique hmerged hm' hm (hname'.trans hname))
      rw [cell_widenRow hm]
      rcases hl : (named f.schema.fields row).lookup schema.fields[j].name with _ | c
      · rfl
      · exact absurd (List.of_mem_zip (mem_of_lookup hl)).1 hout

/-! ## A concatenation -/

/-- **What a concatenation of segments of distinct names writes is their union.** -/
theorem unites_of_nodup (hpq : pq.RoundTrips) (hmeta : pq.KeepsMetadata)
    (hmerge : merge.Describes) {stream : String} {props : Props} {blobs : List (Option Bytes)}
    {r : RunState Run} {run : Run} {bytes : Bytes}
    (hreach : Reaches pq merge .unionFields .empty blobs r) (hrun : r.run = some run)
    (htwo : 2 ≤ r.opened.length)
    (hbytes : writeMerged pq stream (r.schema r.opened.length)
      (withFileMetadata pq props (merge.finish run)) r.opened = .ok bytes)
    (hnd : ∀ f ∈ r.opened, f.names.Nodup) :
    ∃ merged, pq.openFile bytes = .ok merged ∧ Unites pq merge props r.opened merged := by
  have htally : Tally r.order r.opened :=
    hreach.tally ⟨rfl, by simp [RunState.empty], by simp [RunState.empty]⟩ hnd
  have hfirst : r.first = none := hreach.first_union rfl
  obtain ⟨merged, hopen, hfields, hrows⟩ := writeMerged_rows hpq hbytes
  obtain ⟨merged', hopen', -, hkv, -⟩ := writeMerged_opens hmeta hbytes
  obtain rfl : merged = merged' := Except.ok.inj (hopen.symm.trans hopen')
  rw [withFileMetadata_kv hmeta] at hkv
  generalize hschema : r.schema r.opened.length = schema at hfields hrows hbytes
  have hof : schema.fields = r.order.map fun e =>
      if e.2 = r.opened.length then e.1 else { e.1 with nullable := true } := by
    rw [← hschema, RunState.schema, hfirst]
  have hnames : schema.fields.map Field.name = r.order.map fun e => e.1.name := by
    rw [hof, List.map_map]
    refine List.map_congr_left fun e _ => ?_
    simp only [Function.comp_apply]
    split <;> rfl
  have hmerged : (schema.fields.map Field.name).Nodup := hnames ▸ htally.names_nodup
  have hsub : ∀ f ∈ r.opened, ∀ name ∈ f.names, name ∈ schema.fields.map Field.name :=
    fun f hf name hname => hnames ▸ (htally.mem_names name).mpr ⟨f, hf, hname⟩
  -- a merged column is the field of its name, or that field made nullable
  have hentry : ∀ m ∈ schema.fields, ∃ e ∈ r.order, m.name = e.1.name ∧
      m.data_type = e.1.data_type ∧ m.metadata = e.1.metadata ∧
      (m.nullable = false → e.2 = r.opened.length) := by
    intro m hm
    rw [hof] at hm
    obtain ⟨e, he, rfl⟩ := List.mem_map.mp hm
    refine ⟨e, he, ?_⟩
    split <;> rename_i hcount
    · exact ⟨rfl, rfl, rfl, fun _ => hcount⟩
    · exact ⟨rfl, rfl, rfl, fun h => absurd h (by simp)⟩
  refine ⟨merged, hopen, ?_, fun m hm hnull f hf => ?_, fun f hf f' hf' g hg g' hg' hname => ?_,
    ⟨placeIn merged.schema.fields, fun f hf => ⟨fun i g hg => ?_, fun i j hi hj hij => ?_⟩,
      _, hrows, ?_⟩, ?_⟩
  · rw [ParquetFile.names, hfields, hnames, htally.names]
  · rw [hfields] at hm
    obtain ⟨e, he, hname, -, -, hcount⟩ := hentry m hm
    have hall := htally.count e he
    rw [hcount hnull, eq_comm, List.length_filter_eq_length_iff] at hall
    have hin : e.1.name ∈ f.names := by simpa using hall f hf
    obtain ⟨g, hg, hge⟩ := List.mem_map.mp hin
    exact ⟨g, hg, hge.trans hname.symm⟩
  · have hin : g.name ∈ r.order.map fun e => e.1.name :=
      (htally.mem_names _).mpr ⟨f, hf, List.mem_map.mpr ⟨g, hg, rfl⟩⟩
    obtain ⟨e, he, heg⟩ := List.mem_map.mp hin
    rw [← htally.same f hf g hg e he heg, htally.same f' hf' g' hg' e he (heg.trans hname)]
  · rw [hfields]
    have hg' : g ∈ f.schema.fields := List.mem_of_getElem? hg
    obtain ⟨m, hm, hname⟩ := placeIn_name hg (hsub f hf _ (List.mem_map.mpr ⟨g, hg', rfl⟩))
    obtain ⟨e, he, hme, htype, hmetadata, -⟩ := hentry m (List.mem_of_getElem? hm)
    have hsame := htally.same f hf g hg' e he (hme.symm.trans hname)
    exact ⟨m, hm, hname, hsame ▸ htype, hsame ▸ hmetadata⟩
  · rw [hfields] at hij
    have hg := List.getElem?_eq_getElem hi
    have hg' := List.getElem?_eq_getElem hj
    obtain ⟨m, hm, hname⟩ := placeIn_name hg
      (hsub f hf _ (List.mem_map.mpr ⟨_, List.getElem_mem hi, rfl⟩))
    obtain ⟨m', hm', hname'⟩ := placeIn_name hg'
      (hsub f hf _ (List.mem_map.mpr ⟨_, List.getElem_mem hj, rfl⟩))
    rw [hij, hm'] at hm
    obtain rfl := Option.some.inj hm
    exact index_unique (hnd f hf) hg hg' (hname.symm.trans hname')
  · have hfile : ∀ f ∈ r.opened, List.Forall₂ (fun e row' => KeepsCells e.1.schema.fields
        merged.schema.fields (placeIn merged.schema.fields e.1) e.2 row')
        ((f.rows.getD []).map fun row => (f, row))
        ((f.rows.getD []).map (conform schema f.schema.fields)) := by
      intro f hf
      rw [List.forall₂_map_left_iff, List.forall₂_map_right_iff, List.forall₂_same, hfields]
      exact fun row _ => keepsCells_conform (hnd f hf) hmerged (hsub f hf) row
    rw [openedRows]
    generalize r.opened = files at hfile
    induction files with
    | nil => exact .nil
    | cons f files ih =>
        rw [List.flatMap_cons, List.flatMap_cons]
        exact List.rel_append (hfile f (by simp)) (ih fun f' hf' => hfile f' (by simp [hf']))
  · have hne : r.opened ≠ [] := by
      intro hnil
      rw [hnil, List.length_nil] at htwo
      omega
    obtain ⟨run', hfold, hfinish⟩ := hreach.folded hmerge (.inl ⟨rfl, rfl⟩) run hrun hne
    exact ⟨run', hfold, by rw [hkv, hfinish]⟩

/-- Columns that have a place each among columns of distinct names have distinct names. -/
theorem Placed.nodup {f : ParquetFile} {merged : List Field} {place : Nat → Nat}
    (h : Placed f.schema.fields merged place) (hmerged : (merged.map Field.name).Nodup) :
    f.names.Nodup := by
  refine List.pairwise_iff_getElem.mpr fun i j hi hj hlt heq => ?_
  rw [ParquetFile.names, List.length_map] at hi hj
  simp only [ParquetFile.names, List.getElem_map] at heq
  obtain ⟨m, hm, hname, -⟩ := h.column i _ (List.getElem?_eq_getElem hi)
  obtain ⟨m', hm', hname', -⟩ := h.column j _ (List.getElem?_eq_getElem hj)
  have hplace := index_unique hmerged hm hm' (by rw [hname, hname', heq])
  exact absurd (h.inj i j hi hj hplace) (Nat.ne_of_lt hlt)

/-- **A union merge is the union exactly where names are distinct.** A concatenation under
`UnionFields` that merged `consumed` segments wrote their union if and only if none of them
has two columns of one name. -/
theorem concatParquet_unites_iff (hpq : pq.RoundTrips) (hmeta : pq.KeepsMetadata)
    (hmerge : merge.Describes) {source_id : Int} {stream : String} {props : Props}
    {seqs : List Nat} {d d' : Disk} {faults rest : List (Fault StorageFailure)} {bytes : Bytes}
    {consumed : Nat} (h : concatParquet pq seqs
      (fun seq => RewriteM.query fun a => a.readSegmentBytes source_id stream seq) props
      .unionFields merge stream d faults = (.ok (bytes, consumed), d', rest))
    (htwo : 2 ≤ consumed) :
    ∃ files : List ParquetFile, List.Forall₂ (fun seq f => ∃ blob,
        d.db.readSegmentBytes source_id stream seq = some blob ∧ pq.openFile blob = .ok f)
        (seqs.take consumed) files ∧ files.length = consumed ∧
      ((∃ merged, pq.openFile bytes = .ok merged ∧ Unites pq merge props files merged) ↔
        ∀ f ∈ files, f.names.Nodup) := by
  obtain ⟨-, rfl, hconcat⟩ := (runs_concatParquet (R := fun _ _ => True) seqs).returned h
  generalize hout : (bytes, consumed) = out at hconcat
  cases hconcat with
  | nothing =>
      obtain ⟨-, rfl⟩ := Prod.mk.inj hout
      exact absurd htwo (by decide)
  | @merged r run bytes hreach hrun hlen hbytes =>
      obtain ⟨rfl, rfl⟩ := Prod.mk.inj hout
      obtain ⟨-, files, hfiles, -, hopened⟩ := hreach.opened (runInv_empty _)
      rw [RunState.empty, List.nil_append] at hfiles
      rw [← hfiles] at hopened
      refine ⟨r.opened, hopened, rfl, ?_,
        unites_of_nodup hpq hmeta hmerge hreach hrun hlen hbytes⟩
      rintro ⟨merged, -, hunites⟩ f hf
      obtain ⟨place, hplaced, -⟩ := hunites.rows
      refine (hplaced f hf).nodup ?_
      rw [show merged.schema.fields.map Field.name = merged.names from rfl, hunites.names]
      exact List.nodup_eraseDups _

end

/-! ## A segment with two columns of one name -/

theorem anyMetadata_describes : anyMetadata.Describes := by
  intro run next run' h
  cases (Prod.mk.inj h).1

/-- The union of the two segments of a file, as the code concatenates them. -/
def unionOfTwo (pq : Parquet (Option (List KeyValue)) (Schema × List Row)) (d : Disk) :
    Outcome Error (Bytes × Nat) × Disk × List (Fault StorageFailure) :=
  concatParquet pq [0, 1]
    (fun seq => RewriteM.query fun a => a.readSegmentBytes 1 "cpu" seq) none .unionFields
    anyMetadata "cpu" d []

theorem concatParquet_unites_iff_shelved :
    let pq := shelfParquet oneColumnShelf
    ∃ files : List ParquetFile, List.Forall₂ (fun seq f => ∃ blob,
        (shelved [[], [0]]).db.readSegmentBytes 1 "cpu" seq = some blob ∧
          pq.openFile blob = .ok f) ([0, 1].take 2) files ∧ files.length = 2 ∧
      ((∃ merged, pq.openFile [0, 0] = .ok merged ∧ Unites pq anyMetadata none files merged) ↔
        ∀ f ∈ files, f.names.Nodup) := by
  intro pq
  have hrun : unionOfTwo pq (shelved [[], [0]]) = (.ok ([0, 0], 2), shelved [[], [0]], []) := rfl
  exact concatParquet_unites_iff (shelfParquet_roundTrips _) (shelfParquet_keepsMetadata _)
    anyMetadata_describes hrun (le_refl 2)

def valueField : Field := { name := "v", data_type := "Int64", nullable := false, metadata := ∅ }

/-- A row of two columns, both named `v`, a row of one, and what their union is written as. -/
def twinShelf : List (Schema × List Row) :=
  [({ fields := [valueField, valueField], metadata := ∅ }, [byteRow 7 ++ byteRow 9]),
    ({ fields := [valueField], metadata := ∅ }, [byteRow 8]),
    ({ fields := [{ valueField with nullable := true }], metadata := ∅ },
      [byteRow 7, byteRow 8])]

/-- The second of two columns is lost: nine is in no cell of the merged file. -/
theorem concatParquet_fuses_twins :
    let pq := shelfParquet twinShelf
    pq.RoundTrips ∧ pq.KeepsMetadata ∧
      unionOfTwo pq (shelved [[], [0]]) = (.ok ([0, 0], 2), shelved [[], [0]], []) ∧
      ∃ twins single merged, pq.openFile [] = .ok twins ∧ pq.openFile [0] = .ok single ∧
        pq.openFile [0, 0] = .ok merged ∧ merged.rows = some [byteRow 7, byteRow 8] ∧
        ¬ Unites pq anyMetadata none [twins, single] merged := by
  refine ⟨shelfParquet_roundTrips _, shelfParquet_keepsMetadata _, rfl, _, _, _, rfl, rfl, rfl, rfl,
    fun hunites => ?_⟩
  obtain ⟨place, hplaced, -⟩ := hunites.rows
  exact absurd ((hplaced _ List.mem_cons_self).nodup (by decide)) (by decide)

end Dendro
