import Dendro.Rewrite.Planning
import Dendro.Rewrite.Union
import Mathlib.Data.List.Flatten

/-!
# Union compaction in stages

A segment is a table of named columns, and under `UnionFields` a merge is its segments'
tables one under the other (`tableOf_writeMerged`). Putting tables together in groups first
makes no difference (`Table.unite_unite`), so passes with any targets, whatever strikes
them, keep the stream's table (`Grouped`), and a last pass that reaches the stream's total rows
leaves one segment that holds it (`compactStreamWith_staged`). Where no call fails, only the
library can stop it (`Grouped.goes`).

What it takes is that a column some segment lacks may be null already, or is in one segment
alone: a merge that lacks a column in part makes it nullable, and a segment that still has it
as it was is then refused (`compactStreamWith_staged_refuses`).
-/

namespace Dendro

open Archive Relation

/-- A field that may be null. -/
def Field.relaxed (f : Field) : Field := { f with nullable := true }

/-- Tables of a stream one under the other. -/
abbrev uniteTables (ts : List (Table Field Cell)) : Table Field Cell :=
  Table.unite Field.name Cell.null Field.relaxed ts

section

variable {Props Writer Run : Type} {pq : Parquet Props Writer} {merge : MetadataMerge Run}

/-- The table a file that was opened holds, if it can be read to its end. -/
def ParquetFile.table (f : ParquetFile) : Option (Table Field Cell) :=
  f.rows.map fun rows => { columns := f.schema.fields, rows }

/-- The table a segment holds. -/
def tableOf (pq : Parquet Props Writer) (bytes : Bytes) : Option (Table Field Cell) :=
  (pq.openFile bytes).toOption.bind ParquetFile.table

/-- A batch has a cell for each column. -/
def Parquet.Rectangular (pq : Parquet Props Writer) : Prop :=
  ∀ bytes f rows, pq.openFile bytes = .ok f → f.rows = some rows →
    ∀ row ∈ rows, row.length = f.schema.fields.length

/-- A merge that accepts everything. -/
structure MetadataMerge.AcceptsAll (merge : MetadataMerge Run) : Prop where
  start : ∀ first, (merge.start first).isSome
  extend : ∀ run next, (merge.extend run next).1 = true

theorem tableOf_eq {bytes : Bytes} {t : Table Field Cell} (h : tableOf pq bytes = some t) :
    ∃ f, pq.openFile bytes = .ok f ∧ f.table = some t := by
  obtain ⟨f, hf, ht⟩ := Option.bind_eq_some_iff.mp h
  rcases hopen : pq.openFile bytes with e | g
  · rw [hopen] at hf
    cases hf
  · rw [hopen] at hf
    exact ⟨f, by rw [← Option.some.inj hf], ht⟩

theorem table_eq {f : ParquetFile} {t : Table Field Cell} (h : f.table = some t) :
    f.schema.fields = t.columns ∧ f.rows = some t.rows := by
  obtain ⟨rows, hrows, rfl⟩ := Option.map_eq_some_iff.mp h
  exact ⟨rfl, hrows⟩

theorem exists_table : ∀ {files : List ParquetFile} {ts : List (Table Field Cell)},
    List.Forall₂ (fun f t => f.table = some t) files ts →
      ∀ f ∈ files, ∃ t ∈ ts, f.schema.fields = t.columns
  | f :: _, t :: _, .cons h hrest, f', hf' => by
      rcases List.mem_cons.mp hf' with rfl | hf'
      · exact ⟨t, by simp, (table_eq h).1⟩
      · obtain ⟨t', ht', heq⟩ := exists_table hrest f' hf'
        exact ⟨t', by simp [ht'], heq⟩

/-! ## The table of a merge -/

/-- Lists whose elements have the same names and agree are one. -/
theorem eq_of_names {α β : Type} {name : α → β} : ∀ {l l' : List α}, l.map name = l'.map name →
    (∀ a ∈ l, ∀ b ∈ l', name a = name b → a = b) → l = l'
  | [], [], _, _ => rfl
  | [], _ :: _, h, _ => by cases h
  | _ :: _, [], h, _ => by cases h
  | a :: l, b :: l', h, hall => by
      obtain ⟨hab, hrest⟩ := List.cons.inj h
      rw [hall a (by simp) b (by simp) hab,
        eq_of_names hrest fun c hc d hd => hall c (by simp [hc]) d (by simp [hd])]

/-- What was counted are the first columns of the segments. -/
theorem Tally.fields {order : List (Field × Nat)} {files : List ParquetFile}
    (h : Tally order files) :
    order.map Prod.fst = (files.flatMap fun f => f.schema.fields).eraseDups := by
  have hfield : ∀ g ∈ files.flatMap (fun f => f.schema.fields), ∃ f ∈ files, g ∈ f.schema.fields :=
    fun g hg => List.mem_flatMap.mp hg
  have hinj : ∀ g ∈ files.flatMap (fun f => f.schema.fields),
      ∀ g' ∈ files.flatMap (fun f => f.schema.fields), g.name = g'.name → g = g' := by
    intro g hg g' hg' hname
    obtain ⟨f, hf, hgf⟩ := hfield g hg
    obtain ⟨f', hf', hgf'⟩ := hfield g' hg'
    obtain ⟨e, he, heg⟩ := List.mem_map.mp
      ((h.mem_names g.name).mpr ⟨f, hf, List.mem_map.mpr ⟨g, hgf, rfl⟩⟩)
    rw [← h.same f hf g hgf e he heg, h.same f' hf' g' hgf' e he (heg.trans hname)]
  have hnames : (files.flatMap ParquetFile.names) =
      (files.flatMap fun f => f.schema.fields).map Field.name := by
    rw [List.map_flatMap]
    rfl
  refine eq_of_names (?_ : List.map Field.name _ = List.map Field.name _) fun g hg g' hg' hname => ?_
  · rw [List.map_map, ← List.eraseDups_map hinj, ← hnames, ← h.names]
    rfl
  · obtain ⟨e, he, rfl⟩ := List.mem_map.mp hg
    obtain ⟨f, hf, hgf⟩ := hfield g' (List.mem_eraseDups.mp hg')
    exact h.same f hf g' hgf e he hname

/-- A row that conforms is one that was put under the merged columns. -/
theorem conform_eq_spread {schema : Schema} {fields : List Field} {row : Row}
    (hnd : (fields.map Field.name).Nodup) (hlen : row.length = fields.length) :
    conform schema fields row = Table.spread Field.name Cell.null fields schema.fields row := by
  unfold conform
  split
  · rename_i heq
    rw [← heq, Table.spread_self hnd hlen]
  · rfl

/-- **A union merge holds its segments' tables one under the other.** -/
theorem tableOf_writeMerged (hpq : pq.RoundTrips) {stream : String} {props : Props}
    {r : RunState Run} {bytes : Bytes} {ts : List (Table Field Cell)} (hfirst : r.first = none)
    (htally : Tally r.order r.opened)
    (htables : List.Forall₂ (fun f t => f.table = some t) r.opened ts)
    (heven : ∀ t ∈ ts, Table.Even Field.name t)
    (hbytes : writeMerged pq stream (r.schema r.opened.length) props r.opened = .ok bytes) :
    tableOf pq bytes = some (uniteTables ts) := by
  obtain ⟨merged, hopen, hfields, hrows⟩ := writeMerged_rows hpq hbytes
  have hcolumns : ∀ {files : List ParquetFile} {ts : List (Table Field Cell)},
      List.Forall₂ (fun f t => f.table = some t) files ts →
        (files.flatMap fun f => f.schema.fields) = ts.flatMap (·.columns) ∧
        ∀ g, (∀ f ∈ files, g ∈ f.schema.fields) ↔ ∀ t ∈ ts, g ∈ t.columns := by
    intro files ts h
    induction h with
    | nil => exact ⟨rfl, by simp⟩
    | cons hf _ ih =>
        rw [List.flatMap_cons, List.flatMap_cons, (table_eq hf).1, ih.1]
        refine ⟨rfl, fun g => ?_⟩
        rw [List.forall_mem_cons, List.forall_mem_cons, (table_eq hf).1, ih.2]
  have hunited : (r.schema r.opened.length).fields = Table.uniteColumns Field.relaxed ts := by
    rw [RunState.schema, hfirst, Table.uniteColumns, Table.firstColumns, ← (hcolumns htables).1,
      ← htally.fields, List.map_map]
    refine List.map_congr_left fun e he => ?_
    -- a field that was counted in every segment is one that every segment has
    have hcount : e.2 = r.opened.length ↔ Table.shared ts e.1 = true := by
      rw [Table.shared_iff, ← (hcolumns htables).2, htally.count e he,
        List.length_filter_eq_length_iff]
      refine forall₂_congr fun f hf => ?_
      rw [decide_eq_true_eq]
      refine ⟨fun hin => ?_, fun hin => List.mem_map.mpr ⟨_, hin, rfl⟩⟩
      obtain ⟨g, hg, hname⟩ := List.mem_map.mp hin
      exact htally.same f hf g hg e he hname.symm ▸ hg
    by_cases hall : e.2 = r.opened.length
    · rw [if_pos hall, Function.comp_apply, if_pos (hcount.mp hall)]
    · rw [if_neg hall, Function.comp_apply, if_neg (mt hcount.mpr hall)]
      rfl
  rw [tableOf, hopen]
  show merged.table = _
  rw [ParquetFile.table, hrows, hfields, hunited, Option.map_some]
  refine congrArg some (congrArg (Table.mk _) ?_)
  rw [← hunited]
  generalize r.schema r.opened.length = schema
  clear hfields hrows hunited hbytes htally
  generalize r.opened = files at htables ⊢
  induction htables with
  | nil => rfl
  | @cons f t files ts hf _ ih =>
      have ht := heven t (by simp)
      rw [List.flatMap_cons, List.flatMap_cons, ih fun t' ht' => heven t' (by simp [ht']),
        (table_eq hf).2, (table_eq hf).1, Option.getD_some]
      refine congrArg (· ++ _) (List.map_congr_left fun row hrow => ?_)
      exact conform_eq_spread ht.distinct (ht.rows row hrow)

/-! ## A concatenation of tables -/

/-- The tables of the leading segments of a run. -/
theorem Reaches.tables {policy : SchemaPolicy} {contents : List Bytes}
    {ts : List (Table Field Cell)} {r r' : RunState Run}
    (h : Reaches pq merge policy r (contents.map some) r')
    (hts : List.Forall₂ (fun bytes t => tableOf pq bytes = some t) contents ts) :
    ∃ files, r'.opened = r.opened ++ files ∧
      List.Forall₂ (fun f t => f.table = some t) files (ts.take files.length) := by
  induction hts generalizing r with
  | nil =>
      cases h
      exact ⟨[], by simp, .nil⟩
  | cons ht _ ih =>
      cases h with
      | refused | declined => exact ⟨[], by simp, .nil⟩
      | @joined _ _ _ _ file _ run hopen _ _ hrest =>
          obtain ⟨files, hfiles, htables⟩ := ih hrest
          obtain ⟨f, hopen', htable⟩ := tableOf_eq ht
          obtain rfl : file = f := Except.ok.inj (hopen.symm.trans hopen')
          refine ⟨file :: files, ?_, .cons htable htables⟩
          simp [hfiles, RunState.push]

/-- What a merge that accepts everything makes of a judgement. -/
theorem judge_accepts (haccepts : merge.AcceptsAll) {run kept : Option Run} {input : MergeInput} :
    judge merge run input ≠ (kept, none) := by
  intro h
  rcases run with _ | run
  · have hstart := haccepts.start input
    rw [(Prod.mk.inj h).2] at hstart
    cases hstart
  · have hextend := haccepts.extend run input
    rw [judge] at h
    rcases hext : merge.extend run input with ⟨go, next⟩
    rw [hext] at h hextend
    obtain rfl : go = true := hextend
    cases (Prod.mk.inj h).2

/-- **A run of tables that agree goes on to its end**, with a merge that accepts everything. -/
theorem Reaches.complete (haccepts : merge.AcceptsAll) {contents : List Bytes}
    {ts ts₀ : List (Table Field Cell)} {r r' : RunState Run}
    (h : Reaches pq merge .unionFields r (contents.map some) r')
    (hts : List.Forall₂ (fun bytes t => tableOf pq bytes = some t) contents ts)
    (hopened : List.Forall₂ (fun f t => f.table = some t) r.opened ts₀)
    (hagree : Table.Agree Field.name (ts₀ ++ ts)) (hnd : ∀ t ∈ ts, (t.columns.map Field.name).Nodup)
    (htally : Tally r.order r.opened) (hrun : r.opened ≠ [] → r.run ≠ none) :
    r'.opened.length = r.opened.length + contents.length ∧ (r'.opened ≠ [] → r'.run ≠ none) := by
  induction hts generalizing r ts₀ with
  | nil =>
      cases h
      exact ⟨rfl, hrun⟩
  | @cons bytes t contents ts ht _ ih =>
      obtain ⟨f, hopenf, htable⟩ := tableOf_eq ht
      cases h with
      | declined _ _ hjudge => exact absurd hjudge (judge_accepts haccepts)
      | @refused _ _ _ file hopen hadm =>
          obtain rfl : file = f := Except.ok.inj (hopen.symm.trans hopenf)
          -- a field that was seen is a column of a table that agrees
          have hadmitted : schemaAdmitted .unionFields r' file.ownSchema = true := by
            refine List.all_eq_true.mpr fun g hg => ?_
            rcases hfind : r'.order.find? (·.1.name = g.name) with _ | seen
            · rw [hfind]
            · have hseen : seen.1.name = g.name := by simpa using List.find?_some hfind
              have hmem := List.mem_of_find?_eq_some hfind
              obtain ⟨f', hf', hname⟩ := (htally.mem_names _).mp
                (List.mem_map.mpr ⟨seen, hmem, rfl⟩)
              obtain ⟨g', hg', hgname⟩ := List.mem_map.mp hname
              have hsame := htally.same f' hf' g' hg' seen hmem hgname.symm
              obtain ⟨t', ht', hcolumns⟩ := exists_table hopened f' hf'
              have heq : g' = g := hagree t' (List.mem_append_left _ ht') t (by simp) g'
                (hcolumns ▸ hg') g ((table_eq htable).1 ▸ hg) (hgname.trans hseen)
              rw [hfind]
              exact decide_eq_true (hsame.trans heq)
          rw [hadmitted] at hadm
          cases hadm
      | @joined _ _ _ _ file _ run hopen hadm _ hrest =>
          obtain rfl : file = f := Except.ok.inj (hopen.symm.trans hopenf)
          have hfile : file.names.Nodup := by
            rw [ParquetFile.names, (table_eq htable).1]
            exact hnd t (by simp)
          have hpush : List.Forall₂ (fun f t => f.table = some t) (r.opened ++ [file]) (ts₀ ++ [t]) :=
            List.rel_append hopened (.cons htable .nil)
          obtain ⟨hlen, hrun'⟩ := ih hrest hpush (by simpa using hagree)
            (fun t' ht' => hnd t' (by simp [ht'])) (htally.push hfile (htally.admitted hadm))
            fun _ => by simp [RunState.push]
          refine ⟨?_, hrun'⟩
          rw [hlen]
          simp only [RunState.push, List.length_append, List.length_cons, List.length_nil]
          omega

theorem tally_empty : Tally (RunState.empty : RunState Run).order
    (RunState.empty : RunState Run).opened :=
  ⟨rfl, by simp [RunState.empty], by simp [RunState.empty]⟩

/-- **A concatenation holds the tables it consumed, one under the other.** -/
theorem Concat.table (hpq : pq.RoundTrips) {stream : String} {props : Props}
    {contents : List Bytes} {ts : List (Table Field Cell)} {out : Bytes × Nat}
    (h : Concat pq merge .unionFields stream props (contents.map some) out)
    (hcontents : List.Forall₂ (fun bytes t => tableOf pq bytes = some t) contents ts)
    (heven : ∀ t ∈ ts, Table.Even Field.name t) (htwo : 2 ≤ out.2) :
    tableOf pq out.1 = some (uniteTables (ts.take out.2)) := by
  cases h with
  | nothing => exact absurd htwo (by decide)
  | @merged r run bytes hreach _ _ hbytes =>
      obtain ⟨files, hfiles, htables⟩ := hreach.tables hcontents
      obtain rfl : r.opened = files := by simpa [RunState.empty] using hfiles
      have hevens : ∀ t ∈ ts.take r.opened.length, Table.Even Field.name t :=
        fun t ht => heven t (List.mem_of_mem_take ht)
      have hnd : ∀ f ∈ r.opened, f.names.Nodup := by
        intro f hf
        obtain ⟨t, ht, hcolumns⟩ := exists_table htables f hf
        rw [ParquetFile.names, hcolumns]
        exact (hevens t ht).distinct
      exact tableOf_writeMerged hpq (hreach.first_union rfl) (hreach.tally tally_empty hnd) htables
        hevens hbytes

/-- A concatenation of tables that agree consumes all of them. -/
theorem Concat.complete (haccepts : merge.AcceptsAll) {stream : String} {props : Props}
    {contents : List Bytes} {ts : List (Table Field Cell)} {out : Bytes × Nat}
    (h : Concat pq merge .unionFields stream props (contents.map some) out)
    (hcontents : List.Forall₂ (fun bytes t => tableOf pq bytes = some t) contents ts)
    (hagree : Table.Agree Field.name ts) (heven : ∀ t ∈ ts, Table.Even Field.name t)
    (hne : contents ≠ []) : out.2 = contents.length := by
  have hall : ∀ {r : RunState Run}, Reaches pq merge .unionFields .empty (contents.map some) r →
      r.opened.length = contents.length ∧ r.run ≠ none := by
    intro r hreach
    obtain ⟨hlen, hrun⟩ := hreach.complete haccepts hcontents .nil hagree
      (fun t ht => (heven t ht).distinct) tally_empty fun h => absurd rfl h
    have hlen' : r.opened.length = contents.length := by simpa [RunState.empty] using hlen
    refine ⟨hlen', hrun fun hnil => hne ?_⟩
    rw [hnil, List.length_nil] at hlen'
    exact List.length_eq_zero_iff.mp hlen'.symm
  cases h with
  | nothing hreach hfew =>
      obtain ⟨hlen, hrun⟩ := hall hreach
      have hpos := List.length_pos_iff.mpr hne
      rcases hfew with hnone | hfew
      · exact absurd hnone hrun
      · dsimp only
        omega
  | merged hreach => exact (hall hreach).1

/-! ## What a pass keeps -/

/-- Tables that can be put one under the other in any groups. -/
structure Unitable (ts : List (Table Field Cell)) : Prop where
  even : ∀ t ∈ ts, Table.Even Field.name t
  agree : Table.Agree Field.name ts
  steady : Table.Steady Field.relaxed ts

theorem Unitable.sublist {ts ts' : List (Table Field Cell)} (h : Unitable ts)
    (hsub : ts'.Sublist ts) : Unitable ts' where
  even t ht := h.even t (hsub.subset ht)
  agree := h.agree.subset hsub.subset
  steady := h.steady.sublist hsub

/-- Each segment holds a group of tables, one under the other. -/
def Holding (pq : Parquet Props Writer) (es : List (Nat × SegmentCols))
    (groups : List (List (Table Field Cell))) : Prop :=
  List.Forall₂ (fun e g => g ≠ [] ∧ tableOf pq e.2.bytes = some (uniteTables g)) es groups

/-- A stream whose segments hold the tables `ts`, group by group, and count `total` rows. -/
def Grouped (pq : Parquet Props Writer) (source_id : Int) (stream : String)
    (ts : List (Table Field Cell)) (total : Nat) (a : Archive) : Prop :=
  ∃ groups, Holding pq (a.catalog (streamKey source_id stream)).entries groups ∧
    groups.flatten = ts ∧ rowSum (a.catalog (streamKey source_id stream)).entries = total

/-- The tables of the groups are even, since each group agrees. -/
theorem Unitable.even_groups {groups : List (List (Table Field Cell))}
    (h : Unitable groups.flatten) : ∀ t ∈ groups.map uniteTables, Table.Even Field.name t := by
  intro t ht
  obtain ⟨g, hg, rfl⟩ := List.mem_map.mp ht
  have hsub : g.Sublist groups.flatten := List.sublist_flatten_of_mem hg
  exact Table.even_unite (fun _ => rfl) (h.sublist hsub).agree

theorem Holding.nonempty {es : List (Nat × SegmentCols)} {groups : List (List (Table Field Cell))}
    (h : Holding pq es groups) : ∀ g ∈ groups, g ≠ [] := by
  induction h with
  | nil => simp
  | cons hg _ ih => exact List.forall_mem_cons.mpr ⟨hg.1, ih⟩

theorem Holding.opens {es : List (Nat × SegmentCols)} {groups : List (List (Table Field Cell))}
    (h : Holding pq es groups) : ∀ e ∈ es, ∃ f, pq.openFile e.2.bytes = .ok f := by
  induction h with
  | nil => simp
  | cons hg _ ih =>
      obtain ⟨f, hopen, -⟩ := tableOf_eq hg.2
      exact List.forall_mem_cons.mpr ⟨⟨f, hopen⟩, ih⟩

theorem Holding.split {es es' : List (Nat × SegmentCols)} {groups : List (List (Table Field Cell))}
    (h : Holding pq (es ++ es') groups) :
    ∃ front ahead, groups = front ++ ahead ∧ Holding pq es front ∧ Holding pq es' ahead := by
  have hfront := List.forall₂_take es.length h
  have hahead := List.forall₂_drop es.length h
  rw [List.take_left] at hfront
  rw [List.drop_left] at hahead
  exact ⟨_, _, (List.take_append_drop _ _).symm, hfront, hahead⟩

theorem Holding.contents {es : List (Nat × SegmentCols)} {groups : List (List (Table Field Cell))}
    (h : Holding pq es groups) : List.Forall₂ (fun bytes t => tableOf pq bytes = some t)
      (es.map fun e => e.2.bytes) (groups.map uniteTables) := by
  rw [List.forall₂_map_left_iff, List.forall₂_map_right_iff]
  exact h.imp fun _ _ hg => hg.2

variable {source_id : Int} {stream : String} {ts : List (Table Field Cell)} {total : Nat}
  {spec : CompactSpec Props}

/-- **The table of a replacement** is that of the tables its segments hold. -/
theorem Replaces.table (hpq : pq.RoundTrips) (hspec : spec.schema = .unionFields) {a : Archive}
    {es : List (Nat × SegmentCols)} {pos consumed : Nat} {bytes : Bytes}
    {first last : Nat × SegmentMeta} {groups : List (List (Table Field Cell))}
    (h : Replaces pq source_id stream spec merge (metasOf es) pos a bytes consumed first last)
    (hmem : ∀ e ∈ es.drop pos, e ∈ (a.catalog (streamKey source_id stream)).entries)
    (hholds : Holding pq (es.drop pos) groups) (hu : Unitable groups.flatten) :
    tableOf pq bytes = some (uniteTables (groups.take consumed).flatten) := by
  have hplanned := h.planned hmem
  have hconcat := h.concat
  rw [plannedBlobs_eq _ hmem, hspec] at hconcat
  generalize fits spec.target_rows 0 ((metasOf es).drop pos) = planned at hplanned hconcat
  have hcontents : Holding pq ((es.drop pos).take planned) (groups.take planned) :=
    List.forall₂_take planned hholds
  have hplan := hu.sublist (List.take_sublist planned groups).flatten
  have htable := hconcat.table hpq hcontents.contents hplan.even_groups h.two
  dsimp only at htable
  rw [← List.map_take, List.take_take, Nat.min_eq_left hplanned] at htable
  have hpart := hu.sublist (List.take_sublist consumed groups).flatten
  rw [htable, uniteTables, Table.unite_unite hpart.steady (fun _ => rfl) hpart.agree (fun _ => rfl)
    fun g hg => hholds.nonempty g (List.mem_of_mem_take hg)]

/-- What a replacement leaves holds the same tables. -/
theorem Replaces.grouped (hpq : pq.RoundTrips) (hspec : spec.schema = .unionFields)
    (hu : Unitable ts) (htotal : total < 2 ^ 64) {a db : Archive} {es : List (Nat × SegmentCols)}
    {pos consumed : Nat} {bytes : Bytes} {first last : Nat × SegmentMeta}
    {front : List (Nat × SegmentCols)}
    (h : Replaces pq source_id stream spec merge (metasOf es) pos a bytes consumed first last)
    (hcat : (a.catalog (streamKey source_id stream)).entries = front ++ es.drop pos)
    (hdb : (replacement source_id stream (metasOf es) pos bytes consumed first last).apply a =
      .ok db) (hgrouped : Grouped pq source_id stream ts total a) :
    Grouped pq source_id stream ts total db := by
  have hmem : ∀ e ∈ es.drop pos, e ∈ (a.catalog (streamKey source_id stream)).entries :=
    fun e he => hcat ▸ List.mem_append_right _ he
  obtain ⟨hle, hm⟩ := h.mergeOf hmem
  obtain ⟨groups, hholds, hflat, hrows⟩ := hgrouped
  have hcatalog := (h.replaced hcat hdb).catalog
  rw [hcat] at hholds hrows
  obtain ⟨before, ahead, rfl, hbefore, hahead⟩ := hholds.split
  have htable := h.table hpq hspec hmem hahead (hu.sublist (by
    rw [← hflat, List.flatten_append]
    exact List.sublist_append_right _ _))
  have hlen : (es.drop pos).length = ahead.length := hahead.length_eq
  have htwo := h.two
  -- the group of the replacement is that of its run
  have hsplit : ahead.flatten = (ahead.take consumed).flatten ++ (ahead.drop consumed).flatten := by
    rw [← List.flatten_append, List.take_append_drop]
  refine ⟨before ++ (ahead.take consumed).flatten :: ahead.drop consumed, ?_, ?_, ?_⟩
  · rw [hcatalog]
    refine List.rel_append hbefore (.cons ⟨fun hnil => ?_, htable⟩ (List.forall₂_drop consumed hahead))
    have hpos : 0 < ahead.length := by omega
    have hfirst : ahead[0] ∈ ahead.take consumed := List.mem_take_iff_getElem.mpr
      ⟨0, by omega, rfl⟩
    exact hahead.nonempty _ (List.getElem_mem hpos) (List.flatten_eq_nil_iff.mp hnil _ hfirst)
  · rw [← hflat, List.flatten_append, List.flatten_append, List.flatten_cons, hsplit]
  · have hrun := rowSum_append ((es.drop pos).take consumed) ((es.drop pos).drop consumed)
    rw [List.take_append_drop] at hrun
    rw [rowSum_append] at hrows
    have hcount := hm.toNat_rows (by omega)
    rw [hcatalog, rowSum_append]
    simp only [rowSum, List.map_cons, List.sum_cons] at hrun hrows hcount ⊢
    omega

/-- **Every turn of a pass keeps the stream's table.** -/
theorem Grouped.turn (hpq : pq.RoundTrips) (hspec : spec.schema = .unionFields) (hu : Unitable ts)
    (htotal : total < 2 ^ 64) {d₀ d d' : Disk} {es : List (Nat × SegmentCols)} {pos pos' : Nat}
    {done done' : Compacted} (hpass : Pass pq spec.schema source_id stream d₀ es pos done d)
    (ht : Turn pq source_id stream spec merge (metasOf es) pos done d pos' done' d')
    (hgrouped : Grouped pq source_id stream ts total d.db) : Grouped pq source_id stream ts total d'.db := by
  obtain ⟨front, hfront, -⟩ := hpass.front
  cases ht with
  | alone => exact hgrouped
  | cut => exact hgrouped
  | merged hr happly => exact hr.grouped hpq hspec hu htotal hfront happly hgrouped

/-- **A pass keeps the stream's table**, whatever strikes it. -/
theorem Grouped.pass (merge : MetadataMerge Run) (hpq : pq.RoundTrips) (hspec : spec.schema = .unionFields) (hu : Unitable ts)
    (htotal : total < 2 ^ 64) {d : Disk} (hgrouped : Grouped pq source_id stream ts total d.db)
    (faults : List (Fault StorageFailure)) : Grouped pq source_id stream ts total
      (compactStreamWith pq source_id stream spec merge d faults).2.1.db := by
  let R : Disk → Disk → Prop := fun d d' =>
    Grouped pq source_id stream ts total d.db → Grouped pq source_id stream ts total d'.db
  have hruns : Prog.Runs R (compactStreamWith pq source_id stream spec merge) d
      (fun _ _ => True) fun _ _ => True := by
    refine (runs_pass rfl (pass_init d) (fun hpass ht =>
      ⟨.single fun hk => hk.turn hpq hspec hu htotal hpass ht, (hpass.turn ht).2⟩)
        fun _ hdown => ?_).mono (fun _ _ _ => trivial) fun _ _ h => h
    cases hdown
    exact .single fun hk => hk
  have hsteps := hruns.steps faults
  generalize (compactStreamWith pq source_id stream spec merge d faults).2.1 = d' at hsteps ⊢
  induction hsteps with
  | refl => exact hgrouped
  | tail _ hstep ih => exact hstep ih

/-! ## A target that the whole stream fits -/

/-- **Groups that can be united are concatenated to the end**, with a merge that accepts
everything. -/
theorem Concat.whole (haccepts : merge.AcceptsAll) {props : Props} {a : Archive}
    {es : List (Nat × SegmentCols)} {target_rows : UInt64} {out : Bytes × Nat}
    {groups : List (List (Table Field Cell))}
    (h : Concat pq merge .unionFields stream props
      (plannedBlobs source_id stream target_rows (metasOf es) 0 a) out)
    (hmem : ∀ e ∈ es, e ∈ (a.catalog (streamKey source_id stream)).entries)
    (hall : fits target_rows 0 (metasOf es) = es.length) (hne : es ≠ [])
    (hholds : Holding pq es groups) (hu : Unitable groups.flatten) : out.2 = es.length := by
  rw [plannedBlobs_eq target_rows (by simpa using hmem), List.drop_zero, List.drop_zero, hall,
    List.take_length] at h
  have hagree : Table.Agree Field.name (groups.map uniteTables) :=
    Table.agree_unite hu.steady (fun _ => rfl) hu.agree
  have hlen := h.complete haccepts hholds.contents hagree hu.even_groups
    (mt List.map_eq_nil_iff.mp hne)
  rwa [List.length_map] at hlen

/-- The first turn of a pass that the whole stream fits is its last, and leaves one segment. -/
theorem Turn.whole (haccepts : merge.AcceptsAll) (hspec : spec.schema = .unionFields)
    (hu : Unitable ts) {d d' : Disk} {es : List (Nat × SegmentCols)} {pos' : Nat}
    {done done' : Compacted} (hes : (d.db.catalog (streamKey source_id stream)).entries = es)
    (hgrouped : Grouped pq source_id stream ts total d.db)
    (hsum : total ≤ spec.target_rows.toNat)
    (ht : Turn pq source_id stream spec merge (metasOf es) 0 done d pos' done' d') :
    es.length ≤ pos' ∧ (d'.db.catalog (streamKey source_id stream)).entries.length = 1 := by
  obtain ⟨groups, hholds, hflat, hrows⟩ := hgrouped
  rw [hes] at hholds hrows
  have hmetas : (metasOf es).length = es.length := List.length_map _
  have hall : fits spec.target_rows 0 (metasOf es) = es.length := by
    rw [fits_all (by rwa [totalRows_metasOf, hrows]), hmetas]
  have hmem : ∀ e ∈ es, e ∈ (d.db.catalog (streamKey source_id stream)).entries :=
    fun e he => hes ▸ he
  have hwhole : ∀ {out : Bytes × Nat}, 0 < (metasOf es).length →
      Concat pq merge spec.schema stream (spec.writer_props.getD pq.writer_props)
        (plannedBlobs source_id stream spec.target_rows (metasOf es) 0 d.db) out →
      out.2 = es.length := by
    intro out hpos hconcat
    rw [hspec] at hconcat
    exact hconcat.whole haccepts hmem hall (List.ne_nil_of_length_pos (hmetas ▸ hpos)) hholds
      (hflat ▸ hu)
  cases ht with
  | alone hpos hfew =>
      rw [List.drop_zero, hall] at hfew
      rw [hes]
      omega
  | cut hpos htwo hconcat hcut =>
      have hlen := hwhole hpos hconcat
      rw [List.drop_zero, hall] at htwo
      omega
  | @merged _ consumed first last _ hr happly =>
      have hlen : consumed = es.length := hwhole hr.pos_lt hr.concat
      have hstart : (d.db.catalog (streamKey source_id stream)).entries = [] ++ es.drop 0 := by
        rw [hes, List.drop_zero, List.nil_append]
      have hcatalog := (hr.replaced hstart happly).catalog
      refine ⟨by omega, ?_⟩
      rw [hcatalog, hlen]
      simp

/-- **A pass that the whole stream fits leaves one segment with the stream's table.** -/
theorem Grouped.whole (hpq : pq.RoundTrips) (haccepts : merge.AcceptsAll)
    (hspec : spec.schema = .unionFields) (hu : Unitable ts) (hne : ts ≠ [])
    (hsum : total ≤ spec.target_rows.toNat) {d : Disk}
    (hgrouped : Grouped pq source_id stream ts total d.db) {faults : List (Fault StorageFailure)}
    {done : Compacted} (h : (compactStreamWith pq source_id stream spec merge d faults).1 = .ok done) :
    ∃ s, (compactStreamWith pq source_id stream spec merge d faults).2.1.db.readSegments source_id
        stream = [s] ∧
      tableOf pq s.bytes = some (uniteTables ts) ∧ s.seg_meta.rows.toNat = total := by
  have htotal : total < 2 ^ 64 := Nat.lt_of_le_of_lt hsum spec.target_rows.toNat_lt
  let es := (d.db.catalog (streamKey source_id stream)).entries
  have hruns : Prog.Runs (fun _ _ => True) (compactStreamWith pq source_id stream spec merge) d
      (fun _ d' => (d'.db.catalog (streamKey source_id stream)).entries.length = 1)
      fun _ _ => True := by
    have hlen : (metasOf es).length = es.length := List.length_map _
    have hsome : es ≠ [] := by
      intro hnil
      obtain ⟨groups, hholds, rfl, -⟩ := hgrouped
      rw [show (d.db.catalog (streamKey source_id stream)).entries = [] from hnil] at hholds
      cases hholds
      exact hne rfl
    have hpos := List.length_pos_iff.mpr hsome
    -- either the pass has not begun, or it is through
    refine (runs_pass (I := fun pos _ d' => pos = 0 ∧ d' = d ∨ es.length ≤ pos ∧
        (d'.db.catalog (streamKey source_id stream)).entries.length = 1)
      (rfl : _ = es) (.inl ⟨rfl, rfl⟩) (fun {pos _ d' _ _ _} hI ht => ?_) fun _ _ => .single trivial).mono
        ?_ fun _ _ h => h
    · rcases hI with ⟨rfl, rfl⟩ | ⟨hle, -⟩
      · exact ⟨.single trivial, .inr (ht.whole haccepts hspec hu rfl hgrouped hsum)⟩
      · have hlt : pos < (metasOf es).length := by
          cases ht with
          | alone hpos => exact hpos
          | cut hpos => exact hpos
          | merged hr => exact hr.pos_lt
        omega
    · rintro done' d' ⟨pos, hle, ⟨rfl, -⟩ | ⟨-, hone⟩⟩
      · omega
      · exact hone
  have hkeep := hgrouped.pass merge hpq hspec hu htotal faults
  rcases hr : compactStreamWith pq source_id stream spec merge d faults with ⟨r, d', rest⟩
  rw [hr] at h hkeep
  obtain rfl : r = .ok done := h
  obtain ⟨e, hone⟩ := List.length_eq_one_iff.mp (hruns.returned hr).2
  obtain ⟨groups, hholds, hflat, hrows⟩ := hkeep
  rw [hone] at hholds hrows
  cases hholds with
  | cons hg hrest =>
      cases hrest
      refine ⟨d'.db.segmentRow (streamKey source_id stream) e, ?_, ?_, ?_⟩
      · rw [readSegments_eq, hone]
        rfl
      · rw [← hflat, List.flatten_singleton]
        exact hg.2
      · rw [← hrows]
        exact (Nat.add_zero _).symm

/-! ## Without faults -/

/-- The library does not write the stream's segments as one file. -/
def Unwritable (pq : Parquet Props Writer) (source_id : Int) (stream : String) (a : Archive)
    (e : Error) : Prop :=
  ∃ schema props files, List.Forall₂ (fun s f => pq.openFile s.bytes = .ok f)
    (a.readSegments source_id stream) files ∧ writeMerged pq stream schema props files = .error e

/-- What was opened of a stream that is read to its end is all its segments. -/
theorem Reaches.files (haccepts : merge.AcceptsAll) {a : Archive} {es : List (Nat × SegmentCols)}
    {groups : List (List (Table Field Cell))} {r : RunState Run}
    (hes : (a.catalog (streamKey source_id stream)).entries = es) (hholds : Holding pq es groups)
    (hu : Unitable groups.flatten)
    (h : Reaches pq merge .unionFields .empty
      ((es.map Prod.fst).map (a.readSegmentBytes source_id stream)) r) :
    List.Forall₂ (fun s f => pq.openFile s.bytes = .ok f) (a.readSegments source_id stream)
      r.opened := by
  obtain ⟨-, files, hfiles, hopened⟩ := h.opened (runInv_empty _)
  obtain rfl : r.opened = files := by simpa [RunState.empty] using hfiles
  have hblobs : (es.map Prod.fst).map (a.readSegmentBytes source_id stream) =
      (es.map fun e => e.2.bytes).map some := by
    rw [List.map_map, List.map_map]
    refine List.map_congr_left fun e he => ?_
    rw [Function.comp_apply, readSegmentBytes, OrdMap.get?_eq_some.mpr (hes ▸ he)]
    rfl
  rw [hblobs] at h
  -- the tables of the groups agree, so the run goes on to its end
  have hagree : Table.Agree Field.name (groups.map uniteTables) :=
    Table.agree_unite hu.steady (fun _ => rfl) hu.agree
  obtain ⟨hlen, -⟩ := h.complete haccepts hholds.contents .nil hagree
    (fun t ht => (hu.even_groups t ht).distinct) tally_empty fun hne => absurd rfl hne
  have hall : r.opened.length = (es.map Prod.fst).length := by
    simpa [RunState.empty] using hlen
  obtain ⟨blobs, hreads, hopens⟩ := hopened.blobs
  rw [hall, List.take_length] at hreads
  rw [blobs_eq (fun e he => hes ▸ he) hreads] at hopens
  rw [readSegments_eq, hes, List.forall₂_map_left_iff]
  exact List.forall₂_map_left_iff.mp hopens

/-- Without faults, the segments of a stream are concatenated, or the library does not write
them as one file. -/
theorem goes_concatWhole (haccepts : merge.AcceptsAll) {d : Disk} {es : List (Nat × SegmentCols)}
    {groups : List (List (Table Field Cell))} {props : Props}
    (hes : (d.db.catalog (streamKey source_id stream)).entries = es) (hholds : Holding pq es groups)
    (hu : Unitable groups.flatten) :
    Prog.Goes (concatParquet pq (es.map Prod.fst)
        (fun seq => RewriteM.query fun a => a.readSegmentBytes source_id stream seq) props
        .unionFields merge stream) d
      (fun out d' => d' = d ∧ Concat pq merge .unionFields stream props
        ((es.map Prod.fst).map (d.db.readSegmentBytes source_id stream)) out)
      fun e _ => Unwritable pq source_id stream d.db e := by
  have hopens : ∀ seq ∈ es.map Prod.fst, ∀ blob,
      d.db.readSegmentBytes source_id stream seq = some blob → ∃ f, pq.openFile blob = .ok f := by
    intro seq hseq blob hblob
    obtain ⟨e, he, rfl⟩ := List.mem_map.mp hseq
    rw [readSegmentBytes, OrdMap.get?_eq_some.mpr (hes ▸ he)] at hblob
    exact Option.some.inj hblob ▸ hholds.opens e he
  refine (goes_concatParquet hopens).mono (fun _ _ h => h) fun e _ h => ?_
  obtain ⟨r, run, hreach, herr⟩ := h
  exact ⟨_, _, _, hreach.files haccepts hes hholds hu, herr⟩

/-- Without faults, the loop over a stream that fits the target whole is through after one turn,
or the library does not write the stream as one file. -/
theorem goes_compactWhole (haccepts : merge.AcceptsAll) (hspec : spec.schema = .unionFields)
    {d : Disk} {es : List (Nat × SegmentCols)} {groups : List (List (Table Field Cell))}
    {done : Compacted} (hes : (d.db.catalog (streamKey source_id stream)).entries = es)
    (hholds : Holding pq es groups) (hu : Unitable groups.flatten)
    (hall : fits spec.target_rows 0 (metasOf es) = es.length) (hsource : d.db.HasSource source_id) :
    Prog.Goes (compactFrom pq source_id stream spec merge (metasOf es) 0 done) d (fun _ _ => True)
      fun e _ => Unwritable pq source_id stream d.db e := by
  have hmetas : (metasOf es).length = es.length := List.length_map _
  have hthrough : ∀ {pos : Nat} {done : Compacted} {d' : Disk} {E : Error → Disk → Prop},
      es.length ≤ pos → Prog.Goes (compactFrom pq source_id stream spec merge (metasOf es) pos done)
        d' (fun _ _ => True) E :=
    fun hle => .inl ⟨_, _, run_compactFrom_end (hmetas ▸ hle), trivial⟩
  by_cases hpos : 0 < (metasOf es).length
  case neg => exact hthrough (by omega)
  rw [compactFrom, if_pos hpos]
  dsimp only
  rw [List.drop_zero, hall]
  by_cases hfew : es.length < 2
  case pos =>
    rw [if_pos hfew]
    exact hthrough (by omega)
  have hseqs : ((metasOf es).take es.length).map Prod.fst = es.map Prod.fst := by
    rw [← hmetas, List.take_length, metasOf, List.map_map]
    rfl
  rw [if_neg hfew, hspec, hseqs]
  refine (goes_concatWhole haccepts hes hholds hu).bind ?_
  rintro ⟨bytes, consumed⟩ d' ⟨rfl, hout⟩
  have hplanned : (es.map Prod.fst).map (d'.db.readSegmentBytes source_id stream) =
      plannedBlobs source_id stream spec.target_rows (metasOf es) 0 d'.db := by
    rw [plannedBlobs, List.drop_zero, hall, hseqs]
  have hne : es ≠ [] := List.ne_nil_of_length_pos (hmetas ▸ hpos)
  have hlen : (bytes, consumed).2 = es.length := Concat.whole haccepts (hplanned ▸ hout)
    (fun e he => hes ▸ he) hall hne hholds hu
  dsimp only at hlen ⊢
  rw [if_neg (by omega), hlen, ← hmetas, List.take_length]
  -- the run is the whole catalog, which has a first and a last segment
  have hmetasne : metasOf es ≠ [] := List.ne_nil_of_length_pos hpos
  rw [List.head?_eq_some_head hmetasne, List.getLast?_eq_some_getLast hmetasne]
  dsimp only
  refine .bind (Q := fun _ _ => True) (.call (fun _ _ _ => trivial) fun e d₁ hrun => ?_)
    fun _ _ _ => hthrough (by omega)
  -- nothing refuses its merge: the `seq` it is stored at was freed just before
  have hseq : ((metasOf es).head hmetasne).1 ∈ (metasOf es).map Prod.fst :=
    List.mem_map.mpr ⟨_, List.head_mem hmetasne, rfl⟩
  obtain ⟨db, hdb⟩ := @merge_applies source_id stream _ _ _ hseq hsource
    (runMeta (metasOf es) ((metasOf es).head hmetasne).2 ((metasOf es).getLast hmetasne).2) bytes
  rw [Disk.run, hdb] at hrun
  exact absurd (congrArg Prod.fst hrun) (by simp)

/-- **Without faults, a pass that the whole stream fits returns**, or the library does not write
the stream as one file. -/
theorem Grouped.goes (haccepts : merge.AcceptsAll) (hspec : spec.schema = .unionFields)
    (hu : Unitable ts) (hsum : total ≤ spec.target_rows.toNat) {d : Disk}
    (hsource : d.db.HasSource source_id) (hgrouped : Grouped pq source_id stream ts total d.db) :
    Prog.Goes (compactStreamWith pq source_id stream spec merge) d (fun _ _ => True) fun e _ =>
      Unwritable pq source_id stream d.db e := by
  obtain ⟨groups, hholds, hflat, hrows⟩ := hgrouped
  obtain ⟨es, hes⟩ : ∃ es, (d.db.catalog (streamKey source_id stream)).entries = es := ⟨_, rfl⟩
  rw [hes] at hholds hrows
  have hall : fits spec.target_rows 0 (metasOf es) = es.length := by
    rw [fits_all (by rwa [totalRows_metasOf, hrows]), metasOf, List.length_map]
  unfold compactStreamWith
  refine .bind (Q := fun metas d' => d' = d ∧ metas = metasOf es)
    (.read (fun metas h => ⟨rfl, ?_⟩) fun _ h => absurd h (by simp)) ?_
  · rw [← hes]
    exact (Except.ok.inj h).symm
  · rintro metas d' ⟨rfl, rfl⟩
    exact goes_compactWhole haccepts hspec hes hholds (hflat ▸ hu) hall hsource

/-! ## Passes in stages -/

/-- A file after some passes over a stream, each with its own spec and whatever strikes it. -/
def compactions (pq : Parquet Props Writer) (source_id : Int) (stream : String)
    (merge : MetadataMerge Run) (d : Disk)
    (passes : List (CompactSpec Props × List (Fault StorageFailure))) : Disk :=
  passes.foldl (fun d pass => (compactStreamWith pq source_id stream pass.1 merge d pass.2).2.1) d

/-- Tables that were read have a cell in every row for each column. -/
theorem Parquet.Rectangular.rows (hrect : pq.Rectangular) : ∀ {contents : List Bytes}
    {ts : List (Table Field Cell)},
    List.Forall₂ (fun bytes t => tableOf pq bytes = some t) contents ts →
      ∀ t ∈ ts, ∀ row ∈ t.rows, row.length = t.columns.length
  | [], [], .nil => by simp
  | _ :: _, t :: ts, .cons ht hrest => by
      have ih := hrect.rows hrest
      refine List.forall_mem_cons.mpr ⟨?_, ih⟩
      obtain ⟨f, hopen, htable⟩ := tableOf_eq ht
      obtain ⟨hcolumns, hrows⟩ := table_eq htable
      exact hcolumns ▸ hrect _ f _ hopen hrows

/-- Segments as they are: a group of one table each. -/
theorem holding_init : ∀ {es : List (Nat × SegmentCols)} {ts : List (Table Field Cell)},
    List.Forall₂ (fun e t => tableOf pq e.2.bytes = some t) es ts →
      (∀ t ∈ ts, Table.Even Field.name t) → Holding pq es (ts.map fun t => [t])
  | [], [], .nil, _ => .nil
  | _ :: _, t :: _, .cons ht hrest, heven => by
      have ih := holding_init hrest fun t' ht' => heven t' (by simp [ht'])
      refine .cons ⟨List.cons_ne_nil _ _, ?_⟩ ih
      rw [ht, uniteTables, Table.unite_singleton (heven t (by simp))]

theorem grouped_init {d : Disk} (hu : Unitable ts) (hts : List.Forall₂
      (fun s t => tableOf pq s.bytes = some t) (d.db.readSegments source_id stream) ts) :
    Grouped pq source_id stream ts
      ((d.db.readSegments source_id stream).map fun s => s.seg_meta.rows.toNat).sum d.db := by
  rw [readSegments_eq, List.forall₂_map_left_iff] at hts
  refine ⟨ts.map fun t => [t], holding_init hts hu.even, ?_, ?_⟩
  · rw [← List.flatMap_def, List.flatMap_singleton']
  · rw [readSegments_eq, rowSum_eq]

/-- What passes in stages keep. -/
theorem Grouped.compactions (merge : MetadataMerge Run) (hpq : pq.RoundTrips) (hu : Unitable ts) (htotal : total < 2 ^ 64)
    {passes : List (CompactSpec Props × List (Fault StorageFailure))} {d : Disk}
    (hpolicies : ∀ pass ∈ passes, pass.1.schema = .unionFields)
    (h : Grouped pq source_id stream ts total d.db) :
    Grouped pq source_id stream ts total
      (Dendro.compactions pq source_id stream merge d passes).db := by
  induction passes generalizing d with
  | nil => exact h
  | cons pass passes ih =>
      have hnext := h.pass merge hpq (hpolicies pass (by simp)) hu htotal pass.2
      exact ih (fun p hp => hpolicies p (by simp [hp])) hnext

/-- Passes take no source away. -/
theorem hasSource_compactions (merge : MetadataMerge Run)
    {passes : List (CompactSpec Props × List (Fault StorageFailure))} {d : Disk}
    (h : d.db.HasSource source_id) :
    (compactions pq source_id stream merge d passes).db.HasSource source_id := by
  induction passes generalizing d with
  | nil => exact h
  | cons pass passes ih =>
      have hnext : (compactStreamWith pq source_id stream pass.1 merge d pass.2).2.1.db.HasSource
          source_id := by
        have hruns : Prog.Runs (MergeStep pq pass.1.schema source_id stream)
            (compactStreamWith pq source_id stream pass.1 merge) d _ _ := runs_compactStreamWith d
        have hsteps := hruns.steps pass.2
        generalize (compactStreamWith pq source_id stream pass.1 merge d pass.2).2.1 = d'
          at hsteps ⊢
        -- a merge rewrites the catalog of its stream and nothing else
        induction hsteps with
        | refl => exact h
        | tail _ hstep ih =>
            cases hstep with
            | merged _ _ hreplaced =>
                rw [HasSource, hreplaced.only.frame]
                exact ih
            | refused => exact ih
      exact ih hnext

/-- **Union compaction does not depend on staging.** Where the segments of a stream agree
field by field, each has columns of distinct names, and a column that some segment lacks may be
null already or is in one segment alone: passes with any targets, whatever strikes them, and then
one with a target that the stream's rows fit leave one segment, with the fields, the rows and the
values that this pass alone leaves. Without faults both return, unless the library does not write
the stream's segments as one file. -/
theorem compactStreamWith_staged (hpq : pq.RoundTrips) (hrect : pq.Rectangular)
    (haccepts : merge.AcceptsAll) {d : Disk} (hne : ts ≠ [])
    (hts : List.Forall₂ (fun s t => tableOf pq s.bytes = some t)
      (d.db.readSegments source_id stream) ts)
    (hagree : Table.Agree Field.name ts)
    (hdistinct : ∀ t ∈ ts, (t.columns.map Field.name).Nodup)
    (hsteady : Table.Steady Field.relaxed ts)
    {passes : List (CompactSpec Props × List (Fault StorageFailure))}
    (hpolicies : ∀ pass ∈ passes, pass.1.schema = .unionFields) {last : CompactSpec Props}
    (hlast : last.schema = .unionFields)
    (htarget : ((d.db.readSegments source_id stream).map fun s => s.seg_meta.rows.toNat).sum ≤
      last.target_rows.toNat) :
    (∀ faults faults' done done',
      (compactStreamWith pq source_id stream last merge
        (compactions pq source_id stream merge d passes) faults).1 = .ok done →
      (compactStreamWith pq source_id stream last merge d faults').1 = .ok done' →
      ∃ staged single,
        (compactStreamWith pq source_id stream last merge
          (compactions pq source_id stream merge d passes) faults).2.1.db.readSegments source_id
            stream = [staged] ∧
        (compactStreamWith pq source_id stream last merge d faults').2.1.db.readSegments source_id
            stream = [single] ∧
        tableOf pq staged.bytes = some (uniteTables ts) ∧
        tableOf pq single.bytes = some (uniteTables ts) ∧
        staged.seg_meta.rows = single.seg_meta.rows) ∧
    (d.db.HasSource source_id →
      ∀ start ∈ [compactions pq source_id stream merge d passes, d],
        (∃ done, (compactStreamWith pq source_id stream last merge start []).1 = .ok done) ∨
        ∃ e, (compactStreamWith pq source_id stream last merge start []).1 = .err e ∧
          Unwritable pq source_id stream start.db e) := by
  have hu : Unitable ts := by
    have hcontents : List.Forall₂ (fun bytes t => tableOf pq bytes = some t)
        ((d.db.readSegments source_id stream).map (·.bytes)) ts := List.forall₂_map_left_iff.mpr hts
    exact ⟨fun t ht => ⟨hdistinct t ht, hrect.rows hcontents t ht⟩, hagree, hsteady⟩
  have hstart := grouped_init hu hts
  generalize ((d.db.readSegments source_id stream).map fun s => s.seg_meta.rows.toNat).sum = total
    at htarget hstart
  have htotal : total < 2 ^ 64 := Nat.lt_of_le_of_lt htarget last.target_rows.toNat_lt
  have hstages := hstart.compactions merge hpq hu htotal hpolicies
  refine ⟨fun faults faults' done done' hstaged hsingle => ?_, fun hsource start hmem => ?_⟩
  · obtain ⟨staged, hone, htable, hrows⟩ := hstages.whole hpq haccepts hlast hu hne htarget hstaged
    obtain ⟨single, hone', htable', hrows'⟩ := hstart.whole hpq haccepts hlast hu hne htarget hsingle
    exact ⟨staged, single, hone, hone', htable, htable',
      UInt64.toNat_inj.mp (hrows.trans hrows'.symm)⟩
  · have hgoes : Prog.Goes (compactStreamWith pq source_id stream last merge) start
        (fun _ _ => True) fun e _ => Unwritable pq source_id stream start.db e := by
      rcases List.mem_pair.mp hmem with rfl | rfl
      · exact hstages.goes haccepts hlast hu htarget (hasSource_compactions merge hsource)
      · exact hstart.goes haccepts hlast hu htarget hsource
    rcases hgoes with ⟨done, d', hrun, -⟩ | ⟨e, d', hrun, he⟩
    · exact .inl ⟨done, by rw [hrun]⟩
    · exact .inr ⟨e, by rw [hrun], he⟩

end

/-! ## Three segments, two of them with one column -/

theorem anyMetadata_acceptsAll : anyMetadata.AcceptsAll := ⟨fun _ => rfl, fun _ _ => rfl⟩

def column (name : String) (nullable : Bool) : Field :=
  { name, data_type := "Int64", nullable, metadata := ∅ }

/-- A row of column `a`, a row of column `b`, both in one file, and another row of `a` after them. -/
def columnShelf (nullable : Bool) : List (Schema × List Row) :=
  let both : Schema := { fields := [column "a" true, column "b" true], metadata := ∅ }
  [({ fields := [column "a" nullable], metadata := ∅ }, [byteRow 7]),
    ({ fields := [column "b" nullable], metadata := ∅ }, [byteRow 8]),
    (both, [byteRow 7 ++ [.null], .null :: byteRow 8]),
    (both, [byteRow 7 ++ [.null], .null :: byteRow 8, byteRow 7 ++ [.null]])]

/-- The files of a shelf have a cell in every row for each column, if what it was filled with
has. -/
theorem shelfParquet_rectangular {shelf : List (Schema × List Row)}
    (hshelf : ∀ e ∈ shelf, ∀ row ∈ e.2, row.length = e.1.fields.length) :
    (shelfParquet shelf).Rectangular := by
  intro bytes f rows hopen hrows row hrow
  simp only [shelfParquet] at hopen
  split at hopen
  · rename_i hget
    obtain rfl := Except.ok.inj hopen
    obtain rfl : _ = rows := Option.some.inj hrows
    exact hshelf _ (List.mem_of_getElem? hget) row (by simpa using hrow)
  · cases hopen

theorem columnShelf_rectangular (nullable : Bool) :
    (shelfParquet (columnShelf nullable)).Rectangular :=
  shelfParquet_rectangular (by cases nullable <;> decide)

/-- A pass under `UnionFields`. -/
def toRows (target_rows : UInt64) : CompactSpec (Option (List KeyValue)) :=
  { target_rows, writer_props := none, schema := .unionFields }

/-- A segment of `a`, one of `b` and one of `a`. -/
def abaShelved : Disk := shelved [[], [0], []]

/-- The file once the first two are merged. -/
def abThenA : Disk :=
  (abaShelved.run (.merge 1 "cpu" [0, 1] 0 { rows := 2, first_ts := 0, last_ts := 1 } [0, 0])).2

theorem staged_first (nullable : Bool) :
    compactStreamWith (shelfParquet (columnShelf nullable)) 1 "cpu" (toRows 2) anyMetadata abaShelved
      [] = (.ok { before := 3, after := 2, merges := 1 }, abThenA, []) := by
  have hread := RewriteM.run_query (fun a => a.readSegmentMeta 1 "cpu") abaShelved
  have hconcat : concatParquet (shelfParquet (columnShelf nullable)) [0, 1]
      (fun seq => RewriteM.query fun a => a.readSegmentBytes 1 "cpu" seq) none .unionFields
      anyMetadata "cpu" abaShelved [] = (.ok ([0, 0], 2), abaShelved, []) := by
    cases nullable <;> rfl
  rw [compactStreamWith, Prog.run_bind_ok hread,
    run_compactFrom_merged (by decide) (by decide) hconcat (by decide) rfl rfl rfl,
    run_compactFrom_alone (by decide) (by decide), run_compactFrom_end (by decide)]
  rfl

/-- The whole stream at once. -/
theorem staged_single (nullable : Bool) :
    (compactStreamWith (shelfParquet (columnShelf nullable)) 1 "cpu" (toRows 3) anyMetadata abaShelved
        []).1 = .ok { before := 3, after := 1, merges := 1 } ∧
      (compactStreamWith (shelfParquet (columnShelf nullable)) 1 "cpu" (toRows 3) anyMetadata
        abaShelved []).2.1.db.readSegmentMeta 1 "cpu" =
          [(0, { rows := 3, first_ts := 0, last_ts := 2 })] := by
  have hread := RewriteM.run_query (fun a => a.readSegmentMeta 1 "cpu") abaShelved
  have hconcat : concatParquet (shelfParquet (columnShelf nullable)) [0, 1, 2]
      (fun seq => RewriteM.query fun a => a.readSegmentBytes 1 "cpu" seq) none .unionFields
      anyMetadata "cpu" abaShelved [] = (.ok ([0, 0, 0], 3), abaShelved, []) := by
    cases nullable <;> rfl
  rw [compactStreamWith, Prog.run_bind_ok hread,
    run_compactFrom_merged (by decide) (by decide) hconcat (by decide) rfl rfl rfl,
    run_compactFrom_end (by decide)]
  exact ⟨rfl, by decide +kernel⟩

/-- What the three segments hold. -/
def abaTables (nullable : Bool) : List (Table Field Cell) :=
  let a : Table Field Cell := { columns := [column "a" nullable], rows := [byteRow 7] }
  [a, { columns := [column "b" nullable], rows := [byteRow 8] }, a]

theorem abaShelved_tables (nullable : Bool) : List.Forall₂
    (fun s t => tableOf (shelfParquet (columnShelf nullable)) s.bytes = some t)
      (abaShelved.db.readSegments 1 "cpu") (abaTables nullable) :=
  .cons rfl (.cons rfl (.cons rfl .nil))

theorem abaTables_agree (nullable : Bool) : Table.Agree Field.name (abaTables nullable) := by
  unfold Table.Agree
  cases nullable <;> decide +kernel

theorem compactStreamWith_staged_shelved :
    let pq := shelfParquet (columnShelf true)
    let d := compactions pq 1 "cpu" anyMetadata abaShelved [(toRows 2, [])]
    (∃ staged single,
      (compactStreamWith pq 1 "cpu" (toRows 3) anyMetadata d []).2.1.db.readSegments 1 "cpu" =
        [staged] ∧
      (compactStreamWith pq 1 "cpu" (toRows 3) anyMetadata abaShelved []).2.1.db.readSegments 1
        "cpu" = [single] ∧
      tableOf pq staged.bytes = some (uniteTables (abaTables true)) ∧
      tableOf pq single.bytes = some (uniteTables (abaTables true)) ∧
      staged.seg_meta.rows = single.seg_meta.rows) ∧
    ∀ start ∈ [d, abaShelved],
      (∃ done, (compactStreamWith pq 1 "cpu" (toRows 3) anyMetadata start []).1 = .ok done) ∨
      ∃ e, (compactStreamWith pq 1 "cpu" (toRows 3) anyMetadata start []).1 = .err e ∧
        Unwritable pq 1 "cpu" start.db e := by
  intro pq d
  have hd : d = abThenA := congrArg (·.2.1) (staged_first true)
  have hread := RewriteM.run_query (fun a => a.readSegmentMeta 1 "cpu") abThenA
  have hconcat : concatParquet pq [0, 2]
      (fun seq => RewriteM.query fun a => a.readSegmentBytes 1 "cpu" seq) none .unionFields
      anyMetadata "cpu" abThenA [] = (.ok ([0, 0, 0], 2), abThenA, []) := rfl
  have hlast : (compactStreamWith pq 1 "cpu" (toRows 3) anyMetadata d []).1 =
      .ok { before := 2, after := 1, merges := 1 } := by
    rw [hd, compactStreamWith, Prog.run_bind_ok hread,
      run_compactFrom_merged (by decide) (by decide) hconcat (by decide) rfl rfl rfl,
      run_compactFrom_end (by decide)]
    rfl
  have hsteady : Table.Steady Field.relaxed (abaTables true) := by
    intro f _ htwo
    obtain ⟨t, ht, hf⟩ := Table.carriers_pos.mp (Nat.le_of_succ_le htwo)
    have hnullable : ∀ t ∈ abaTables true, ∀ f ∈ t.columns, f.relaxed = f := by decide +kernel
    exact hnullable t ht f hf
  have hpolicies : ∀ pass ∈ [(toRows 2, ([] : List (Fault StorageFailure)))],
      pass.1.schema = .unionFields := by decide
  have hpolicy : (toRows 3).schema = .unionFields := rfl
  have htarget : ((abaShelved.db.readSegments 1 "cpu").map fun s => s.seg_meta.rows.toNat).sum ≤
      (toRows 3).target_rows.toNat := by decide
  have hboth := compactStreamWith_staged (shelfParquet_roundTrips _) (columnShelf_rectangular _)
    anyMetadata_acceptsAll (by decide) (abaShelved_tables true) (abaTables_agree true) (by decide)
    hsteady hpolicies hpolicy htarget
  exact ⟨hboth.1 [] [] _ _ hlast (staged_single true).1, hboth.2 rfl⟩

/-- **Staging makes a difference** to a column that two of three segments have and that may not be
null: the first merge lets it be null, and the last segment is not merged any more. -/
theorem compactStreamWith_staged_refuses :
    let pq := shelfParquet (columnShelf false)
    let d := compactions pq 1 "cpu" anyMetadata abaShelved [(toRows 2, [])]
    pq.RoundTrips ∧ pq.Rectangular ∧ anyMetadata.AcceptsAll ∧
      List.Forall₂ (fun s t => tableOf pq s.bytes = some t) (abaShelved.db.readSegments 1 "cpu")
        (abaTables false) ∧
      Table.Agree Field.name (abaTables false) ∧
      (∀ t ∈ abaTables false, (t.columns.map Field.name).Nodup) ∧
      ((abaShelved.db.readSegments 1 "cpu").map fun s => s.seg_meta.rows.toNat).sum = 3 ∧
      (compactStreamWith pq 1 "cpu" (toRows 3) anyMetadata d []).1 =
        .ok { before := 2, after := 2, merges := 0 } ∧
      ((compactStreamWith pq 1 "cpu" (toRows 3) anyMetadata d []).2.1.db.readSegments 1
        "cpu").length = 2 ∧
      (compactStreamWith pq 1 "cpu" (toRows 3) anyMetadata abaShelved []).1 =
        .ok { before := 3, after := 1, merges := 1 } ∧
      ((compactStreamWith pq 1 "cpu" (toRows 3) anyMetadata abaShelved []).2.1.db.readSegments 1
        "cpu").length = 1 := by
  intro pq d
  have hd : d = abThenA := congrArg (·.2.1) (staged_first false)
  have hread := RewriteM.run_query (fun a => a.readSegmentMeta 1 "cpu") abThenA
  have hconcat : concatParquet pq [0, 2]
      (fun seq => RewriteM.query fun a => a.readSegmentBytes 1 "cpu" seq) none .unionFields
      anyMetadata "cpu" abThenA [] = (.ok ([], 1), abThenA, []) := rfl
  have hlast : compactStreamWith pq 1 "cpu" (toRows 3) anyMetadata d [] =
      (.ok { before := 2, after := 2, merges := 0 }, abThenA, []) := by
    rw [hd, compactStreamWith, Prog.run_bind_ok hread,
      run_compactFrom_cut (by decide) (by decide) hconcat (by decide),
      run_compactFrom_alone (by decide) (by decide), run_compactFrom_end (by decide)]
    rfl
  have hone := congrArg List.length (staged_single false).2
  rw [hlast]
  refine ⟨shelfParquet_roundTrips _, columnShelf_rectangular _, anyMetadata_acceptsAll,
    abaShelved_tables false, abaTables_agree false, by decide, by decide, rfl, by decide +kernel,
    (staged_single false).1, ?_⟩
  rw [readSegments_eq, List.length_map]
  rwa [readSegmentMeta, List.length_map] at hone

end Dendro
