import Mathlib.Data.List.Chain
import Mathlib.Data.List.Sort
import Dendro.Rewrite.Planning

/-!
# Compacting twice

The merge `compact_stream` uses is `identicalMetadata`: a run goes on while every segment
has the first one's file metadata, in any order. With `StopAtChange` two segments can then
be in one run exactly if they are of one `kind`, and a merge is of the kind of the segments
it is made of, once the library round-trips what it is given (`KeepsMetadata`).

So whatever ended a run still stands between the merge and the segment after it: adjacent
segments of a compacted stream are `Apart`, by their rows or by their kinds, and a second
pass finds nothing to do (`compactStreamWith_twice`).
-/

namespace Dendro

open Archive Relation

/-! ## The merge of identical metadata -/

/-- The order of `Option<String>`. -/
def valueLe : Option String → Option String → Bool
  | none, _ => true
  | some _, none => false
  | some v, some w => decide (v ≤ w)

/-- The order of `(&a.key, &a.value)`. -/
def KeyValue.le (a b : KeyValue) : Bool :=
  decide (a.key < b.key) || (decide (a.key = b.key) && valueLe a.value b.value)

/-- `sorted`: by key, then value. -/
def sortedKv (kv : List KeyValue) : List KeyValue := kv.insertionSort fun a b => a.le b

structure IdenticalMetadataRun where
  /-- In file order, which the merged segment is written with. -/
  first : List KeyValue
  /-- Sorted, for comparing. -/
  sorted : List KeyValue

/-- `IdenticalMetadata`: a run goes on while every segment has the first's entries. -/
def identicalMetadata : MetadataMerge IdenticalMetadataRun where
  start first := some { first := first.key_value, sorted := sortedKv first.key_value }
  extend run next :=
    (decide (next.key_value.length = run.sorted.length) &&
      decide (sortedKv next.key_value = run.sorted), run)
  finish run := run.first

/-- What two segments of one run have in common. -/
def ParquetFile.kind (f : ParquetFile) : Schema × List KeyValue :=
  (f.ownSchema, sortedKv f.fileKv)

theorem length_sortedKv (kv : List KeyValue) : (sortedKv kv).length = kv.length :=
  List.length_insertionSort _ kv

section

variable {Props Writer : Type} {pq : Parquet Props Writer}

/-! ## A run of one kind -/

/-- What the merge keeps of a run that began with `f`. -/
def ParquetFile.began (f : ParquetFile) : IdenticalMetadataRun :=
  { first := f.fileKv, sorted := sortedKv f.fileKv }

/-- The merge keeps a run as it is, and goes on with the same entries in any order. -/
theorem judge_identical (f file : ParquetFile) :
    judge identicalMetadata (some f.began) file.mergeInput = (some f.began,
      if sortedKv file.fileKv = sortedKv f.fileKv then some f.began else none) := by
  show (some f.began, if (decide (file.fileKv.length = (sortedKv f.fileKv).length) &&
    decide (sortedKv file.fileKv = sortedKv f.fileKv)) = true then some f.began else none) = _
  by_cases heq : sortedKv file.fileKv = sortedKv f.fileKv
  · have hlen : file.fileKv.length = (sortedKv f.fileKv).length := by
      rw [← heq, length_sortedKv]
    simp [heq, hlen]
  · simp [heq]

/-- A run that began with a segment. -/
def StartedWith (f : ParquetFile) (r : RunState IdenticalMetadataRun) : Prop :=
  r.first = some f.ownSchema ∧ r.run = some f.began

/-- What is opened after the first segment is of its kind, and what ends the run is not. -/
structure SameKind (pq : Parquet Props Writer) (kind : Schema × List KeyValue)
    (blobs : List (Option Bytes)) (files : List ParquetFile) : Prop where
  le : files.length ≤ blobs.length
  same : ∀ blob ∈ blobs.take files.length, ∃ bytes f, blob = some bytes ∧
    pq.openFile bytes = .ok f ∧ f.kind = kind
  ends : ∀ bytes, blobs[files.length]? = some (some bytes) →
    ∃ f, pq.openFile bytes = .ok f ∧ f.kind ≠ kind

/-- A segment goes on a run exactly if it is of the run's kind. -/
theorem joins_iff {f file : ParquetFile} {r : RunState IdenticalMetadataRun}
    (h : StartedWith f r) :
    (schemaAdmitted .stopAtChange r file.ownSchema = true ∧
      judge identicalMetadata r.run file.mergeInput = (some f.began, some f.began)) ↔
        file.kind = f.kind := by
  have hadm : schemaAdmitted .stopAtChange r file.ownSchema = true ↔
      f.ownSchema = file.ownSchema := by
    simp [schemaAdmitted, h.1]
  rw [hadm, h.2, judge_identical, ParquetFile.kind, ParquetFile.kind, Prod.mk.injEq]
  by_cases heq : sortedKv file.fileKv = sortedKv f.fileKv
  · simp [heq, eq_comm]
  · simp [heq]

/-- What a judgement keeps is the run there is. -/
theorem judge_kept {f file : ParquetFile} {r : RunState IdenticalMetadataRun}
    (h : StartedWith f r) {kept run : Option IdenticalMetadataRun}
    (hjudge : judge identicalMetadata r.run file.mergeInput = (kept, run)) :
    kept = some f.began ∧ ∀ next, run = some next → next = f.began := by
  rw [h.2, judge_identical] at hjudge
  obtain ⟨rfl, rfl⟩ := Prod.mk.inj hjudge
  refine ⟨rfl, fun next hnext => ?_⟩
  split at hnext
  · exact (Option.some.inj hnext).symm
  · cases hnext

theorem Reaches.sameKind {f : ParquetFile} : ∀ {blobs : List (Option Bytes)}
    {r r' : RunState IdenticalMetadataRun}, StartedWith f r →
      Reaches pq identicalMetadata .stopAtChange r blobs r' →
      StartedWith f r' ∧ ∃ files, r'.opened = r.opened ++ files ∧ SameKind pq f.kind blobs files
  | [], r, _, h, .all => ⟨h, [], by simp, by simp, by simp, by simp⟩
  | none :: blobs, r, _, h, .gone => ⟨h, [], by simp, by simp, by simp, by simp⟩
  | some blob :: blobs, r, r', h, hreach => by
      -- what ends the run here is not of its kind
      have hends : ∀ {file : ParquetFile}, pq.openFile blob = .ok file → file.kind ≠ f.kind →
          SameKind pq f.kind (some blob :: blobs) [] := fun hopen hne =>
        ⟨by simp, by simp, fun bytes hbytes => by
          obtain rfl : blob = bytes := by simpa using hbytes
          exact ⟨_, hopen, hne⟩⟩
      cases hreach with
      | refused hopen hadm =>
          refine ⟨h, [], by simp, hends hopen fun hkind => ?_⟩
          rw [((joins_iff h).mpr hkind).1] at hadm
          cases hadm
      | declined hopen hadm hjudge =>
          obtain ⟨hkept, -⟩ := judge_kept h hjudge
          refine ⟨⟨h.1, hkept⟩, [], by simp, hends hopen fun hkind => ?_⟩
          rw [((joins_iff h).mpr hkind).2] at hjudge
          cases (Prod.mk.inj hjudge).2
      | @joined _ _ _ _ file kept run hopen hadm hjudge hrest =>
          obtain ⟨rfl, hrun⟩ := judge_kept h hjudge
          obtain rfl := hrun run rfl
          have hkind := (joins_iff h).mp ⟨hadm, hjudge⟩
          have hpush : StartedWith f (r.push .stopAtChange file f.began) := by
            refine ⟨?_, rfl⟩
            simp [RunState.push, h.1]
          obtain ⟨hstarted, files, hfiles, hsame⟩ := Reaches.sameKind hpush hrest
          refine ⟨hstarted, file :: files, ?_, ?_, ?_, fun bytes hbytes => ?_⟩
          · simp [hfiles, RunState.push]
          · simpa using hsame.le
          · intro blob' hblob'
            rcases List.mem_cons.mp hblob' with rfl | hblob'
            · exact ⟨blob, file, rfl, hopen, hkind⟩
            · exact hsame.same blob' hblob'
          · exact hsame.ends bytes (by simpa using hbytes)

/-! ## The kind of a merge -/

/-- The kind of a segment that the library opens. -/
def kindOf (pq : Parquet Props Writer) (bytes : Bytes) : Option (Schema × List KeyValue) :=
  (pq.openFile bytes).toOption.map ParquetFile.kind

theorem kindOf_eq {bytes : Bytes} {f : ParquetFile} (h : pq.openFile bytes = .ok f) :
    kindOf pq bytes = some f.kind := by
  rw [kindOf, h]
  rfl

/-- The entries of a merge, where the properties have none of their own. -/
theorem writtenKv_fileKv {props : Props}
    (hprops : (pq.key_value_metadata props).getD [] = []) (f : ParquetFile) :
    writtenKv pq props f.fileKv = f.fileKv := by
  have hself : f.fileKv.filter (·.key ≠ "ARROW:schema") = f.fileKv :=
    List.filter_eq_self.mpr fun e he => by simpa using (List.mem_filter.mp he).2
  rw [writtenKv, hprops, hself]
  rfl

/-- **A merge is of the kind of its first segment.** -/
theorem kindOf_writeMerged (hmeta : pq.KeepsMetadata) {stream : String} {props : Props}
    (hprops : (pq.key_value_metadata props).getD [] = []) {f : ParquetFile}
    {files : List ParquetFile} {bytes : Bytes} (h : writeMerged pq stream f.ownSchema
      (withFileMetadata pq props f.fileKv) files = .ok bytes) : kindOf pq bytes = some f.kind := by
  obtain ⟨g, hopen, hfields, hkv, hmetadata⟩ := writeMerged_opens hmeta h
  rw [withFileMetadata_kv hmeta, writtenKv_fileKv hprops] at hkv
  have hown : g.ownSchema.metadata = f.ownSchema.metadata := by
    refine OrdMap.ext_get? fun key => ?_
    simp only [ParquetFile.ownSchema, OrdMap.get?_filter, hkv]
    by_cases hkey : ∃ e ∈ f.fileKv, e.key = key
    · have hany : (!f.fileKv.any fun e => e.key = key) = false := by simpa using hkey
      rw [hany]
      simp
    · have hnone : ∀ e ∈ g.fileKv, e.key ≠ key := fun e he heq => hkey ⟨e, hkv ▸ he, heq⟩
      have hany : (!f.fileKv.any fun e => e.key = key) = true := by simpa using hkey
      have hget := hmetadata key hnone
      simp only [ParquetFile.ownSchema, OrdMap.get?_filter, hany] at hget ⊢
      rw [hget]
      simp
  have hschema : g.ownSchema = f.ownSchema := by
    have hsame : g.ownSchema.fields = f.ownSchema.fields := hfields
    calc g.ownSchema = ⟨g.ownSchema.fields, g.ownSchema.metadata⟩ := rfl
      _ = ⟨f.ownSchema.fields, f.ownSchema.metadata⟩ := by rw [hsame, hown]
  rw [kindOf_eq hopen, ParquetFile.kind, ParquetFile.kind, hschema, hkv]

/-! ## What a concatenation takes -/

/-- **A concatenation takes the leading segments of one kind**, and what it writes is of
that kind. -/
theorem Concat.kinds {stream : String} {props : Props} {content : Bytes} {contents : List Bytes}
    {out : Bytes × Nat} (h : Concat pq identicalMetadata .stopAtChange stream props
      ((content :: contents).map some) out) :
    ∃ kind, 1 ≤ out.2 ∧ (∀ bytes ∈ (content :: contents).take out.2, kindOf pq bytes = some kind) ∧
      (∀ bytes, (content :: contents)[out.2]? = some bytes →
        ∃ kind', kindOf pq bytes = some kind' ∧ kind' ≠ kind) ∧
      (pq.KeepsMetadata → (pq.key_value_metadata props).getD [] = [] → 2 ≤ out.2 →
        kindOf pq out.1 = some kind) := by
  have hstart : ∀ {r : RunState IdenticalMetadataRun},
      Reaches pq identicalMetadata .stopAtChange .empty ((content :: contents).map some) r →
      ∃ f files, StartedWith f r ∧ r.opened = f :: files ∧ pq.openFile content = .ok f ∧
        SameKind pq f.kind (contents.map some) files := by
    intro r hreach
    cases hreach with
    | refused _ hadm => cases hadm
    | declined _ _ hjudge => cases (Prod.mk.inj hjudge).2
    | @joined _ _ _ _ f _ run hopen _ hjudge hrest =>
        obtain rfl : f.began = run := Option.some.inj (Prod.mk.inj hjudge).2
        obtain ⟨hstarted, files, hfiles, hsame⟩ := Reaches.sameKind (f := f) ⟨rfl, rfl⟩ hrest
        exact ⟨f, files, hstarted, hfiles, hopen, hsame⟩
  -- as many segments are of the first one's kind as were opened
  have hkinds : ∀ {f : ParquetFile} {files : List ParquetFile}, pq.openFile content = .ok f →
      SameKind pq f.kind (contents.map some) files →
      (∀ bytes ∈ (content :: contents).take (files.length + 1), kindOf pq bytes = some f.kind) ∧
      ∀ bytes, (content :: contents)[files.length + 1]? = some bytes →
        ∃ kind', kindOf pq bytes = some kind' ∧ kind' ≠ f.kind := by
    intro f files hopen hsame
    constructor
    · intro bytes hbytes
      rcases List.mem_cons.mp hbytes with rfl | hbytes
      · exact kindOf_eq hopen
      · have hmem : some bytes ∈ (contents.map some).take files.length := by
          rw [← List.map_take]
          exact List.mem_map.mpr ⟨bytes, hbytes, rfl⟩
        obtain ⟨bytes', g, heq, hg, hkind⟩ := hsame.same _ hmem
        obtain rfl := Option.some.inj heq
        rw [kindOf_eq hg, hkind]
    · intro bytes hbytes
      obtain ⟨g, hg, hne⟩ := hsame.ends bytes (by simpa using hbytes)
      exact ⟨g.kind, kindOf_eq hg, hne⟩
  cases h with
  | nothing hreach hfew =>
      obtain ⟨f, files, hstarted, hfiles, hopen, hsame⟩ := hstart hreach
      have hnone : files = [] := by
        rcases hfew with hrun | hlen
        · rw [hstarted.2] at hrun
          cases hrun
        · rw [hfiles, List.length_cons] at hlen
          exact List.length_eq_zero_iff.mp (by omega)
      obtain ⟨hall, hends⟩ := hkinds hopen hsame
      rw [hnone] at hall hends
      exact ⟨f.kind, le_refl 1, hall, hends, fun _ _ htwo => absurd htwo (by decide)⟩
  | @merged r run bytes hreach hrun htwo hbytes =>
      obtain ⟨f, files, hstarted, hfiles, hopen, hsame⟩ := hstart hreach
      obtain ⟨hall, hends⟩ := hkinds hopen hsame
      have hlen : r.opened.length = files.length + 1 := by rw [hfiles, List.length_cons]
      refine ⟨f.kind, by omega, hlen ▸ hall, hlen ▸ hends, fun hmeta hprops _ => ?_⟩
      obtain rfl : f.began = run := Option.some.inj (hstarted.2.symm.trans hrun)
      have hschema : r.schema r.opened.length = f.ownSchema := by
        rw [RunState.schema, hstarted.1]
      rw [hschema] at hbytes
      exact kindOf_writeMerged hmeta hprops hbytes

/-! ## What one pass leaves -/

/-- Two segments that no pass puts in one run. -/
def Apart (pq : Parquet Props Writer) (target_rows : UInt64) (x y : Nat × SegmentCols) : Prop :=
  max target_rows.toNat 1 < x.2.seg_meta.rows.toNat + y.2.seg_meta.rows.toNat ∨
    ∃ kind kind', kindOf pq x.2.bytes = some kind ∧ kindOf pq y.2.bytes = some kind' ∧
      kind' ≠ kind

variable {source_id : Int} {stream : String} {spec : CompactSpec Props}
  {es : List (Nat × SegmentCols)} {pos : Nat} {a : Archive}

/-- **What ended a run keeps its segments apart from the next one**: they are of one kind, and
the segment after them either is not, or goes past the target. -/
theorem Concat.apart {x : Nat × SegmentCols} {rest : List (Nat × SegmentCols)} {props : Props}
    {out : Bytes × Nat} (hes : es.drop pos = x :: rest)
    (hadd : RunsAdd spec.target_rows (metasOf es))
    (hmem : ∀ e ∈ es.drop pos, e ∈ (a.catalog (streamKey source_id stream)).entries)
    (hplanned : 2 ≤ fits spec.target_rows 0 ((metasOf es).drop pos))
    (h : Concat pq identicalMetadata .stopAtChange stream props
      (plannedBlobs source_id stream spec.target_rows (metasOf es) pos a) out) :
    ∃ kind, 1 ≤ out.2 ∧ (∀ e ∈ (es.drop pos).take out.2, kindOf pq e.2.bytes = some kind) ∧
      (∀ y, (es.drop pos)[out.2]? = some y →
        (∃ kind', kindOf pq y.2.bytes = some kind' ∧ kind' ≠ kind) ∨
          max spec.target_rows.toNat 1 <
            rowSum ((es.drop pos).take out.2) + y.2.seg_meta.rows.toNat) ∧
      (pq.KeepsMetadata → (pq.key_value_metadata props).getD [] = [] → 2 ≤ out.2 →
        kindOf pq out.1 = some kind) := by
  obtain ⟨n, hn⟩ : ∃ n, fits spec.target_rows 0 ((metasOf es).drop pos) = n + 1 :=
    ⟨_, (Nat.sub_add_cancel (by omega)).symm⟩
  have hlen : out.2 ≤ n + 1 := by
    by_cases htwo : 2 ≤ out.2
    · have hle := h.length_le htwo
      rw [plannedBlobs_eq _ hmem, hn] at hle
      simp only [List.length_map, List.length_take] at hle
      omega
    · omega
  rw [plannedBlobs_eq _ hmem, hn, hes, List.take_succ_cons, List.map_cons] at h
  obtain ⟨kind, hone, hall, hends, hout⟩ := h.kinds
  have htake : (es.drop pos).take (n + 1) = x :: rest.take n := by rw [hes, List.take_succ_cons]
  rw [← List.map_cons (f := fun e : Nat × SegmentCols => e.2.bytes), ← htake] at hall hends
  refine ⟨kind, hone, fun e he => ?_, fun y hy => ?_, hout⟩
  · refine hall _ ?_
    rw [← List.map_take, List.take_take, Nat.min_eq_left hlen]
    exact List.mem_map.mpr ⟨e, he, rfl⟩
  · rcases Nat.lt_or_eq_of_le hlen with hlt | heq
    · refine .inl (hends _ ?_)
      rw [List.getElem?_map, List.getElem?_take_of_lt hlt, hy]
      rfl
    · -- the whole of what was planned was consumed
      have hnext : ((metasOf es).drop pos)[fits spec.target_rows 0 ((metasOf es).drop pos)]? =
          some (y.1, y.2.seg_meta) := by
        rw [hn, ← heq, drop_metasOf, metasOf, List.getElem?_map, hy]
        rfl
      have hstop := hadd.stops pos hnext
      rw [hn, ← heq, drop_metasOf, metasOf, ← List.map_take, ← metasOf, totalRows_metasOf] at hstop
      exact .inr hstop

/-- A pair that fits the target is planned together. -/
theorem apart_of_alone (hadd : RunsAdd spec.target_rows (metasOf es))
    (h : fits spec.target_rows 0 ((metasOf es).drop pos) < 2) {x y : Nat × SegmentCols}
    {rest : List (Nat × SegmentCols)} (hes : es.drop pos = x :: y :: rest) :
    Apart pq spec.target_rows x y := by
  have hmetas : (metasOf es).drop pos =
      (x.1, x.2.seg_meta) :: (y.1, y.2.seg_meta) :: metasOf rest := by
    rw [drop_metasOf, hes]
    rfl
  refine .inl ?_
  obtain hzero | hone : fits spec.target_rows 0 ((metasOf es).drop pos) = 0 ∨
      fits spec.target_rows 0 ((metasOf es).drop pos) = 1 := by omega
  · have hstop := hadd.stops pos (show _ = some (x.1, x.2.seg_meta) by rw [hzero, hmetas]; rfl)
    rw [hzero, List.take_zero] at hstop
    simp only [totalRows, List.map_nil, List.sum_nil] at hstop
    omega
  · have hstop := hadd.stops pos (show _ = some (y.1, y.2.seg_meta) by rw [hone, hmetas]; rfl)
    rw [hone, hmetas, List.take_succ_cons, totalRows_cons, List.take_zero] at hstop
    simpa [totalRows] using hstop

/-- Adjacent segments of what a pass has been over are apart, and from the one it is at. -/
def SettledBefore (pq : Parquet Props Writer) (target_rows : UInt64) (source_id : Int) (stream : String)
    (es : List (Nat × SegmentCols)) (pos : Nat) (d : Disk) : Prop :=
  ∃ front, (d.db.catalog (streamKey source_id stream)).entries = front ++ es.drop pos ∧
    (front ++ (es.drop pos).take 1).IsChain (Apart pq target_rows)

/-- A segment that is left where it is, apart from the one after it. -/
theorem SettledBefore.next {target_rows : UInt64} {d : Disk}
    (h : SettledBefore pq target_rows source_id stream es pos d) {x : Nat × SegmentCols}
    {rest : List (Nat × SegmentCols)} (hes : es.drop pos = x :: rest)
    (hx : ∀ y rest', rest = y :: rest' → Apart pq target_rows x y) :
    SettledBefore pq target_rows source_id stream es (pos + 1) d := by
  obtain ⟨front, hcat, hchain⟩ := h
  have hrest : es.drop (pos + 1) = rest := by rw [← List.drop_drop, hes, List.drop_one, List.tail_cons]
  rw [hes] at hcat hchain
  refine ⟨front ++ [x], by rw [hcat, hrest, List.append_assoc]; rfl, ?_⟩
  rw [hrest]
  cases rest with
  | nil => simpa using hchain
  | cons y rest' =>
      refine List.isChain_append.mpr ⟨hchain, List.isChain_singleton _, fun p hp y' hy' => ?_⟩
      obtain rfl : x = p := by simpa using hp
      obtain rfl : y = y' := by simpa using hy'
      exact hx y rest' rfl

/-- **A turn leaves no pair behind that a pass could merge.** -/
theorem SettledBefore.turn (hmeta : pq.KeepsMetadata)
    (hprops : (pq.key_value_metadata (spec.writer_props.getD pq.writer_props)).getD [] = [])
    (hspec : spec.schema = .stopAtChange) (hsum : rowSum es < 2 ^ 64) {d d' : Disk} {pos' : Nat}
    {done done' : Compacted} (h : SettledBefore pq spec.target_rows source_id stream es pos d)
    (ht : Turn pq source_id stream spec identicalMetadata (metasOf es) pos done d pos' done' d') :
    SettledBefore pq spec.target_rows source_id stream es pos' d' := by
  have hadd : RunsAdd spec.target_rows (metasOf es) :=
    runsAdd_of_sum (by rw [totalRows_metasOf]; exact hsum)
  have hmem : ∀ e ∈ es.drop pos, e ∈ (d.db.catalog (streamKey source_id stream)).entries := by
    obtain ⟨front, hcat, -⟩ := h
    exact fun e he => hcat ▸ List.mem_append_right _ he
  have hhead : pos < (metasOf es).length → ∃ x rest, es.drop pos = x :: rest := by
    intro hpos
    rw [metasOf, List.length_map] at hpos
    exact ⟨_, _, List.drop_eq_getElem_cons hpos⟩
  cases ht with
  | alone hpos halone =>
      obtain ⟨x, rest, hes⟩ := hhead hpos
      refine h.next hes fun y rest' hrest => ?_
      rw [hrest] at hes
      exact apart_of_alone hadd halone hes
  | cut hpos hplanned hconcat hcut =>
      obtain ⟨x, rest, hes⟩ := hhead hpos
      rw [hspec] at hconcat
      obtain ⟨kind, hone, hall, hends, -⟩ := hconcat.apart hes hadd hmem hplanned
      refine h.next hes fun y rest' hrest => ?_
      obtain hone : _ = 1 := Nat.le_antisymm (Nat.lt_succ_iff.mp hcut) hone
      rw [hone, hes] at hall hends
      rcases hends y (by rw [hrest]; rfl) with ⟨kind', hy, hne⟩ | hover
      · exact .inr ⟨kind, kind', hall x (by simp), hy, hne⟩
      · exact .inl (by simpa [rowSum] using hover)
  | @merged bytes consumed first last db hr happly =>
      obtain ⟨x, rest, hes⟩ := hhead hr.pos_lt
      obtain ⟨front, hcat, hchain⟩ := h
      obtain ⟨hle, hm⟩ := hr.mergeOf hmem
      have hreplaced := hr.replaced hcat happly
      have hplanned := hr.two.trans (hr.planned hmem)
      have hconcat := hr.concat
      rw [hspec] at hconcat
      obtain ⟨kind, -, hall, hends, hout⟩ := hconcat.apart hes hadd hmem hplanned
      dsimp only at hall hends hout
      have hx : x ∈ (es.drop pos).take consumed := by
        have := hr.two
        rw [hes, ← Nat.sub_add_cancel (show 1 ≤ consumed by omega), List.take_succ_cons]
        exact List.mem_cons_self
      have hrows := hm.toNat_rows (by
        have hinfix : (es.drop pos).take consumed <:+: es :=
          (List.take_prefix _ _).isInfix.trans (List.drop_suffix _ _).isInfix
        exact lt_of_le_of_lt (rowSum_le_of_sub hinfix) hsum)
      have hkind := hout hmeta hprops hr.two
      obtain ⟨m, hmbytes, hrows, hreplaced⟩ : ∃ m : Nat × SegmentCols, m.2.bytes = bytes ∧
          m.2.seg_meta.rows.toNat = rowSum ((es.drop pos).take consumed) ∧
          Replaced (streamKey source_id stream) d.db db front m ((es.drop pos).drop consumed) :=
        ⟨_, rfl, hrows, hreplaced⟩
      refine ⟨front ++ [m], ?_, ?_⟩
      · rw [hreplaced.catalog, List.drop_drop, List.append_assoc]
        rfl
      rw [hes] at hchain
      obtain ⟨hfront, -, hbefore⟩ := List.isChain_append.mp hchain
      have hfirst : (front ++ [m]).IsChain (Apart pq spec.target_rows) := by
        refine List.isChain_append.mpr ⟨hfront, List.isChain_singleton _, fun p hp m' hm' => ?_⟩
        obtain rfl : m = m' := by simpa using hm'
        rcases hbefore p hp x (by simp) with hover | ⟨kp, kx, hkp, hkx, hne⟩
        · have hxle : x.2.seg_meta.rows.toNat ≤ rowSum ((es.drop pos).take consumed) :=
            List.le_sum_of_mem (List.mem_map.mpr ⟨x, hx, rfl⟩)
          exact .inl (by omega)
        · obtain rfl : kind = kx := Option.some.inj ((hall x hx).symm.trans hkx)
          exact .inr ⟨kp, kind, hkp, by rw [hmbytes, hkind], hne⟩
      rw [← List.drop_drop]
      rcases hdrop : (es.drop pos).drop consumed with _ | ⟨y, rest'⟩
      · simpa using hfirst
      refine List.isChain_append.mpr ⟨hfirst, List.isChain_singleton _, fun m' hm' y' hy' => ?_⟩
      obtain rfl : m = m' := by simpa using hm'
      obtain rfl : y = y' := by simpa using hy'
      have hy : (es.drop pos)[consumed]? = some y := by
        rw [← Nat.add_zero consumed, ← List.getElem?_drop, hdrop]
        rfl
      rcases hends y hy with ⟨kind', hky, hne⟩ | hover
      · exact .inr ⟨kind, kind', by rw [hmbytes, hkind], hky, hne⟩
      · exact .inl (by rw [hrows]; exact hover)

/-! ## A second pass -/

/-- Segments that are apart and planned together are of two kinds. -/
theorem kinds_of_planned (hadd : RunsAdd spec.target_rows (metasOf es))
    (hchain : es.IsChain (Apart pq spec.target_rows))
    (hplanned : 2 ≤ fits spec.target_rows 0 ((metasOf es).drop pos)) :
    ∃ x y rest kx ky, es.drop pos = x :: y :: rest ∧ kindOf pq x.2.bytes = some kx ∧
      kindOf pq y.2.bytes = some ky ∧ ky ≠ kx := by
  have hle := fits_le spec.target_rows ((metasOf es).drop pos) 0
  have hlen : ((metasOf es).drop pos).length = (es.drop pos).length := by
    rw [drop_metasOf, metasOf, List.length_map]
  obtain ⟨x, y, rest, hes⟩ : ∃ x y rest, es.drop pos = x :: y :: rest := by
    rcases hdrop : es.drop pos with _ | ⟨x, _ | ⟨y, rest⟩⟩
    · rw [hdrop, List.length_nil] at hlen
      omega
    · rw [hdrop, List.length_singleton] at hlen
      omega
    · exact ⟨x, y, rest, rfl⟩
  have hpair : Apart pq spec.target_rows x y := by
    have hsuffix := hchain.suffix (List.drop_suffix pos es)
    rw [hes] at hsuffix
    exact (List.isChain_cons_cons.mp hsuffix).1
  rcases hpair with hover | ⟨kx, ky, hkx, hky, hne⟩
  · -- the first two of a run that was planned fit the target
    have htotal := (hadd.plan pos).2
    have hpart := totalRows_take_le (((metasOf es).drop pos).take
      (fits spec.target_rows 0 ((metasOf es).drop pos))) 2
    rw [List.take_take, Nat.min_eq_left hplanned] at hpart
    have hfirst : totalRows (((metasOf es).drop pos).take 2) =
        x.2.seg_meta.rows.toNat + y.2.seg_meta.rows.toNat := by
      rw [drop_metasOf, hes]
      simp [metasOf, totalRows]
    omega
  · exact ⟨x, y, rest, kx, ky, hes, hkx, hky, hne⟩

/-- A pass merges no two adjacent segments that are apart. -/
theorem Replaces.not_apart (hspec : spec.schema = .stopAtChange) (hsum : rowSum es < 2 ^ 64)
    (hcat : (a.catalog (streamKey source_id stream)).entries = es)
    (hchain : es.IsChain (Apart pq spec.target_rows)) {bytes : Bytes} {consumed : Nat}
    {first last : Nat × SegmentMeta} : ¬ Replaces pq source_id stream spec identicalMetadata
      (metasOf es) pos a bytes consumed first last := by
  intro hr
  have hadd : RunsAdd spec.target_rows (metasOf es) :=
    runsAdd_of_sum (by rw [totalRows_metasOf]; exact hsum)
  have hmem : ∀ e ∈ es.drop pos, e ∈ (a.catalog (streamKey source_id stream)).entries :=
    fun e he => hcat ▸ List.mem_of_mem_drop he
  have htwo := hr.two
  have hplanned := hr.two.trans (hr.planned hmem)
  obtain ⟨x, y, rest, kx, ky, hes, hkx, hky, hne⟩ := kinds_of_planned hadd hchain hplanned
  have hconcat := hr.concat
  rw [hspec] at hconcat
  obtain ⟨kind, -, hall, -⟩ := hconcat.apart hes hadd hmem hplanned
  dsimp only at hall
  rw [hes, ← Nat.sub_add_cancel htwo, List.take_succ_cons, List.take_succ_cons] at hall
  have hx := hall x (by simp)
  have hy := hall y (by simp)
  rw [hkx] at hx
  rw [hky] at hy
  exact hne (Option.some.inj (hy.trans hx.symm))

/-- What a pass that merges nothing reports. -/
def unchanged (n : Nat) : Compacted := { before := n, after := n, merges := 0 }

/-- **A pass over segments that are apart leaves the file alone**, whatever strikes it. -/
theorem runs_apart (hspec : spec.schema = .stopAtChange) (d : Disk)
    (hsum : rowSum (d.db.catalog (streamKey source_id stream)).entries < 2 ^ 64)
    (hchain : (d.db.catalog (streamKey source_id stream)).entries.IsChain
      (Apart pq spec.target_rows)) :
    Prog.Runs (fun _ _ => False)
      (compactStreamWith pq source_id stream spec identicalMetadata) d
      (fun done _ => done = unchanged (d.db.catalog (streamKey source_id stream)).entries.length)
      fun _ _ => True := by
  refine (runs_pass (I := fun _ done d' => d' = d ∧
    done = unchanged (d.db.catalog (streamKey source_id stream)).entries.length)
    rfl ⟨rfl, rfl⟩ (fun h ht => ?_) (fun h hdown => ?_)).mono (fun _ _ h => ?_) fun _ _ h => h
  · obtain ⟨rfl, rfl⟩ := h
    cases ht with
    | alone | cut => exact ⟨.refl, rfl, rfl⟩
    | merged hr => exact absurd hr (Replaces.not_apart hspec hsum rfl hchain)
  · obtain ⟨rfl, rfl⟩ := h
    cases hdown with
    | refused hr => exact absurd hr (Replaces.not_apart hspec hsum rfl hchain)
  · obtain ⟨-, -, -, rfl⟩ := h
    rfl

/-- A concatenation whose second segment is of another kind than the first returns, and
merges nothing. -/
theorem run_concatParquet_cut {d : Disk} {props : Props} {seq seq' : Nat} {seqs : List Nat}
    {blob blob' : Bytes} {kind kind' : Schema × List KeyValue}
    (hread : d.db.readSegmentBytes source_id stream seq = some blob)
    (hread' : d.db.readSegmentBytes source_id stream seq' = some blob')
    (hkind : kindOf pq blob = some kind) (hkind' : kindOf pq blob' = some kind')
    (hne : kind' ≠ kind) :
    concatParquet pq (seq :: seq' :: seqs)
      (fun seq => RewriteM.query fun a => a.readSegmentBytes source_id stream seq) props
      .stopAtChange identicalMetadata stream d [] = (.ok ([], 1), d, []) := by
  have hopens : ∀ {bytes : Bytes} {k : Schema × List KeyValue}, kindOf pq bytes = some k →
      ∃ f, pq.openFile bytes = .ok f ∧ f.kind = k := by
    intro bytes k hk
    obtain ⟨f, hf, hkf⟩ := Option.map_eq_some_iff.mp hk
    rcases hopen : pq.openFile bytes with e | g
    · rw [hopen] at hf
      cases hf
    · rw [hopen] at hf
      exact ⟨f, by rw [← Option.some.inj hf], hkf⟩
  obtain ⟨f, hopen, rfl⟩ := hopens hkind
  obtain ⟨g, hopen', rfl⟩ := hopens hkind'
  -- the run is the first segment's, and stops at the second
  have hrun : ∃ r : RunState IdenticalMetadataRun, r.opened = [f] ∧
      openRun pq identicalMetadata .stopAtChange stream
        (fun seq => RewriteM.query fun a => a.readSegmentBytes source_id stream seq) .empty
        (seq :: seq' :: seqs) d [] = (.ok r, d, []) := by
    have hstarted : StartedWith f ((.empty : RunState IdenticalMetadataRun).push .stopAtChange f
      f.began) := ⟨rfl, rfl⟩
    have hfirst : judge identicalMetadata (.empty : RunState IdenticalMetadataRun).run
        f.mergeInput = (none, some f.began) := rfl
    unfold openRun
    rw [Prog.run_bind_ok (RewriteM.run_query _ d), hread]
    dsimp only
    rw [hopen]
    dsimp only
    rw [if_pos (show schemaAdmitted .stopAtChange (.empty : RunState IdenticalMetadataRun)
      f.ownSchema = true from rfl), hfirst]
    dsimp only
    unfold openRun
    rw [Prog.run_bind_ok (RewriteM.run_query _ d), hread']
    dsimp only
    rw [hopen']
    dsimp only
    split
    · rename_i hadm
      rcases hjudge : judge identicalMetadata _ g.mergeInput with ⟨kept, _ | run⟩
      · exact ⟨_, rfl, rfl⟩
      · obtain ⟨rfl, hsame⟩ := judge_kept hstarted hjudge
        obtain rfl := hsame run rfl
        exact absurd ((joins_iff hstarted).mp ⟨hadm, hjudge⟩) hne
    · exact ⟨_, rfl, rfl⟩
  obtain ⟨r, hopened, hrun⟩ := hrun
  rw [concatParquet, Prog.run_bind_ok hrun, hopened]
  rcases r.run with _ | run <;> rfl

/-- Without faults such a pass returns. -/
theorem run_apart (hspec : spec.schema = .stopAtChange) (hsum : rowSum es < 2 ^ 64) {d : Disk}
    (hcat : (d.db.catalog (streamKey source_id stream)).entries = es)
    (hchain : es.IsChain (Apart pq spec.target_rows)) : ∀ (pos : Nat) (done : Compacted),
      compactFrom pq source_id stream spec identicalMetadata (metasOf es) pos done d [] =
        (.ok done, d, []) := by
  have hadd : RunsAdd spec.target_rows (metasOf es) :=
    runsAdd_of_sum (by rw [totalRows_metasOf]; exact hsum)
  intro pos
  induction hn : (metasOf es).length - pos using Nat.strongRecOn generalizing pos with
  | ind n ih =>
    intro done
    subst hn
    by_cases hpos : pos < (metasOf es).length
    case neg => exact run_compactFrom_end (Nat.not_lt.mp hpos)
    rw [compactFrom, if_pos hpos]
    dsimp only
    by_cases hplanned : fits spec.target_rows 0 ((metasOf es).drop pos) < 2
    case pos => rw [if_pos hplanned, ih _ (by omega) _ rfl]
    rw [if_neg hplanned, hspec]
    have htwo := Nat.not_lt.mp hplanned
    obtain ⟨x, y, rest, kx, ky, hes, hkx, hky, hne⟩ := kinds_of_planned hadd hchain htwo
    have hread : ∀ e ∈ es.drop pos,
        d.db.readSegmentBytes source_id stream e.1 = some e.2.bytes := fun e he => by
      rw [readSegmentBytes, OrdMap.get?_eq_some.mpr (hcat ▸ List.mem_of_mem_drop he)]
      rfl
    have hseqs : ((((metasOf es).drop pos).take (fits spec.target_rows 0
        ((metasOf es).drop pos))).map Prod.fst) = x.1 :: y.1 :: ((metasOf rest).take
          (fits spec.target_rows 0 ((metasOf es).drop pos) - 2)).map Prod.fst := by
      generalize fits spec.target_rows 0 ((metasOf es).drop pos) = planned at htwo
      rw [drop_metasOf, hes, ← Nat.sub_add_cancel htwo]
      rfl
    rw [hseqs, Prog.run_bind_ok (run_concatParquet_cut (hread x (by simp [hes]))
      (hread y (by simp [hes])) hkx hky hne)]
    exact ih _ (by omega) _ rfl done

/-! ## Twice -/

/-- **A pass leaves segments that are apart**, with the rows there were. -/
theorem runs_settled (hmeta : pq.KeepsMetadata) (hspec : spec.schema = .stopAtChange)
    (hprops : (pq.key_value_metadata (spec.writer_props.getD pq.writer_props)).getD [] = [])
    (d : Disk) (hpos : ∀ e ∈ (d.db.catalog (streamKey source_id stream)).entries,
      1 ≤ e.2.seg_meta.rows.toNat)
    (hsum : rowSum (d.db.catalog (streamKey source_id stream)).entries < 2 ^ 63) :
    Prog.Runs (MergeStep pq spec.schema source_id stream)
      (compactStreamWith pq source_id stream spec identicalMetadata) d
      (fun done d' => (d'.db.catalog (streamKey source_id stream)).entries.length = done.after ∧
        rowSum (d'.db.catalog (streamKey source_id stream)).entries < 2 ^ 64 ∧
        (d'.db.catalog (streamKey source_id stream)).entries.IsChain (Apart pq spec.target_rows))
      fun _ _ => True := by
  refine (runs_pass (I := fun pos done d' =>
    Pass pq spec.schema source_id stream d (d.db.catalog (streamKey source_id stream)).entries
      pos done d' ∧ SettledBefore pq spec.target_rows source_id stream
        (d.db.catalog (streamKey source_id stream)).entries pos d')
    rfl ⟨pass_init d, ?_⟩ (fun h ht => ?_) fun _ hdown => ?_).mono (fun done d' h => ?_)
      fun _ _ h => h
  · refine ⟨[], rfl, ?_⟩
    rw [List.nil_append, List.drop_zero]
    generalize (d.db.catalog (streamKey source_id stream)).entries = es
    cases es with
    | nil => exact List.isChain_nil
    | cons e es => exact List.isChain_singleton e
  · obtain ⟨hpass, hsettled⟩ := h
    obtain ⟨hsteps, hpass'⟩ := hpass.turn ht
    exact ⟨hsteps, hpass', hsettled.turn hmeta hprops hspec (by omega) ht⟩
  · cases hdown
    exact .single .refused
  · obtain ⟨pos', hend, hpass, front, hcat, hchain⟩ := h
    have heq : pos' = (d.db.catalog (streamKey source_id stream)).entries.length :=
      Nat.le_antisymm hpass.pos_le hend
    obtain ⟨front', hcat', hmerges, hafter⟩ := hpass.front
    rw [heq, List.drop_length, List.append_nil] at hcat hcat'
    rw [heq, List.drop_length, List.take_nil, List.append_nil, ← hcat] at hchain
    rw [heq, List.take_length, ← hcat'] at hmerges
    refine ⟨?_, ?_, hchain⟩
    · rw [hcat', hafter, heq]
      omega
    · rw [(hmerges.rows (by omega) hpos).1]
      omega

/-- **Compaction is idempotent.** Under `StopAtChange` and the merge of identical metadata, with
properties that have no entries of their own, a second pass with the same spec merges nothing
and leaves the file as the first pass left it, whatever strikes it; without faults it
returns. -/
theorem compactStreamWith_twice (hmeta : pq.KeepsMetadata) (spec : CompactSpec Props)
    (hspec : spec.schema = .stopAtChange)
    (hprops : (pq.key_value_metadata (spec.writer_props.getD pq.writer_props)).getD [] = [])
    (d : Disk) (faults : List (Fault StorageFailure))
    (hlayout : Layout (d.db.runs (streamKey source_id stream)))
    (hsum : ((d.db.readSegments source_id stream).map fun s => s.seg_meta.rows.toNat).sum < 2 ^ 63)
    {done : Compacted}
    (h : (compactStreamWith pq source_id stream spec identicalMetadata d faults).1 = .ok done) :
    let again := compactStreamWith pq source_id stream spec identicalMetadata
      (compactStreamWith pq source_id stream spec identicalMetadata d faults).2.1
    (∀ faults', (again faults').2.1 =
        (compactStreamWith pq source_id stream spec identicalMetadata d faults).2.1 ∧
      ∀ done', (again faults').1 = .ok done' → done' = unchanged done.after) ∧
    (again []).1 = .ok (unchanged done.after) := by
  rw [readSegments_eq, ← rowSum_eq] at hsum
  have hpos : ∀ e ∈ (d.db.catalog (streamKey source_id stream)).entries,
      1 ≤ e.2.seg_meta.rows.toNat := fun e he =>
    hlayout.rows e.2 (List.mem_map.mpr ⟨e, he, rfl⟩)
  have hfirst := runs_settled hmeta hspec hprops d hpos hsum
  rcases hr : compactStreamWith pq source_id stream spec identicalMetadata d faults with
    ⟨out, d', rest⟩
  rw [hr] at h
  obtain rfl : out = .ok done := h
  obtain ⟨-, hlen, hrows, hchain⟩ := hfirst.returned hr
  intro again
  have hsecond := runs_apart hspec d' hrows hchain
  refine ⟨fun faults' => ⟨?_, fun done' hdone => ?_⟩, ?_⟩
  · have hsteps := hsecond.steps faults'
    rcases ReflTransGen.cases_head hsteps with heq | ⟨_, hfalse, -⟩
    · exact heq.symm
    · exact hfalse.elim
  · rcases hrun : again faults' with ⟨out, d'', rest'⟩
    rw [hrun] at hdone
    obtain rfl : out = .ok done' := hdone
    rw [← hlen]
    exact (hsecond.returned hrun).2
  · have hread := RewriteM.run_query (fun a => a.readSegmentMeta source_id stream) d'
    show (compactStreamWith pq source_id stream spec identicalMetadata d' []).1 = _
    rw [compactStreamWith, Prog.run_bind_ok hread, ← hlen]
    have hmetas : d'.db.readSegmentMeta source_id stream =
        metasOf (d'.db.catalog (streamKey source_id stream)).entries := rfl
    rw [hmetas, run_apart hspec hrows rfl hchain, metasOf, List.length_map]
    rfl

end

theorem compactStreamWith_twice_shelved :
    let pq := shelfParquet oneColumnShelf
    let spec : CompactSpec (Option (List KeyValue)) :=
      { target_rows := 10, writer_props := none, schema := .stopAtChange }
    let d := shelved [[], [0]]
    let again := compactStreamWith pq 1 "cpu" spec identicalMetadata
      (compactStreamWith pq 1 "cpu" spec identicalMetadata d []).2.1
    (∀ faults', (again faults').2.1 =
        (compactStreamWith pq 1 "cpu" spec identicalMetadata d []).2.1 ∧
      ∀ done', (again faults').1 = .ok done' → done' = unchanged 1) ∧
    (again []).1 = .ok (unchanged 1) := by
  intro pq spec d
  have hconcat : concatParquet pq [0, 1]
      (fun seq => RewriteM.query fun a => a.readSegmentBytes 1 "cpu" seq) none .stopAtChange
      identicalMetadata "cpu" d [] = (.ok ([0, 0], 2), d, []) := rfl
  have hfirst : (compactStreamWith pq 1 "cpu" spec identicalMetadata d []).1 =
      .ok { before := 2, after := 1, merges := 1 } := by
    have hread := RewriteM.run_query (fun a => a.readSegmentMeta 1 "cpu") d
    rw [compactStreamWith, Prog.run_bind_ok hread,
      run_compactFrom_merged (by decide) (by decide) hconcat (by decide) rfl rfl rfl,
      run_compactFrom_end (by decide)]
    rfl
  exact compactStreamWith_twice (shelfParquet_keepsMetadata _) spec rfl rfl d []
    ⟨by decide, by decide, by decide⟩ (by decide) hfirst

end Dendro
