import Dendro.Documents.Merge
import Dendro.Rewrite.CopyReads

/-!
# A full copy reads the same

The copy decides anew which rows are live, numbers the segments again and seals the tail, and a
reader applies its own seam rule on both sides. After a copy of everything that went through, the
destination reads as it did and then as the source does (`copySourcesInto_reads`). A copy goes
through whenever the source can be read and the destination takes its documents: it has a table
for them, and none of them is there with other contents (`copySourcesInto_goes`).
-/

namespace Dendro

open Archive

/-! ## The program -/

theorem rooted_inline {a : Archive} : a.inline.Rooted ↔ a.Rooted := by
  constructor
  · refine fun h => ⟨fun k s hs => ?_, h.wal, h.clock_offsets, h.caller_rows⟩
    exact h.segments k _ (by rw [get?_inline, hs]; rfl)
  · refine fun h => ⟨fun k s hs => ?_, h.wal, h.clock_offsets, h.caller_rows⟩
    rw [get?_inline] at hs
    obtain ⟨s', hs', -⟩ := Option.map_eq_some_iff.mp hs
    exact h.segments k s' hs'

section

variable {Props Writer : Type} (pq : Parquet Props Writer) (spec : CopySpec Props)
  (encoder : SegmentEncoder) (mint : Int → String) (src : ArchiveFile)

/-- The destination after its sources were copied, before the documents are. -/
structure SourcesCopied (f₀ : ArchiveFile) (cs : List SourceCopy) (f : ArchiveFile) : Prop where
  db : f.db.inline = f₀.db.inline.placeAll cs
  layout : f.db.layout = f₀.db.layout
  documents : f.documents = f₀.documents

theorem SourcesCopied.received {f₀ f : ArchiveFile} {cs : List SourceCopy}
    (h : SourcesCopied f₀ cs f) (hr : f₀.db.Rooted) :
    Received f₀.db.inline f.db.inline cs := by
  rw [h.db]
  exact placeAll_received (rooted_inline.mpr hr)

/-- **The copy inserts what `sourceCopy` says of every source.** -/
theorem copySources_follows {f₀ : ArchiveFile} (hr : f₀.db.Rooted) :
    Prog.Follows (Prog.foldEach (copySource pq spec encoder mint src.db) 0 src.db.readSources) f₀
      (src.db.readSources.mapM (sourceCopy pq spec encoder mint src.db)) fun cs n f =>
        n = cs.length ∧ SourcesCopied f₀ cs f := by
  refine Prog.Follows.foldEach (I := fun _ cs n f => n = cs.length ∧ SourcesCopied f₀ cs f) ?_
    ⟨rfl, rfl, rfl, rfl⟩
  rintro done rec rest cs n f - ⟨rfl, hcopied⟩
  have hrooted : f.db.Rooted := rooted_inline.mp (hcopied.received hr).rooted
  refine (copySource_follows pq spec encoder mint hrooted src.db cs.length rec).mono ?_
  rintro c n f' - ⟨rfl, hgrafted⟩
  refine ⟨by simp, ?_, hgrafted.layout.trans hcopied.layout,
    hgrafted.documents.trans hcopied.documents⟩
  have hnext : f.db.nextSourceId = (f₀.db.inline.placeAll cs).nextSourceId := by
    rw [← hcopied.db]
    rfl
  rw [hgrafted.db, hcopied.db, hnext, placeAll, placeAll, List.foldl_append]
  rfl

/-! ### It gives up at the first failure -/

theorem CopyM.strict_fetch {α : Type} (context : String) (x : α) :
    Prog.Strict (CopyM.fetch context x) := .read

theorem CopyM.strict_execute (context : String) (stmt : Archive → Except Error Archive) :
    Prog.Strict (CopyM.execute context stmt) := .call

theorem strict_copySegment (keep_columns : Option ColumnFilter) (id : Int) (table : String)
    (seq : Nat) (m : SegmentMeta) (bytes : Bytes) (index : Option Bytes) :
    Prog.Strict (copySegment pq spec keep_columns id table seq m bytes index) := by
  refine .bind (.lift _) fun out => ?_
  cases out with
  | none => exact .pure _
  | some t => exact .bind (CopyM.strict_execute _ _) fun _ => .pure _

theorem strict_copyTail (keep_columns : Option ColumnFilter) (rec : SourceRow) (id : Int)
    (table : String) (seq : Nat) (tail : List WalRow) :
    Prog.Strict (copyTail pq spec encoder keep_columns rec id table seq tail) := by
  unfold copyTail
  split
  · split
    · exact .pure _
    · refine .bind (.lift _) fun out => ?_
      cases out with
      | none => exact .pure _
      | some segment => exact strict_copySegment pq spec keep_columns id table seq _ _ _
  · exact .pure _

theorem strict_copyStream (src : Archive) (rec : SourceRow) (id : Int) (table : String) :
    Prog.Strict (copyStream pq spec encoder src rec id table) := by
  unfold copyStream
  split
  · refine .bind (CopyM.strict_fetch _ _) fun segments => .bind (.foldEach (fun seq s =>
      strict_copySegment pq spec _ id table seq _ _ _) _ _) fun seq => ?_
    exact .bind (CopyM.strict_fetch _ _) fun tail =>
      .bind (strict_copyTail pq spec encoder _ rec id table seq tail) fun _ => .pure _
  · exact .pure _

theorem strict_copySource (src : Archive) (copied : Nat) (rec : SourceRow) :
    Prog.Strict (copySource pq spec encoder mint src copied rec) := by
  refine .bind (.lift _) fun _ => .bind .call fun id => ?_
  refine .bind ?_ fun _ => .bind ?_ fun _ => .bind (CopyM.strict_fetch _ _) fun tables => ?_
  · unfold copyComplete
    split
    · exact CopyM.strict_execute _ _
    · exact .pure _
  · unfold copyHeartbeat
    split
    · exact CopyM.strict_execute _ _
    · exact .pure _
  refine .bind (.forEach (strict_copyStream pq spec encoder src rec id) _) fun _ => ?_
  refine .bind (CopyM.strict_fetch _ _) fun offsets => .bind (.forEach (fun o =>
    CopyM.strict_execute _ _) _) fun _ => .bind (CopyM.strict_fetch _ _) fun names => ?_
  refine .bind (.forEach (fun name => ?_) _) fun _ => .pure _
  unfold copyCallerRows
  split
  · exact .bind (CopyM.strict_fetch _ _) fun rows => CopyM.strict_execute _ _
  · exact .pure _

/-- **What a copy that went through left.** The documents are as a copy of them left them. -/
theorem copySourcesInto_ok {dst dst' : ArchiveFile} (hr : dst.db.Rooted) {n : Nat}
    {faults rest : List (Fault SqliteError)}
    (h : copySourcesInto pq spec encoder mint src dst faults = (.ok n, dst', rest)) :
    ∃ cs, src.db.readSources.mapM (sourceCopy pq spec encoder mint src.db) = .ok cs ∧
      n = cs.length ∧ SourcesCopied dst cs { dst' with documents := dst.documents } ∧
      ∃ report faults' rest', DocumentFile.copyDocuments src.documents dst.documents faults' =
        (.ok report, dst'.documents, rest') := by
  have hfetch : ∀ {α : Type} {context : String} {x y : α} {f f' : ArchiveFile}
      {fs fs' : List (Fault SqliteError)}, CopyM.fetch context x f fs = (.ok y, f', fs') →
        y = x ∧ f' = f := by
    intro α context x y f f' fs fs' hrun
    have hnil := (CopyM.strict_fetch context x) _ _ _ _ _ hrun
    rw [CopyM.run_fetch] at hnil
    obtain ⟨hy, hf⟩ := Prod.mk.inj hnil
    exact ⟨(Outcome.ok.inj hy).symm, (Prod.mk.inj hf).1.symm⟩
  obtain ⟨_, f₁, fs₁, hopen, h₁⟩ := Prog.run_bind_eq_ok h
  obtain ⟨-, rfl⟩ := hfetch hopen
  unfold copySourcesSnapshotted at h₁
  obtain ⟨sources, f₂, fs₂, hsources, h₂⟩ := Prog.run_bind_eq_ok h₁
  obtain ⟨rfl, rfl⟩ := hfetch hsources
  obtain ⟨copied, f₃, fs₃, hcopy, h₃⟩ := Prog.run_bind_eq_ok h₂
  obtain ⟨cs, hcs, rfl, hcopied⟩ := Prog.Strict.followed
    (.foldEach (strict_copySource pq spec encoder mint src.db) _ _)
    (copySources_follows pq spec encoder mint src hr) hcopy
  -- the documents are another part of the file
  obtain ⟨report, f₄, fs₄, hdocuments, h₄⟩ := Prog.run_bind_eq_ok h₃
  obtain ⟨hn, hstate⟩ := Prod.mk.inj h₄
  obtain ⟨rfl, -⟩ := Prod.mk.inj hstate
  unfold Prog.zoom at hdocuments
  rcases hrun : DocumentFile.copyDocuments src.documents f₃.documents fs₃ with ⟨r, t, fs₅⟩
  rw [hrun] at hdocuments
  obtain ⟨hreport, hdocuments⟩ := Prod.mk.inj hdocuments
  obtain ⟨rfl, -⟩ := Prod.mk.inj hdocuments
  refine ⟨cs, hcs, (Outcome.ok.inj hn).symm, ⟨hcopied.db, hcopied.layout, rfl⟩, report, fs₃, fs₅, ?_⟩
  rw [← hcopied.documents, hrun, hreport]

end

/-! ## A copy that keeps every column -/

/-- A segment as a copy carries it. -/
def SegmentRow.part (s : SegmentRow) : Part :=
  { seg_meta := s.seg_meta, bytes := s.bytes, index := s.caller_index }

/-- A tail as a copy seals it. -/
def Segment.part (s : Segment) : Part :=
  { seg_meta := s.segMeta, bytes := s.bytes, index := s.index }

section

variable {Props Writer : Type} {pq : Parquet Props Writer} {spec : CopySpec Props}
  {encoder : SegmentEncoder} {src : Archive} {rec : SourceRow} {table : String}

/-- The segments that overlap the window, and the tail. -/
theorem streamParts_whole (hk : spec.keep_columns = none) (hacc : spec.accepts table = true) :
    streamParts pq spec encoder src rec table = do
      let tail ← tailPart pq spec encoder none rec table (src.liveWal rec.id table)
      return (src.segmentsOverlapping rec.id table spec.start spec.end_).map SegmentRow.part ++
        tail.toList := by
  have hsegments : ∀ segments : List SegmentRow,
      segments.mapM (fun s => segmentPart pq spec none s.seg_meta s.bytes s.caller_index) =
        .ok (segments.map fun s => some s.part) := fun segments => List.mapM_pure
  have hsome : ∀ segments : List SegmentRow,
      (segments.map fun s => some s.part).reduceOption = segments.map SegmentRow.part := by
    intro segments
    induction segments with
    | nil => rfl
    | cons s segments ih => rw [List.map_cons, List.reduceOption_cons_of_some, ih, List.map_cons]
  unfold streamParts
  rw [if_pos hacc, hk]
  dsimp only [Option.filter_none]
  rw [hsegments]
  show (do
    let tail ← tailPart pq spec encoder none rec table (src.liveWal rec.id table)
    return ((src.segmentsOverlapping rec.id table spec.start spec.end_).map
      fun s : SegmentRow => some s.part).reduceOption ++ tail.toList) = _
  rw [hsome]

/-- The tail that is in range, sealed. -/
theorem tailPart_whole {tail : List WalRow} {first last : WalRow} (hfirst : tail.head? = some first)
    (hlast : tail.getLast? = some last) (hrange : spec.start ≤ last.ts ∧ first.ts ≤ spec.end_) :
    tailPart pq spec encoder none rec table tail =
      (materialize encoder { source_id := rec.id, source_uuid := rec.uuid, stream := table }
        tail).map (Option.map Segment.part) := by
  have hnot : ¬(decide (last.ts < spec.start) || decide (first.ts > spec.end_)) = true := by
    simp [hrange.1, hrange.2]
  unfold tailPart
  rw [hfirst, hlast]
  dsimp only
  rw [if_neg hnot]
  rcases materialize encoder { source_id := rec.id, source_uuid := rec.uuid, stream := table } tail
    with e | segment
  · rfl
  · cases segment <;> rfl

theorem minValue_le (x : Int64) : Int64.minValue ≤ x := by
  rw [Int64.le_iff_toInt_le]
  exact x.minValue_le_toInt

theorem le_maxValue (x : Int64) : x ≤ Int64.maxValue := by
  rw [Int64.le_iff_toInt_le]
  exact x.toInt_le

theorem everything_range (first last : Int64) : (CopySpec.everything Props).start ≤ last ∧
    first ≤ (CopySpec.everything Props).end_ := ⟨minValue_le last, le_maxValue first⟩

theorem segmentsOverlapping_everything (source_id : Int) (stream : String) :
    src.segmentsOverlapping source_id stream Int64.minValue Int64.maxValue =
      src.readSegments source_id stream :=
  List.filter_eq_self.mpr fun _ _ => decide_eq_true ⟨minValue_le _, le_maxValue _⟩

theorem sourceUuid_of_mem (hrec : rec ∈ src.readSources) : src.sourceUuid rec.id = .ok rec.uuid := by
  obtain ⟨e, he, rfl⟩ := List.mem_map.mp hrec
  rw [sourceUuid, OrdMap.get?_eq_some.mpr he]

/-- **A copy of everything inserts what a reader lists.** -/
theorem streamParts_everything (hrec : rec ∈ src.readSources) :
    streamParts pq (.everything Props) encoder src rec table = do
      let tail ← src.materializeTail rec.id table encoder (src.liveWal rec.id table)
      return (src.readSegments rec.id table).map SegmentRow.part ++
        tail.toList.map Segment.part := by
  rw [streamParts_whole rfl rfl]
  have hoverlap : src.segmentsOverlapping rec.id table (CopySpec.everything Props).start
      (CopySpec.everything Props).end_ = src.readSegments rec.id table :=
    segmentsOverlapping_everything rec.id table
  rw [hoverlap]
  rcases hlive : src.liveWal rec.id table with _ | ⟨first, rest⟩
  · rfl
  · have hlast : (first :: rest).getLast? = some ((first :: rest).getLast (by simp)) :=
      List.getLast?_eq_getLast_of_ne_nil (by simp)
    rw [tailPart_whole (List.head?_cons ..) hlast (everything_range _ _),
      materializeTail, sourceUuid_of_mem hrec, List.isEmpty_cons, if_neg (by simp)]
    dsimp only [bind, Except.bind]
    rcases materialize encoder { source_id := rec.id, source_uuid := rec.uuid, stream := table }
      (first :: rest) with e | segment
    · rfl
    · cases segment <;> rfl

theorem bytes_everything (hrec : rec ∈ src.readSources) :
    src.streamSegmentsSnapshotted rec.id table encoder =
      (streamParts pq (.everything Props) encoder src rec table).map (List.map (·.bytes)) := by
  rw [streamParts_everything hrec, streamSegmentsSnapshotted]
  rcases src.materializeTail rec.id table encoder (src.liveWal rec.id table) with e | tail
  · rfl
  · have hbytes : (src.readSegments rec.id table).map (·.bytes) =
        ((src.readSegments rec.id table).map SegmentRow.part).map (·.bytes) := by
      rw [List.map_map]
      rfl
    cases tail with
    | none => exact congrArg Except.ok (by rw [hbytes]; simp)
    | some tail =>
      refine congrArg Except.ok ?_
      rw [hbytes, Option.toList_some, List.map_singleton, List.map_append]
      rfl

/-- **The copy gives up where the reader does**, with the same error. -/
theorem sourceCopy_everything_failsAs (mint : Int → String) (hrec : rec ∈ src.readSources) :
    (sourceCopy pq (.everything Props) encoder mint src rec).FailsAs (src.readSource encoder rec) := by
  refine .bind (.refl _) fun _ _ _ _ => ?_
  have hstreams : ((src.allStreams rec.id).mapM fun table => do
      return renumbered table (← streamParts pq (.everything Props) encoder src rec table)).FailsAs
      ((src.allStreams rec.id).mapM fun stream => do
        return (stream, ← src.streamSegmentsSnapshotted rec.id stream encoder)) := by
    refine .mapM fun table _ => ?_
    rw [bytes_everything hrec]
    exact .bind (Except.FailsAs.value _ _).symm fun _ _ _ _ => .pure _ _
  unfold readStreams
  exact (Except.FailsAs.value _ _).trans
    (hstreams.trans ((Except.FailsAs.value _ _).trans (Except.FailsAs.value _ _)).symm)

/-- What a reader returns of a source that a copy of everything carries. -/
theorem SourceCopied.readOriginal {mint : Int → String} {c : SourceCopy}
    (h : SourceCopied pq (.everything Props) encoder mint src rec c) (hrec : rec ∈ src.readSources) :
    src.readSource encoder rec = .ok
      { labels := rec.identity.labels, metadata := rec.identity.metadata
        complete := rec.complete
        streams := copiedStreams pq (.everything Props) encoder src rec } := by
  have hstream : ∀ stream, src.streamSegmentsSnapshotted rec.id stream encoder = .ok
      ((copiedParts pq (.everything Props) encoder src rec stream).map (·.bytes)) := by
    intro stream
    rw [bytes_everything hrec, h.parts]
    rfl
  have hall : (src.allStreams rec.id).mapM (fun stream => do
      return (stream, ← src.streamSegmentsSnapshotted rec.id stream encoder)) =
      Except.ok ((src.allStreams rec.id).map fun stream =>
        (stream, (copiedParts pq (.everything Props) encoder src rec stream).map (·.bytes))) := by
    simp only [hstream]
    exact List.mapM_pure
  unfold Archive.readSource readStreams
  rw [h.checked, hall]
  rfl

end

/-! ## Reading either archive -/

theorem bytes_inline (a : Archive) (source_id : Int) (stream : String) :
    (a.inline.readSegments source_id stream).map (·.bytes) =
      (a.readSegments source_id stream).map (·.bytes) := by
  rw [readSegments, readSegments, List.map_map, List.map_map, catalog_inline, OrdMap.entries_map,
    List.map_map]
  rfl

theorem readArchive_inline (a : Archive) (encoder : SegmentEncoder) :
    a.inline.readArchive encoder = a.readArchive encoder := by
  have hstream : ∀ source_id stream, a.inline.streamSegmentsSnapshotted source_id stream encoder =
      a.streamSegmentsSnapshotted source_id stream encoder := by
    intro source_id stream
    unfold streamSegmentsSnapshotted
    rw [bytes_inline, liveWal_inline]
    rfl
  refine Except.mapM_congr fun rec _ => ?_
  unfold Archive.readSource readStreams
  rw [allStreams_inline]
  simp only [hstream]

/-- The sources that a copy added, as the archive lists them. -/
def Archive.addedSources (a : Archive) (cs : List SourceCopy) : List SourceRow :=
  cs.mapIdx fun i c => { c.cols with id := a.nextSourceId + i }

/-- A reader finds the old sources as they were, and then the new ones. -/
theorem Archive.Received.readArchive {a b : Archive} {cs : List SourceCopy} (h : Received a b cs)
    (encoder : SegmentEncoder) : b.readArchive encoder = do
      let old ← a.readArchive encoder
      let new ← (a.addedSources cs).mapM (b.readSource encoder)
      return old ++ new := by
  have hold : a.readSources.mapM (b.readSource encoder) = a.readArchive encoder := by
    refine Except.mapM_congr fun rec hrec => ?_
    obtain ⟨e, he, rfl⟩ := List.mem_map.mp hrec
    exact (h.old e.1 (Option.isSome_iff_exists.mpr ⟨_, OrdMap.get?_eq_some.mpr he⟩)).readSource
      encoder rfl
  unfold Archive.readArchive
  rw [h.sources, List.mapM_append]
  exact congrArg (· >>= _) hold

/-! ## The full copy -/

/-- Destinations: files that transactions and copies can leave. -/
inductive ArchiveFile.Reached {Props Writer : Type} (pq : Parquet Props Writer) :
    ArchiveFile → Prop where
  | create (layout : IndexLayout) : Reached pq { db := .create layout, documents := .create }
  | write {f : ArchiveFile} (w : Write) {db : Archive} (h : Reached pq f)
      (hw : w.apply f.db = .ok db) : Reached pq { f with db }
  | documents {f : ArchiveFile} (documents : DocumentFile) (h : Reached pq f) :
      Reached pq { f with documents }
  | copy {f f' : ArchiveFile} (spec : CopySpec Props) (encoder : SegmentEncoder)
      (mint : Int → String) (src : ArchiveFile) {faults rest : List (Fault SqliteError)} {n : Nat}
      (h : Reached pq f)
      (hcopy : copySourcesInto pq spec encoder mint src f faults = (.ok n, f', rest)) :
      Reached pq f'

/-- **No destination has a row without its source.** -/
theorem ArchiveFile.Reached.rooted {Props Writer : Type} {pq : Parquet Props Writer}
    {f : ArchiveFile} (h : f.Reached pq) : f.db.Rooted := by
  induction h with
  | create layout => exact .create layout
  | write w h hw ih => exact w.rooted ih hw
  | documents d h ih => exact ih
  | copy spec encoder mint src h hcopy ih =>
      obtain ⟨cs, -, -, hcopied, -⟩ := copySourcesInto_ok pq spec encoder mint src ih hcopy
      exact rooted_inline.mp (hcopied.received ih).rooted

/-- What a file has of a source it received is what the source has, under an id of its own. -/
structure CarriedSource (encoder : SegmentEncoder) (mint : Int → String) (src : Archive)
    (rec : SourceRow) (b : Archive) (id : Int) : Prop where
  row : b.sources.get? id =
    some { rec.toSourceCols with uuid := some (rec.uuid.getD (mint rec.id)) }
  dense : ∀ stream, (b.readSegments id stream).map (·.seq) =
    List.range (b.readSegments id stream).length
  live : ∀ stream, b.liveWal id stream = []
  indexed : b.layout ≠ .absent → ∀ stream,
    b.indexedSegments id stream encoder = src.indexedSegments rec.id stream encoder
  offsets : b.readClockOffsets id = src.readClockOffsets rec.id
  callers : ∀ stream start end_,
    b.readCallerRows id stream start end_ = src.readCallerRows rec.id stream start end_

/-- Whether an encoder may read a source is a question about its metadata. -/
theorem checkEncoder_id {encoder : SegmentEncoder} {metadata : StringMap} {id : Int} (id' : Int)
    (h : checkEncoder id metadata encoder = .ok ()) : checkEncoder id' metadata encoder = .ok () := by
  unfold checkEncoder at h ⊢
  split
  · split
    · simp_all
    · rfl
  · rfl

theorem checkEncoderOf_ok {encoder : SegmentEncoder} {a : Archive} {id : Int} {cols : SourceCols}
    (hcols : a.sources.get? id = some cols)
    (h : checkEncoder id cols.identity.metadata encoder = .ok ()) :
    a.checkEncoderOf id encoder = .ok () := by
  unfold checkEncoderOf sourceMetadata
  rw [hcols]
  split
  · rfl
  · exact h

section

variable {Props Writer : Type} {pq : Parquet Props Writer} {encoder : SegmentEncoder}
  {mint : Int → String} {src b : Archive} {rec : SourceRow} {c : SourceCopy} {id : Int}

/-- The segments of the stream as a read returns them. -/
theorem SourceCopied.readSegments {spec : CopySpec Props}
    (h : SourceCopied pq spec encoder mint src rec c) (hb : b.inline.HasCopy id c)
    (stream : String) : b.readSegments id stream =
      (copiedParts pq spec encoder src rec stream).mapIdx fun seq p =>
        { seq, seg_meta := p.seg_meta, bytes := p.bytes
          caller_index := if b.inline.layout = .column then p.index else none } := by
  have hentries := catalog_inline_entries (a := b) (streamKey id stream)
  rw [h.catalog_entries hb] at hentries
  have hself : (b.readSegments id stream).map (fun s => (s.seq,
      ({ seg_meta := s.seg_meta, bytes := s.bytes, caller_index := s.caller_index } : SegmentCols))) =
      ((copiedParts pq spec encoder src rec stream).mapIdx fun seq p => (
        { seq, seg_meta := p.seg_meta, bytes := p.bytes
          caller_index := if b.inline.layout = .column then p.index else none } : SegmentRow)).map
        fun s => (s.seq, { seg_meta := s.seg_meta, bytes := s.bytes, caller_index := s.caller_index }) := by
    rw [map_mapIdx]
    exact hentries.symm
  refine List.map_injective_iff.mpr ?_ hself
  rintro ⟨seq, m, bytes, index⟩ ⟨seq', m', bytes', index'⟩ heq
  simp_all

/-- The index of every segment stands beside it. -/
theorem SourceCopied.indexed (h : SourceCopied pq (.everything Props) encoder mint src rec c)
    (hrec : rec ∈ src.readSources) (hb : b.inline.HasCopy id c) (hlayout : b.layout ≠ .absent)
    (stream : String) :
    b.indexedSegments id stream encoder = src.indexedSegments rec.id stream encoder := by
  have hinline : b.inline.layout = .column := by
    unfold Archive.inline
    cases hl : b.layout
    · rfl
    · rfl
    · exact absurd hl hlayout
  have hsegments : (b.readSegments id stream).map (fun s => (s.bytes, s.caller_index)) =
      (copiedParts pq (.everything Props) encoder src rec stream).map fun p => (p.bytes, p.index) := by
    rw [h.readSegments hb, map_mapIdx]
    simp only [hinline, if_true]
    exact mapIdx_const _ _
  -- the source lists its segments, then the tail that the copy sealed
  have hparts := h.parts stream
  rw [streamParts_everything hrec] at hparts
  obtain ⟨tail, htail, hparts⟩ := Except.bind_eq_ok.mp hparts
  have hsource : src.sources.get? rec.id = some rec.toSourceCols := by
    obtain ⟨e, he, rfl⟩ := List.mem_map.mp hrec
    exact OrdMap.get?_eq_some.mpr he
  have hcheck : b.checkEncoderOf id encoder = .ok () := by
    refine checkEncoderOf_ok (hb.source.trans (congrArg some h.cols)) ?_
    exact checkEncoder_id id h.checked
  unfold indexedSegments
  rw [checkEncoderOf_ok hsource h.checked, hcheck, htail, ← liveWal_inline, hb.liveWal_nil,
    hsegments, ← Except.pure_eq_ok.mp hparts]
  refine congrArg Except.ok ?_
  rw [Option.toList_none, List.map_nil, List.append_nil, List.map_append, List.map_map,
    List.map_map]
  rfl

theorem SourceCopied.carried (h : SourceCopied pq (.everything Props) encoder mint src rec c)
    (hrec : rec ∈ src.readSources) (hb : b.inline.HasCopy id c) :
    CarriedSource encoder mint src rec b id where
  row := by
    have hrow := hb.source
    rw [h.cols] at hrow
    exact hrow
  dense stream := by
    rw [h.readSegments hb, map_mapIdx, List.length_mapIdx]
    exact List.ext_getElem (by simp) fun i h₁ h₂ => by simp
  live stream := by
    rw [← liveWal_inline]
    exact hb.liveWal_nil stream
  indexed hlayout stream := h.indexed hrec hb hlayout stream
  offsets := by
    have hoffsets := hb.offsets
    rw [h.offsets] at hoffsets
    exact hoffsets.trans (congrArg OrdMap.entries (OrdMap.ofList_entries _))
  callers stream start end_ := h.readCallerRows hb rfl (minValue_le start) (le_maxValue end_)

/-- What a reader returns of the sources that a full copy added. -/
theorem Archive.Received.readAdded {a : Archive} {cs : List SourceCopy} (hb : Received a b cs)
    (hcs : src.readSources.mapM (sourceCopy pq (.everything Props) encoder mint src) = .ok cs) :
    (a.addedSources cs).mapM (b.readSource encoder) = src.readArchive encoder := by
  have hall := Except.mapM_eq_ok.mp hcs
  have hread : ∀ rec c, rec ∈ src.readSources →
      sourceCopy pq (.everything Props) encoder mint src rec = .ok c → ∀ id, b.HasCopy id c →
        b.readSource encoder { c.cols with id } = src.readSource encoder rec := by
    intro rec c hrec hc id hcopy
    have hok := sourceCopy_ok hc
    have hcheck : checkEncoder id c.cols.identity.metadata encoder = .ok () := by
      rw [hok.cols]
      exact checkEncoder_id id hok.checked
    rw [hok.readOriginal hrec, hok.readSource hcopy hcheck]
    rfl
  refine Except.mapM_forall₂ (List.forall₂_iff_get.mpr ⟨?_, fun i hi hi' => ?_⟩)
  · rw [addedSources, List.length_mapIdx, hall.length_eq]
  · have hi'' : i < cs.length := by simpa [addedSources] using hi
    have hc : sourceCopy pq (.everything Props) encoder mint src src.readSources[i] = .ok cs[i] :=
      hall.get hi' hi''
    have hadded : (a.addedSources cs)[i] = { cs[i].cols with id := a.nextSourceId + i } := by
      simp [addedSources]
    rw [List.get_eq_getElem, List.get_eq_getElem, hadded]
    exact hread _ _ (List.getElem_mem _) hc _ (hb.new i hi'')

/-- What a copy of everything did to a reader's view of the destination. -/
structure ReadsAfter (encoder : SegmentEncoder) (mint : Int → String) (src dst dst' : Archive)
    (S : List SourceSegments) : Prop where
  /-- The destination reads as it did, and then as the source does. -/
  archive : dst'.readArchive encoder = (dst.readArchive encoder).map (· ++ S)
  sources : dst'.readSources = dst.readSources ++ src.readSources.mapIdx fun i rec =>
    { rec with uuid := some (rec.uuid.getD (mint rec.id)), id := dst.nextSourceId + i }
  carried : ∀ (i : Nat) (hi : i < src.readSources.length),
    CarriedSource encoder mint src src.readSources[i] dst' (dst.nextSourceId + i)

theorem readsAfter_of_copied {dst dst' : Archive} {cs : List SourceCopy}
    (hb : Received dst.inline dst'.inline cs)
    (hcs : src.readSources.mapM (sourceCopy pq (.everything Props) encoder mint src) = .ok cs)
    {S : List SourceSegments} (hS : src.readArchive encoder = .ok S) :
    ReadsAfter encoder mint src dst dst' S := by
  have hall := Except.mapM_eq_ok.mp hcs
  refine ⟨?_, ?_, fun i hi => ?_⟩
  · rw [← readArchive_inline, hb.readArchive, hb.readAdded hcs, hS, readArchive_inline]
    cases dst.readArchive encoder <;> rfl
  · refine hb.sources.trans (congrArg (_ ++ ·) (List.ext_getElem (by simp [hall.length_eq]) ?_))
    intro i h₁ h₂
    have hi : i < cs.length := by simpa using h₁
    have hi' : i < src.readSources.length := by simpa using h₂
    have hc : sourceCopy pq (.everything Props) encoder mint src src.readSources[i] = .ok cs[i] :=
      hall.get hi' hi
    rw [List.getElem_mapIdx, List.getElem_mapIdx, (sourceCopy_ok hc).cols]
    rfl
  · have hi' : i < cs.length := hall.length_eq ▸ hi
    have hc : sourceCopy pq (.everything Props) encoder mint src src.readSources[i] = .ok cs[i] :=
      hall.get hi hi'
    exact (sourceCopy_ok hc).carried (List.getElem_mem _) (hb.new i hi')

end

/-- **A full copy reads the same.** Whatever strikes it, after a copy of everything that went
through, into any destination, the destination reads as it did and then as the source does. -/
theorem copySourcesInto_reads {Props Writer : Type} (pq : Parquet Props Writer)
    (encoder : SegmentEncoder) (mint : Int → String) (src : ArchiveFile) {dst dst' : ArchiveFile}
    (hd : dst.Reached pq) {n : Nat} {faults rest : List (Fault SqliteError)}
    (h : copySourcesInto pq (.everything Props) encoder mint src dst faults =
      (.ok n, dst', rest)) :
    ∃ S, src.db.readArchive encoder = .ok S ∧ n = S.length ∧
      ReadsAfter encoder mint src.db dst.db dst'.db S := by
  obtain ⟨cs, hcs, rfl, hcopied, -⟩ := copySourcesInto_ok pq _ encoder mint src hd.rooted h
  have hreceived := hcopied.received hd.rooted
  have hall := Except.mapM_eq_ok.mp hcs
  -- every source was read on the way across
  rcases hS : src.db.readArchive encoder with e | S
  · have hfails : (src.db.readSources.mapM (sourceCopy pq (.everything Props) encoder mint
        src.db)).FailsAs (src.db.readArchive encoder) :=
      .mapM fun rec hrec => sourceCopy_everything_failsAs mint hrec
    rw [hcs] at hfails
    exact absurd ((hfails e).mpr hS) (by simp)
  · refine ⟨S, rfl, ?_, readsAfter_of_copied hreceived hcs hS⟩
    rw [← hall.length_eq, (Except.mapM_eq_ok.mp hS).length_eq]

/-- A source whose catalog starts at 1, with a row below the seam that was not pruned, and a tail
of two rows. -/
def unpruned : Archive :=
  { twoLiveRows with
    segments := .ofList [(toLex (streamKey 1 "cpu", 1),
      { seg_meta := { rows := 1, first_ts := 0, last_ts := 0 }, bytes := [9], caller_index := none })]
    segment_indexes := .ofList [(toLex (streamKey 1 "cpu", 1), [7])]
    wal := twoLiveRows.wal.insert (toLex (streamKey 1 "cpu", 0)) { wall_offset := 0, row := [0] }
    caller_rows := [(streamKey 1 "notes", { ts := 3, blob := [3] }),
      (streamKey 1 "notes", { ts := 2, blob := [2] })] }

/-- A new file after a copy of it. -/
def unprunedCopied : ArchiveFile :=
  (copySourcesInto (shelfParquet []) (.everything _) schemaEncoder (fun _ => "minted")
    { db := unpruned, documents := .create } .create []).2.1

theorem unprunedCopied_run : copySourcesInto (shelfParquet []) (.everything _) schemaEncoder
    (fun _ => "minted") { db := unpruned, documents := .create } .create [] =
      (.ok 1, unprunedCopied, []) :=
  Prod.ext (by decide +kernel) (Prod.ext rfl (by decide +kernel))

theorem copySourcesInto_reads_unpruned :
    ∃ S, unpruned.readArchive schemaEncoder = .ok S ∧ 1 = S.length ∧
      ReadsAfter schemaEncoder (fun _ => "minted") unpruned (.create .table) unprunedCopied.db S :=
  copySourcesInto_reads (shelfParquet []) schemaEncoder (fun _ => "minted")
    { db := unpruned, documents := .create } (.create .table) unprunedCopied_run

/-- **A full copy goes through whenever a full read does**, and no document stands in its way.
Where nothing strikes it, it gives up with the error that the reader of the source gives up with,
or at a document that both files have under one uuid with different contents, or, where the source
has a revision and the destination is of the schema before documents, with the error that says so.
-/
theorem copySourcesInto_goes {Props Writer : Type} (pq : Parquet Props Writer)
    (encoder : SegmentEncoder) (mint : Int → String) (src : ArchiveFile) {dst : ArchiveFile}
    (hd : dst.Reached pq) (hw : DocumentFile.Written src.documents dst.documents) :
    (∀ e, src.db.readArchive encoder = .error e → ∃ dst',
      copySourcesInto pq (.everything Props) encoder mint src dst [] = (.err e, dst', [])) ∧
    ∀ S, src.db.readArchive encoder = .ok S →
      ((∃ dst', copySourcesInto pq (.everything Props) encoder mint src dst [] =
          (.ok S.length, dst', [])) ↔
        (src.documents.rows = [] ∨ dst.documents.documents.isSome) ∧
          ¬src.documents.Conflict dst.documents) ∧
      (src.documents.rows ≠ [] → dst.documents.documents = none → ∃ dst',
        copySourcesInto pq (.everything Props) encoder mint src dst [] =
          (.err (.schemaTooOld dst.documents.user_version DOCUMENTS_SCHEMA_VERSION), dst', [])) := by
  have hfails : (src.db.readSources.mapM (sourceCopy pq (.everything Props) encoder mint
      src.db)).FailsAs (src.db.readArchive encoder) :=
    .mapM fun rec hrec => sourceCopy_everything_failsAs mint hrec
  -- the program without its two reads of the snapshot
  have hrun : copySourcesInto pq (.everything Props) encoder mint src dst [] = (do
      let copied ← Prog.foldEach (copySource pq (.everything Props) encoder mint src.db) 0
        src.db.readSources
      let _ ← Prog.zoom ArchiveFile.documents (fun documents f => { f with documents })
        (DocumentFile.copyDocuments src.documents)
      return copied : CopyM Nat) dst [] := by
    unfold copySourcesInto copySourcesSnapshotted
    rw [Prog.run_bind_ok (CopyM.run_fetch _ _ dst), Prog.run_bind_ok (CopyM.run_fetch _ _ dst)]
  rw [hrun]
  rcases copySources_follows pq (.everything Props) encoder mint src hd.rooted with
    ⟨n, f, hfold, cs, hcs, rfl, hcopied⟩ | ⟨e, f, hfold, he⟩
  · refine ⟨fun e he => ?_, fun S hS => ?_⟩
    · rw [hcs] at hfails
      exact absurd ((hfails e).mpr he) (by simp)
    have hlen : cs.length = S.length := by
      rw [← (Except.mapM_eq_ok.mp hcs).length_eq, (Except.mapM_eq_ok.mp hS).length_eq]
    have hdocuments : f.documents = dst.documents := hcopied.documents
    rw [Prog.run_bind_ok hfold, hlen]
    obtain ⟨hslinked, hdlinked⟩ := hw.linked
    refine ⟨?_, fun hrows hnone => ⟨f, ?_⟩⟩
    · rcases DocumentFile.copyDocuments_goes_iff hslinked hdlinked with
        ⟨report, t, hcopy, htakes⟩ | ⟨e, t, hcopy, hrefused⟩
      · refine iff_of_true ⟨{ f with documents := t }, ?_⟩ htakes
        rw [Prog.run_bind, Prog.zoom, hdocuments, hcopy]
        rfl
      · refine iff_of_false ?_ hrefused
        rintro ⟨dst', h⟩
        rw [Prog.run_bind, Prog.zoom, hdocuments, hcopy] at h
        cases (Prod.mk.inj h).1
    · rw [Prog.run_bind, Prog.zoom, hdocuments, DocumentFile.copyDocuments_tooOld hrows hnone,
        ← hdocuments]
  · refine ⟨fun e' he' => ⟨f, ?_⟩, fun S hS => ?_⟩
    · rw [(hfails e).mp he] at he'
      rw [Prog.run_bind, hfold, Except.error.inj he']
    · rw [(hfails e).mp he] at hS
      cases hS

/-- The same with the documents of a combination, and a destination that had one of them. -/
def unprunedFile : ArchiveFile where
  db := unpruned
  documents := DocumentFile.created.run DocumentFile.anyJson DocumentFile.combined 2

def documentedFile : ArchiveFile where
  db := .create .table
  documents := DocumentFile.created.run DocumentFile.anyJson DocumentFile.combined 0

/-- A file of the schema before documents. -/
def oldFile : ArchiveFile where
  db := .create .table
  documents := .createV4

/-- New files, of which file 3 is of the schema before documents. -/
def createdBesideOld : Files := fun i => if i = 3 then .createV4 else .create

/-- It goes through into the one file, and not into the other. -/
theorem copySourcesInto_goes_unpruned :
    (∃ dst', copySourcesInto (shelfParquet []) (.everything _) schemaEncoder (fun _ => "minted")
        unprunedFile documentedFile [] = (.ok 1, dst', [])) ∧
      ∃ dst', copySourcesInto (shelfParquet []) (.everything _) schemaEncoder (fun _ => "minted")
        unprunedFile oldFile [] = (.err (.schemaTooOld 4 5), dst', []) := by
  have hw : DocumentFile.Written unprunedFile.documents documentedFile.documents :=
    ⟨DocumentFile.anyJson, DocumentFile.created, DocumentFile.combined, 2, 0,
      DocumentFile.created_new, rfl, rfl⟩
  have hnew : createdBesideOld.New := fun i => by
    unfold createdBesideOld
    split
    · exact .inr rfl
    · exact .inl rfl
  have hold : DocumentFile.Written unprunedFile.documents oldFile.documents :=
    ⟨DocumentFile.anyJson, createdBesideOld, DocumentFile.combined, 2, 3, hnew, rfl, rfl⟩
  have hS : unprunedFile.db.readArchive schemaEncoder = .ok
      [{ labels := ∅, metadata := ∅, complete := false, streams := [("cpu", [[9], [1, 2]])] }] := by
    decide +kernel
  have hgoes := (copySourcesInto_goes (shelfParquet []) schemaEncoder (fun _ => "minted")
    unprunedFile (.documents _ (.create .table)) hw).2 _ hS
  have hrefused := (copySourcesInto_goes (shelfParquet []) schemaEncoder (fun _ => "minted")
    unprunedFile (.documents .createV4 (.create .table)) hold).2 _ hS
  exact ⟨hgoes.1.mpr ⟨.inr (by decide), by decide +kernel⟩,
    hrefused.2 (by decide) rfl⟩

end Dendro
