import Dendro.Rewrite.FullCopy

/-!
# Copies of a window, and of some columns

A segment is carried whole when it overlaps the window at all, and so is the tail. So a copy of a
window has every row of it that a reader of the source finds, and nothing but segments that the
reader returns (`copySourcesInto_window`).

A copy that trims columns has the segments of one that does not, each projected, but those that
have no data column left (`copySourcesInto_trims`).
-/

namespace Dendro

open Archive

section

variable {Props Writer : Type} {pq : Parquet Props Writer} {spec : CopySpec Props}
  {encoder : SegmentEncoder} {mint : Int → String} {src : Archive} {rec : SourceRow}
  {c : SourceCopy} {table : String} {dec : Decoder}

/-! ## The tail -/

theorem materialize_some {ctx : EncodeContext} {rows : List WalRow} {s : Segment}
    (h : materialize encoder ctx rows = .ok (some s)) : encoder.encode ctx rows = .ok (some s) := by
  obtain ⟨first, last, -, -, hanswer, -⟩ := materializeAfter_eq_some.mp h
  exact hanswer

/-- A tail that is carried is the tail that a reader seals. -/
theorem tailPart_some {tail : List WalRow} {p : Part}
    (h : tailPart pq spec encoder none rec table tail = .ok (some p)) : tail ≠ [] ∧
      ∃ s, materialize encoder { source_id := rec.id, source_uuid := rec.uuid, stream := table }
        tail = .ok (some s) ∧ p = s.part := by
  unfold tailPart at h
  split at h
  case h_2 => cases h
  case h_1 first last hfirst hlast =>
    have hne : tail ≠ [] := by
      rintro rfl
      cases hfirst
    refine ⟨hne, ?_⟩
    split at h
    · cases h
    · obtain ⟨out, hout, h⟩ := Except.bind_eq_ok.mp h
      cases out with
      | none => cases h
      | some s => exact ⟨s, hout, (Option.some.inj (Except.ok.inj h)).symm⟩

/-- What a reader finds of a stream: its segments, then the tail that was sealed for it. -/
theorem streamSegments_ok (hrec : rec ∈ src.readSources) {full : List Bytes}
    (h : src.streamSegmentsSnapshotted rec.id table encoder = .ok full) :
    ∃ tail : Option Segment, full = (src.readSegments rec.id table).map (·.bytes) ++
        tail.toList.map (·.bytes) ∧
      (src.liveWal rec.id table ≠ [] → materialize encoder
        { source_id := rec.id, source_uuid := rec.uuid, stream := table }
          (src.liveWal rec.id table) = .ok tail) ∧ (src.liveWal rec.id table = [] → tail = none) := by
  unfold streamSegmentsSnapshotted at h
  obtain ⟨tail, htail, h⟩ := Except.bind_eq_ok.mp h
  refine ⟨tail, ?_, fun hne => ?_, fun hnil => ?_⟩
  · cases tail with
    | none => exact (Except.pure_eq_ok.mp h).symm.trans (List.append_nil _).symm
    | some s => exact (Except.pure_eq_ok.mp h).symm
  · unfold materializeTail at htail
    rw [sourceUuid_of_mem hrec, List.isEmpty_eq_false_iff.mpr hne] at htail
    exact htail
  · unfold materializeTail at htail
    rw [hnil] at htail
    exact (Except.ok.inj htail).symm

/-! ## The rows of the window -/

/-- **Every row of the window is carried.** -/
theorem SourceCopied.window_rows (h : SourceCopied pq spec encoder mint src rec c)
    (hk : spec.keep_columns = none) (hacc : spec.accepts table = true) (ht : src.Truthful dec)
    (hr : encoder.ReadBy dec) (hrec : rec ∈ src.readSources) {full : List Bytes}
    (hfull : src.streamSegmentsSnapshotted rec.id table encoder = .ok full) {r : WalRow}
    (hrow : r ∈ rowsOf dec rec.id table full) (hstart : spec.start ≤ r.ts)
    (hend : r.ts ≤ spec.end_) :
    r ∈ rowsOf dec rec.id table ((copiedParts pq spec encoder src rec table).map (·.bytes)) := by
  obtain ⟨tail, rfl, hsealed, hnone⟩ := streamSegments_ok hrec hfull
  have hparts := h.parts table
  rw [streamParts_whole hk hacc] at hparts
  obtain ⟨part, hpart, hparts⟩ := Except.bind_eq_ok.mp hparts
  rw [← Except.pure_eq_ok.mp hparts, List.map_append, rowsOf, List.flatMap_append]
  rw [spliced_rows] at hrow
  rcases List.mem_append.mp hrow with hrow | hrow
  · -- a segment with a row of the window overlaps it
    have hover := overlapping_rows ht hrow hstart hend
    rw [List.map_map]
    exact List.mem_append_left _ hover
  · refine List.mem_append_right _ ?_
    cases tail with
    | none => cases hrow
    | some s =>
      have hne : src.liveWal rec.id table ≠ [] := fun hnil => by cases hnone hnil
      have hencode := materialize_some (hsealed hne)
      have hmem : r ∈ dec (streamKey rec.id table) s.bytes := by simpa [rowsOf] using hrow
      rw [hr.decodes _ _ _ hencode] at hmem
      -- the row is one of the tail, so the tail is in range
      have hlive := (List.mem_filter.mp hmem).1
      have hasc := src.liveWal_ascending rec.id table
      have hf := List.head?_eq_some_head hne
      have hl := List.getLast?_eq_some_getLast hne
      have hrange : spec.start ≤ ((src.liveWal rec.id table).getLast hne).ts ∧
          ((src.liveWal rec.id table).head hne).ts ≤ spec.end_ :=
        ⟨hstart.trans (le_last hasc (by rw [hl]; rfl) hlive),
          (first_le hasc (by rw [hf]; rfl) hlive).trans hend⟩
      rw [tailPart_whole hf hl hrange, hsealed hne] at hpart
      rw [← Except.ok.inj hpart]
      exact hrow

/-- **Nothing else is carried** than what the reader returns, in its order. -/
theorem SourceCopied.window_sublist (h : SourceCopied pq spec encoder mint src rec c)
    (hk : spec.keep_columns = none) (hacc : spec.accepts table = true)
    (hrec : rec ∈ src.readSources) {full : List Bytes}
    (hfull : src.streamSegmentsSnapshotted rec.id table encoder = .ok full) :
    ((copiedParts pq spec encoder src rec table).map (·.bytes)).Sublist full := by
  obtain ⟨tail, rfl, hsealed, hnone⟩ := streamSegments_ok hrec hfull
  have hparts := h.parts table
  rw [streamParts_whole hk hacc] at hparts
  obtain ⟨part, hpart, hparts⟩ := Except.bind_eq_ok.mp hparts
  rw [← Except.pure_eq_ok.mp hparts, List.map_append, List.map_map]
  refine List.Sublist.append (List.filter_sublist.map _) ?_
  cases part with
  | none => exact List.nil_sublist _
  | some p =>
    obtain ⟨hne, s, hs, rfl⟩ := tailPart_some hpart
    rw [Except.ok.inj ((hsealed hne).symm.trans hs)]
    exact .refl _

theorem copiedParts_rejected (hacc : ¬spec.accepts table = true) :
    copiedParts pq spec encoder src rec table = [] := by
  rw [copiedParts, streamParts, if_neg hacc]
  rfl

/-! ## As a reader sees it -/

/-- What a reader returns of a source. -/
theorem readSource_ok {s : SourceSegments} (h : src.readSource encoder rec = .ok s) :
    s.labels = rec.identity.labels ∧ s.metadata = rec.identity.metadata ∧
      s.complete = rec.complete ∧ (∀ stream ∈ src.allStreams rec.id, ∃ segs,
        src.streamSegmentsSnapshotted rec.id stream encoder = .ok segs) ∧
      ∀ stream segs, (stream, segs) ∈ s.streams ↔ stream ∈ src.allStreams rec.id ∧
        src.streamSegmentsSnapshotted rec.id stream encoder = .ok segs ∧ segs ≠ [] := by
  unfold Archive.readSource readStreams at h
  obtain ⟨-, -, h⟩ := Except.bind_eq_ok.mp h
  obtain ⟨streams, hstreams, h⟩ := Except.bind_eq_ok.mp h
  obtain ⟨all, hall, hstreams⟩ := Except.bind_eq_ok.mp hstreams
  obtain rfl := Except.pure_eq_ok.mp h
  obtain rfl := Except.pure_eq_ok.mp hstreams
  have hpairs : ∀ stream e, (do
      return (stream, ← src.streamSegmentsSnapshotted rec.id stream encoder)) = Except.ok e →
        e = (stream, (src.streamSegmentsSnapshotted rec.id stream encoder).toOption.getD []) ∧
          src.streamSegmentsSnapshotted rec.id stream encoder = .ok e.2 := by
    intro stream e he
    obtain ⟨segs, hsegs, he⟩ := Except.bind_eq_ok.mp he
    obtain rfl := Except.pure_eq_ok.mp he
    rw [hsegs]
    exact ⟨rfl, rfl⟩
  obtain ⟨rfl, hok⟩ := Except.map_of_mapM_ok (fun stream e he => (hpairs stream e he).1) hall
  refine ⟨rfl, rfl, rfl, fun stream hstream => ⟨_, (hpairs stream _ (hok stream hstream)).2⟩,
    fun stream segs => ?_⟩
  rw [List.mem_filter]
  constructor
  · rintro ⟨hmem, hne⟩
    obtain ⟨stream', hstream, heq⟩ := List.mem_map.mp hmem
    have hsegs := (hpairs stream' _ (hok stream' hstream)).2
    rw [heq] at hsegs
    obtain rfl : stream' = stream := (Prod.mk.inj heq).1
    exact ⟨hstream, hsegs, by simpa using hne⟩
  · rintro ⟨hstream, hsegs, hne⟩
    refine ⟨List.mem_map.mpr ⟨stream, hstream, ?_⟩, by simpa using hne⟩
    rw [hsegs]
    rfl

theorem mem_copiedStreams {stream : String} {segs : List Bytes} :
    (stream, segs) ∈ copiedStreams pq spec encoder src rec ↔ stream ∈ src.allStreams rec.id ∧
      segs = (copiedParts pq spec encoder src rec stream).map (·.bytes) ∧ segs ≠ [] := by
  rw [copiedStreams, List.mem_filter, List.mem_map]
  constructor
  · rintro ⟨⟨stream', hstream, heq⟩, hne⟩
    obtain ⟨rfl, rfl⟩ := Prod.mk.inj heq
    exact ⟨hstream, rfl, by simpa using hne⟩
  · rintro ⟨hstream, rfl, hne⟩
    exact ⟨⟨stream, hstream, rfl⟩, by simpa using hne⟩

/-- What a reader returns of a copy of a window, beside what it returns of the source. -/
structure WindowOf (dec : Decoder) (spec : CopySpec Props) (rec : SourceRow)
    (s s' : SourceSegments) : Prop where
  labels : s'.labels = s.labels
  metadata : s'.metadata = s.metadata.insertAll ((spec.metadata_extra.getD ∅).entries)
  complete : s'.complete = s.complete
  rows : ∀ stream segs, (stream, segs) ∈ s.streams → spec.accepts stream = true →
    ∀ r ∈ rowsOf dec rec.id stream segs, spec.start ≤ r.ts → r.ts ≤ spec.end_ →
      ∃ segs', (stream, segs') ∈ s'.streams ∧ r ∈ rowsOf dec rec.id stream segs'
  segments : ∀ stream segs', (stream, segs') ∈ s'.streams → spec.accepts stream = true ∧
    ∃ segs, (stream, segs) ∈ s.streams ∧ segs'.Sublist segs

theorem SourceCopied.windowOf (h : SourceCopied pq spec encoder mint src rec c)
    (hk : spec.keep_columns = none) (ht : src.Truthful dec) (hr : encoder.ReadBy dec)
    (hrec : rec ∈ src.readSources) {s s' : SourceSegments}
    (hs : src.readSource encoder rec = .ok s) (hs' : s' =
      { labels := rec.identity.labels, metadata := (spec.seed rec).metadata
        complete := rec.complete, streams := copiedStreams pq spec encoder src rec }) :
    WindowOf dec spec rec s s' := by
  obtain ⟨hlabels, hmetadata, hcomplete, hread, hstreams⟩ := readSource_ok hs
  subst hs'
  refine ⟨hlabels.symm, by rw [hmetadata]; rfl, hcomplete.symm, ?_, ?_⟩
  · intro stream segs hmem hacc r hrow hstart hend
    obtain ⟨hlisted, hfull, -⟩ := (hstreams stream segs).mp hmem
    have hrow' := h.window_rows hk hacc ht hr hrec hfull hrow hstart hend
    refine ⟨_, mem_copiedStreams.mpr ⟨hlisted, rfl, fun hnil => ?_⟩, hrow'⟩
    rw [hnil] at hrow'
    cases hrow'
  · intro stream segs' hmem
    obtain ⟨hlisted, rfl, hne⟩ := mem_copiedStreams.mp hmem
    by_cases hacc : spec.accepts stream = true
    · obtain ⟨full, hfull⟩ := hread stream hlisted
      have hsub := h.window_sublist hk hacc hrec hfull
      refine ⟨hacc, full, (hstreams stream full).mpr ⟨hlisted, hfull, ?_⟩, hsub⟩
      rintro rfl
      exact hne (List.sublist_nil.mp hsub)
    · rw [copiedParts_rejected hacc] at hne
      exact absurd rfl hne

/-- The metadata of a copy names the encoder that wrote the source. -/
theorem checkEncoder_seed (hextra : ∀ m ∈ spec.metadata_extra, m.get? keys.ENCODER = none)
    (h : checkEncoder rec.id rec.identity.metadata encoder = .ok ()) (id : Int) :
    checkEncoder id (spec.seed rec).metadata encoder = .ok () := by
  have hget : (spec.seed rec).metadata.get? keys.ENCODER =
      rec.identity.metadata.get? keys.ENCODER := by
    refine OrdMap.get?_insertAll_of_not_mem (fun e he heq => ?_) _
    rcases hm : spec.metadata_extra with _ | m
    · rw [hm] at he
      cases he
    · rw [hm, Option.getD_some] at he
      have hnone := hextra m hm
      rw [← heq, OrdMap.get?_eq_some.mpr he] at hnone
      cases hnone
  have hcheck := checkEncoder_id id h
  unfold checkEncoder at hcheck ⊢
  rwa [hget]

end

/-- **A copy of a window has every row of it.** Whatever strikes it, after a copy of a window with
every column that went through, into any destination, the destination reads as it did and then as
the window: every source has the rows of the window that the source's own reader returns, and no
other segments. The catalog has every segment's span, and the encoder keeps its contract. -/
theorem copySourcesInto_window {Props Writer : Type} (pq : Parquet Props Writer)
    (spec : CopySpec Props) (encoder : SegmentEncoder) (mint : Int → String) (src : ArchiveFile)
    {dst dst' : ArchiveFile} {dec : Decoder} (hk : spec.keep_columns = none)
    (hextra : ∀ m ∈ spec.metadata_extra, m.get? keys.ENCODER = none)
    (ht : src.db.Truthful dec) (hr : encoder.ReadBy dec) (hd : dst.Reached pq) {n : Nat}
    {faults rest : List (Fault SqliteError)}
    (h : copySourcesInto pq spec encoder mint src dst faults = (.ok n, dst', rest))
    {S : List SourceSegments} (hS : src.db.readArchive encoder = .ok S) :
    ∃ S', dst'.db.readArchive encoder = (dst.db.readArchive encoder).map (· ++ S') ∧
      List.Forall₂ (fun e s' => WindowOf dec spec e.1 e.2 s') (src.db.readSources.zip S) S' := by
  obtain ⟨cs, hcs, rfl, hcopied, -⟩ := copySourcesInto_ok pq spec encoder mint src hd.rooted h
  have hb := hcopied.received hd.rooted
  have hall := Except.mapM_eq_ok.mp hcs
  have hreads := Except.mapM_eq_ok.mp hS
  have hlen := hall.length_eq
  let S' := src.db.readSources.map fun rec : SourceRow => (
    { labels := rec.identity.labels, metadata := (spec.seed rec).metadata
      complete := rec.complete
      streams := copiedStreams pq spec encoder src.db rec } : SourceSegments)
  have hadded : (dst.db.inline.addedSources cs).mapM (dst'.db.inline.readSource encoder) =
      .ok S' := by
    refine Except.mapM_eq_ok.mpr (List.forall₂_iff_get.mpr ⟨?_, fun i hi hi' => ?_⟩)
    · simp [S', addedSources, hlen]
    · have hi₁ : i < src.db.readSources.length := by simpa [S'] using hi'
      have hok := sourceCopy_ok (hall.get hi₁ (hlen ▸ hi₁))
      have hread := hok.readSource (hb.new i (hlen ▸ hi₁)) (by
        rw [hok.cols]
        exact checkEncoder_seed hextra hok.checked _)
      simp only [List.get_eq_getElem] at hread ⊢
      simp only [addedSources, List.getElem_mapIdx, S', List.getElem_map]
      exact hread
  refine ⟨S', ?_, List.forall₂_iff_get.mpr ⟨?_, fun i hi hi' => ?_⟩⟩
  · rw [← readArchive_inline, hb.readArchive, hadded, readArchive_inline]
    cases dst.db.readArchive encoder <;> rfl
  · simp [S', hreads.length_eq]
  · have hi₁ : i < src.db.readSources.length := by simpa [S'] using hi'
    have hok := sourceCopy_ok (hall.get hi₁ (hlen ▸ hi₁))
    have hs := hreads.get hi₁ (hreads.length_eq ▸ hi₁)
    simp only [List.get_eq_getElem, List.getElem_zip] at hs hok ⊢
    exact hok.windowOf hk ht hr (List.getElem_mem _) hs (by simp [S'])

/-- A window from the row that is sealed to the first of the live ones, of every stream. -/
def firstRowsSpec : CopySpec (Option (List KeyValue)) :=
  { CopySpec.everything _ with start := 0, end_ := 1, metadata_extra := some (.ofList [("by", "a")]) }

def firstRowsCopied : ArchiveFile :=
  (copySourcesInto (shelfParquet []) firstRowsSpec schemaEncoder (fun _ => "minted")
    { db := liveAfterSealed, documents := .create } .create []).2.1

theorem copySourcesInto_window_first :
    ∃ S', firstRowsCopied.db.readArchive schemaEncoder =
        ((Archive.create .table).readArchive schemaEncoder).map (· ++ S') ∧
      List.Forall₂ (fun e s' => WindowOf sealedDecoder firstRowsSpec e.1 e.2 s')
        (liveAfterSealed.readSources.zip
          [{ labels := ∅, metadata := ∅, complete := false
             streams := [("cpu", [[9], [1, 2]])] }]) S' :=
  copySourcesInto_window (shelfParquet []) firstRowsSpec schemaEncoder (fun _ => "minted")
    { db := liveAfterSealed, documents := .create } rfl
    (by
      intro m hm
      obtain rfl := Option.some.inj hm
      rfl)
    liveAfterSealed_truthful schemaEncoder_readBy_sealed (.create .table)
    (Prod.ext (by decide +kernel) (Prod.ext rfl (by decide +kernel)) :
      copySourcesInto (shelfParquet []) firstRowsSpec schemaEncoder (fun _ => "minted")
        { db := liveAfterSealed, documents := .create } .create [] = (.ok 1, firstRowsCopied, []))
    (by decide +kernel)

/-! ## Some columns -/

/-- What becomes of a segment where columns are trimmed: it is dropped where no column that is kept
carries data, and otherwise it is projected. -/
def TrimmedTo {Props Writer : Type} (pq : Parquet Props Writer) (keep : ColumnFilter)
    (props : Props) (bytes : Bytes) (out : Option Bytes) : Prop :=
  ∃ f, pq.openFile bytes = .ok f ∧
    (out = none ↔ ∀ g ∈ f.schema.fields, keep.keep g → keep.is_data g = false) ∧
    ∀ bytes' ∈ out, Projects pq keep props f bytes'

/-- The spec without a column filter. -/
def CopySpec.untrimmed {Props : Type} (spec : CopySpec Props) : CopySpec Props :=
  { spec with keep_columns := none }

/-- The parts that are left, each with the catalog facts it had and no index. -/
def trimmedParts (ps : List Part) (outs : List (Option Bytes)) : List Part :=
  (ps.zip outs).filterMap fun e => e.2.map fun bytes =>
    { seg_meta := e.1.seg_meta, bytes, index := none }

section

variable {Props Writer : Type} {pq : Parquet Props Writer} {spec : CopySpec Props}
  {encoder : SegmentEncoder} {mint : Int → String} {src : Archive} {rec : SourceRow}
  {table : String} {keep : ColumnFilter}

theorem segmentParts_trim (hpq : pq.RoundTrips) (hrect : pq.Rectangular)
    (hmeta : pq.KeepsMetadata) : ∀ {ps : List Part} {kept : List (Option Part)},
      ps.mapM (fun p => segmentPart pq spec (some keep) p.seg_meta p.bytes p.index) = .ok kept →
        ∃ outs, List.Forall₂ (TrimmedTo pq keep (spec.writer_props.getD pq.writer_props))
          (ps.map (·.bytes)) outs ∧ kept.reduceOption = trimmedParts ps outs
  | [], kept, h => by
      rw [List.mapM_nil] at h
      obtain rfl := Except.pure_eq_ok.mp h
      exact ⟨[], .nil, rfl⟩
  | p :: ps, kept, h => by
      rw [List.mapM_cons] at h
      obtain ⟨part, hpart, h⟩ := Except.bind_eq_ok.mp h
      obtain ⟨rest, hrest, h⟩ := Except.bind_eq_ok.mp h
      obtain rfl := Except.pure_eq_ok.mp h
      obtain ⟨outs, hall, hkept⟩ := segmentParts_trim hpq hrect hmeta hrest
      obtain ⟨t, ht, hpart⟩ := Except.bind_eq_ok.mp hpart
      obtain rfl := Except.pure_eq_ok.mp hpart
      obtain ⟨out, hout, ht⟩ := Except.bind_eq_ok.mp ht
      obtain rfl := Except.pure_eq_ok.mp ht
      refine ⟨out :: outs, .cons (projectSegmentColumns_selects hpq hrect hmeta hout) hall, ?_⟩
      cases out with
      | none => exact hkept
      | some bytes => exact congrArg (List.cons _) hkept

theorem tailPart_trim {tail : List WalRow} {keep_columns : Option ColumnFilter} :
    tailPart pq spec encoder keep_columns rec table tail = do
      match ← tailPart pq spec encoder none rec table tail with
      | some p => segmentPart pq spec keep_columns p.seg_meta p.bytes p.index
      | none => return none := by
  unfold tailPart
  split
  · split
    · rfl
    · rcases materialize encoder { source_id := rec.id, source_uuid := rec.uuid, stream := table }
        tail with e | segment
      · rfl
      · cases segment <;> rfl
  · rfl

/-- **A stream of a trimmed copy has the parts of a whole one, trimmed.** -/
theorem streamParts_trim (hpq : pq.RoundTrips) (hrect : pq.Rectangular) (hmeta : pq.KeepsMetadata)
    (hk : spec.keep_columns = some keep) (hprojects : keep.projects table = true)
    (hacc : spec.accepts table = true) {parts whole : List Part}
    (h : streamParts pq spec encoder src rec table = .ok parts)
    (hwhole : streamParts pq spec.untrimmed encoder src rec table = .ok whole) :
    ∃ outs, List.Forall₂ (TrimmedTo pq keep (spec.writer_props.getD pq.writer_props))
      (whole.map (·.bytes)) outs ∧ parts = trimmedParts whole outs := by
  have hacc' : spec.untrimmed.accepts table = true := hacc
  rw [streamParts_whole rfl hacc'] at hwhole
  obtain ⟨tail, htail, hwhole⟩ := Except.bind_eq_ok.mp hwhole
  replace htail : tailPart pq spec encoder none rec table (src.liveWal rec.id table) = .ok tail :=
    htail
  obtain rfl := Except.pure_eq_ok.mp hwhole
  have hfilter : spec.keep_columns.filter (fun k => k.projects table) = some keep := by
    rw [hk]
    exact if_pos hprojects
  unfold streamParts at h
  rw [if_pos hacc, hfilter] at h
  obtain ⟨kept, hkept, h⟩ := Except.bind_eq_ok.mp h
  obtain ⟨last, hlast, h⟩ := Except.bind_eq_ok.mp h
  obtain rfl := Except.pure_eq_ok.mp h
  rw [tailPart_trim, htail] at hlast
  have hsealed : ((src.segmentsOverlapping rec.id table spec.start spec.end_).map
      SegmentRow.part).mapM (fun p => segmentPart pq spec (some keep) p.seg_meta p.bytes p.index) =
        .ok kept := by
    rw [List.mapM_map]
    exact hkept
  -- the tail is one part more, or none
  have hall : ∃ kept', ((src.segmentsOverlapping rec.id table spec.start spec.end_).map
      SegmentRow.part ++ tail.toList).mapM
        (fun p => segmentPart pq spec (some keep) p.seg_meta p.bytes p.index) = .ok kept' ∧
      kept'.reduceOption = kept.reduceOption ++ last.toList := by
    cases tail with
    | none =>
      obtain rfl : none = last := Except.ok.inj hlast
      exact ⟨kept, by rw [Option.toList_none, List.append_nil, hsealed], by simp⟩
    | some p =>
      replace hlast : segmentPart pq spec (some keep) p.seg_meta p.bytes p.index = .ok last := hlast
      refine ⟨kept ++ [last], ?_, reduceOption_concat kept last⟩
      rw [List.mapM_append, hsealed, Option.toList_some, List.mapM_cons, hlast]
      rfl
  obtain ⟨kept', hkept', hreduce⟩ := hall
  obtain ⟨outs, houts, htrimmed⟩ := segmentParts_trim hpq hrect hmeta hkept'
  exact ⟨outs, houts, hreduce.symm.trans htrimmed⟩

end

/-- The segments that are left of a stream, numbered from 0. -/
def trimmedSegments (whole : List SegmentRow) (outs : List (Option Bytes)) : List SegmentRow :=
  ((whole.zip outs).filterMap fun e => e.2.map fun bytes => (e.1.seg_meta, bytes)).mapIdx
    fun seq e => { seq, seg_meta := e.1, bytes := e.2, caller_index := none }

/-- The same of the parts that the segments were inserted for. -/
theorem trimmedSegments_eq (f : Nat → Part → SegmentRow) (hf : ∀ seq p, (f seq p).seg_meta = p.seg_meta)
    (layout : IndexLayout) (ps : List Part) (outs : List (Option Bytes)) :
    trimmedSegments (ps.mapIdx f) outs = (trimmedParts ps outs).mapIdx fun seq p =>
      { seq, seg_meta := p.seg_meta, bytes := p.bytes
        caller_index := if layout = .column then p.index else none } := by
  have hfacts : (ps.mapIdx f).map (·.seg_meta) = ps.map (·.seg_meta) := by
    rw [map_mapIdx]
    simp only [hf]
    exact mapIdx_const _ _
  have hrows : ((ps.mapIdx f).zip outs).filterMap (fun e => e.2.map fun bytes =>
      (e.1.seg_meta, bytes)) = (ps.zip outs).filterMap fun e => e.2.map fun bytes =>
        (e.1.seg_meta, bytes) := by
    have hzip : ∀ {α : Type} (m : α → SegmentMeta) (as : List α),
        (as.zip outs).filterMap (fun e => e.2.map fun bytes => (m e.1, bytes)) =
          ((as.map m).zip outs).filterMap fun e => e.2.map fun bytes => (e.1, bytes) := by
      intro α m as
      rw [List.zip_map_left, List.filterMap_map]
      rfl
    rw [hzip, hzip, hfacts]
  have hparts : trimmedParts ps outs = ((ps.zip outs).filterMap fun e => e.2.map fun bytes =>
      (e.1.seg_meta, bytes)).map fun e => { seg_meta := e.1, bytes := e.2, index := none } := by
    rw [trimmedParts, List.map_filterMap]
    refine List.filterMap_congr fun e _ => ?_
    rw [Option.map_map]
    rfl
  rw [trimmedSegments, hrows, hparts]
  refine List.ext_getElem (by simp) fun i h₁ h₂ => ?_
  simp

/-- **A trimmed copy is a whole copy, trimmed.** Take two copies of one source, of which one trims
columns and the other none. In each stream that is trimmed, the one has the segments of the other
that have a data column left, in their order and numbered from 0: each with the same rows, of which
only the cells of the kept columns are there, with the file's metadata and the catalog facts it had,
and with no index. -/
theorem copySourcesInto_trims {Props Writer : Type} (pq : Parquet Props Writer)
    (hpq : pq.RoundTrips) (hrect : pq.Rectangular) (hmeta : pq.KeepsMetadata)
    (spec : CopySpec Props) {keep : ColumnFilter} (hk : spec.keep_columns = some keep)
    (encoder : SegmentEncoder) (mint : Int → String) (src : ArchiveFile)
    {dst dst' dst₀ dst₀' : ArchiveFile} (hd : dst.Reached pq) (hd₀ : dst₀.Reached pq) {n n₀ : Nat}
    {faults rest faults₀ rest₀ : List (Fault SqliteError)}
    (h : copySourcesInto pq spec encoder mint src dst faults = (.ok n, dst', rest))
    (h₀ : copySourcesInto pq spec.untrimmed encoder mint src dst₀ faults₀ = (.ok n₀, dst₀', rest₀))
    (i : Nat) (hi : i < src.db.readSources.length) (stream : String)
    (hacc : spec.accepts stream = true) (hprojects : keep.projects stream = true) :
    ∃ outs, List.Forall₂ (TrimmedTo pq keep (spec.writer_props.getD pq.writer_props))
        ((dst₀'.db.readSegments (dst₀.db.nextSourceId + i) stream).map (·.bytes)) outs ∧
      dst'.db.readSegments (dst.db.nextSourceId + i) stream =
        trimmedSegments (dst₀'.db.readSegments (dst₀.db.nextSourceId + i) stream) outs := by
  obtain ⟨cs, hcs, rfl, hcopied, -⟩ := copySourcesInto_ok pq spec encoder mint src hd.rooted h
  obtain ⟨cs₀, hcs₀, rfl, hcopied₀, -⟩ :=
    copySourcesInto_ok pq spec.untrimmed encoder mint src hd₀.rooted h₀
  have hall := Except.mapM_eq_ok.mp hcs
  have hall₀ := Except.mapM_eq_ok.mp hcs₀
  have hok := sourceCopy_ok (hall.get hi (hall.length_eq ▸ hi))
  have hok₀ := sourceCopy_ok (hall₀.get hi (hall₀.length_eq ▸ hi))
  obtain ⟨outs, houts, hparts⟩ := streamParts_trim hpq hrect hmeta hk hprojects hacc
    (hok.parts stream) (hok₀.parts stream)
  -- either destination lists what its copy inserted
  have hrows := hok.readSegments ((hcopied.received hd.rooted).new i (hall.length_eq ▸ hi)) stream
  have hrows₀ := hok₀.readSegments
    ((hcopied₀.received hd₀.rooted).new i (hall₀.length_eq ▸ hi)) stream
  have hbytes : (dst₀'.db.readSegments (dst₀.db.nextSourceId + i) stream).map (·.bytes) =
      (copiedParts pq spec.untrimmed encoder src.db src.db.readSources[i] stream).map (·.bytes) := by
    refine (congrArg _ hrows₀).trans ?_
    rw [map_mapIdx]
    exact mapIdx_const _ _
  refine ⟨outs, hbytes ▸ houts, hrows.trans ?_⟩
  refine Eq.trans ?_ (congrArg (trimmedSegments · outs) hrows₀).symm
  refine Eq.trans ?_ (trimmedSegments_eq _ (fun _ _ => rfl) dst'.db.inline.layout _ outs).symm
  exact congrArg (List.mapIdx _) hparts

/-- A file of two columns, one of the second alone, and what the first is when it is projected. -/
def trimShelf : List (Schema × List Row) :=
  [({ fields := [column "a" true, column "b" true], metadata := ∅ }, [byteRow 7 ++ [.null]]),
    ({ fields := [column "b" true], metadata := ∅ }, [byteRow 8]),
    ({ fields := [column "a" true], metadata := ∅ }, [byteRow 7])]

/-- Keep one column. -/
def firstColumn : ColumnFilter where
  keep f := f.name = "a"
  is_data _ := true
  projects _ := true

def firstColumnSpec : CopySpec (Option (List KeyValue)) :=
  { CopySpec.everything _ with keep_columns := some firstColumn }

/-- A segment of the second column, and one of both. -/
def twoColumnFile : ArchiveFile where
  db := (shelved [[0], []]).db
  documents := .create

/-- A new file after a copy of that. -/
def twoColumnCopy (spec : CopySpec (Option (List KeyValue))) : ArchiveFile :=
  (copySourcesInto (shelfParquet trimShelf) spec schemaEncoder (fun _ => "minted") twoColumnFile
    .create []).2.1

theorem copySourcesInto_trims_first :
    ∃ outs, List.Forall₂ (TrimmedTo (shelfParquet trimShelf) firstColumn none)
        (((twoColumnCopy firstColumnSpec.untrimmed).db.readSegments 1 "cpu").map (·.bytes)) outs ∧
      (twoColumnCopy firstColumnSpec).db.readSegments 1 "cpu" =
        trimmedSegments ((twoColumnCopy firstColumnSpec.untrimmed).db.readSegments 1 "cpu") outs :=
  copySourcesInto_trims (shelfParquet trimShelf) (shelfParquet_roundTrips _)
    (shelfParquet_rectangular (by decide)) (shelfParquet_keepsMetadata _) firstColumnSpec rfl
    schemaEncoder (fun _ => "minted") twoColumnFile (.create .table) (.create .table)
    (Prod.ext (by decide +kernel) (Prod.ext rfl (by decide +kernel)) :
      copySourcesInto (shelfParquet trimShelf) firstColumnSpec schemaEncoder (fun _ => "minted")
        twoColumnFile .create [] = (.ok 1, twoColumnCopy firstColumnSpec, []))
    (Prod.ext (by decide +kernel) (Prod.ext rfl (by decide +kernel)) :
      copySourcesInto (shelfParquet trimShelf) firstColumnSpec.untrimmed schemaEncoder
        (fun _ => "minted") twoColumnFile .create [] =
          (.ok 1, twoColumnCopy firstColumnSpec.untrimmed, []))
    0 (by decide +kernel) "cpu" rfl rfl

end Dendro
