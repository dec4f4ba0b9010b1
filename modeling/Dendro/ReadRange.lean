import Dendro.Read
import Dendro.SegmentContract
import Dendro.Writer.Conserve

/-!
# A window of a stream

The ranged reader carries whole segments, and trims the tail to the window before the encoder
sees it. What an encoder can make of a row may depend on the rows before it, so the trimmed
tail can decode to less than the whole tail does: the two readers agree on a window exactly
when the encoder keeps the same rows of it either way. The sealed half never differs.
-/

namespace Dendro

/-- The rows that an encoder keeps of those it is given. -/
def SegmentEncoder.kept (encoder : SegmentEncoder) (ctx : EncodeContext) (rows : List WalRow) :
    List WalRow :=
  match encoder.encode ctx rows with
  | .ok (some s) => rows.filter fun r => s.first_ts ≤ r.ts && r.ts ≤ s.last_ts
  | _ => []

/-- An encoder that honours its contract, and a way to read its segments: a segment decodes to
the rows that its span covers. -/
structure SegmentEncoder.ReadBy (encoder : SegmentEncoder) (dec : Decoder) : Prop where
  honours : encoder.Honours
  decodes : ∀ ctx rows s, encoder.encode ctx rows = .ok (some s) →
    dec (streamKey ctx.source_id ctx.stream) s.bytes =
      rows.filter fun r => s.first_ts ≤ r.ts && r.ts ≤ s.last_ts

/-- Every segment holds rows within the span that the catalog has for it. -/
def Archive.Truthful (dec : Decoder) (a : Archive) : Prop :=
  ∀ k, ∀ c ∈ a.runs k, ∀ r ∈ dec k c.bytes, c.first ≤ r.ts ∧ r.ts ≤ c.last

/-- The rows of some segments of a stream. -/
def rowsOf (dec : Decoder) (source_id : Int) (stream : String) (segments : List Bytes) :
    List WalRow :=
  segments.flatMap (dec (streamKey source_id stream))

section

variable {a : Archive} {dec : Decoder} {encoder : SegmentEncoder} {source_id : Int}
  {stream : String} {uuid : Option String} {rows : List WalRow}

/-- A tail materializes to the rows that the encoder keeps of it. -/
theorem materializeTail_rows (hr : encoder.ReadBy dec) (hs : Ascending rows)
    (huuid : a.sourceUuid source_id = .ok uuid) (stream : String) :
    ∃ tail, a.materializeTail source_id stream encoder rows = .ok tail ∧
      rowsOf dec source_id stream (tail.toList.map (·.bytes)) =
        encoder.kept ⟨source_id, uuid, stream⟩ rows := by
  unfold Archive.materializeTail
  by_cases hne : rows = []
  · subst hne
    refine ⟨none, rfl, ?_⟩
    unfold SegmentEncoder.kept
    split <;> rfl
  · obtain ⟨answer, hanswer⟩ := hr.honours.answers ⟨source_id, uuid, stream⟩ [] rows hs
    have htail := hr.honours.materializeAfter_answer (List.nil_append rows ▸ hs) hne hanswer
    refine ⟨answer, ?_, ?_⟩
    · rw [List.isEmpty_eq_false_iff.mpr hne, huuid]
      exact htail
    · have hencode : encoder.encode ⟨source_id, uuid, stream⟩ rows = .ok answer := hanswer
      unfold SegmentEncoder.kept
      rw [hencode]
      cases answer with
      | none => rfl
      | some s =>
          have hdec := hr.decodes _ _ _ hencode
          unfold rowsOf
          simpa using hdec

/-- The sealed segments of a stream, then the tail's if it has one. -/
theorem spliced_rows (segments : List Bytes) (tail : Option Segment) :
    rowsOf dec source_id stream (segments ++ tail.toList.map (·.bytes)) =
      rowsOf dec source_id stream segments ++
        rowsOf dec source_id stream (tail.toList.map (·.bytes)) :=
  List.flatMap_append

/-- What the full reader returns: the rows of the sealed segments, then what the encoder keeps
of the tail. -/
theorem streamSegments_rows (hr : encoder.ReadBy dec)
    (hcheck : a.checkEncoderOf source_id encoder = .ok ())
    (huuid : a.sourceUuid source_id = .ok uuid) (stream : String) :
    ∃ full, a.streamSegments source_id stream encoder = .ok full ∧
      rowsOf dec source_id stream full =
        rowsOf dec source_id stream ((a.readSegments source_id stream).map (·.bytes)) ++
          encoder.kept ⟨source_id, uuid, stream⟩ (a.liveWal source_id stream) := by
  obtain ⟨tail, htail, hrows⟩ := materializeTail_rows hr
    (a.liveWal_ascending source_id stream) huuid stream
  refine ⟨(a.readSegments source_id stream).map (·.bytes) ++ tail.toList.map (·.bytes), ?_, ?_⟩
  · unfold Archive.streamSegments Archive.streamSegmentsSnapshotted
    rw [hcheck, htail]
    cases tail with
    | none => exact congrArg Except.ok (List.append_nil _).symm
    | some tail => rfl
  · rw [spliced_rows, hrows]

/-- The live rows of a window. -/
def Archive.liveWithin (a : Archive) (source_id : Int) (stream : String) (start end_ : Int64) :
    List WalRow :=
  (a.liveWal source_id stream).filter fun r => r.ts ≥ start && r.ts ≤ end_

/-- What the ranged reader returns: the rows of the segments that overlap the window, then what
the encoder keeps of the window's own live rows. -/
theorem streamRange_rows (hr : encoder.ReadBy dec)
    (hcheck : a.checkEncoderOf source_id encoder = .ok ())
    (huuid : a.sourceUuid source_id = .ok uuid) (stream : String) (start end_ : Int64) :
    ∃ ranged, a.streamRange source_id stream encoder start end_ = .ok ranged ∧
      rowsOf dec source_id stream ranged =
        rowsOf dec source_id stream
            ((a.segmentsOverlapping source_id stream start end_).map (·.bytes)) ++
          encoder.kept ⟨source_id, uuid, stream⟩ (a.liveWithin source_id stream start end_) := by
  have hasc : Ascending (a.liveWithin source_id stream start end_) :=
    (a.liveWal_ascending source_id stream).sublist List.filter_sublist
  obtain ⟨tail, htail, hrows⟩ := materializeTail_rows hr hasc huuid stream
  refine ⟨(a.segmentsOverlapping source_id stream start end_).map (·.bytes) ++
    tail.toList.map (·.bytes), ?_, ?_⟩
  · unfold Archive.streamRange
    unfold Archive.liveWithin at htail
    dsimp only
    rw [hcheck, htail]
    cases tail with
    | none => exact congrArg Except.ok (List.append_nil _).symm
    | some tail => rfl
  · rw [spliced_rows, hrows]

/-- A source that is not there has no tail to materialize: either there are no live rows, and
both readers list segments alone, or the full reader fails. -/
theorem streamSegments_noSource {e : Error} (huuid : a.sourceUuid source_id = .error e)
    {full : List Bytes} (hfull : a.streamSegments source_id stream encoder = .ok full)
    (start end_ : Int64) : full = (a.readSegments source_id stream).map (·.bytes) ∧
      a.streamRange source_id stream encoder start end_ =
        .ok ((a.segmentsOverlapping source_id stream start end_).map (·.bytes)) := by
  unfold Archive.streamSegments Archive.streamSegmentsSnapshotted at hfull
  obtain ⟨⟨⟩, hcheck, hfull⟩ := Except.bind_eq_ok.mp hfull
  obtain ⟨tail, htail, hfull⟩ := Except.bind_eq_ok.mp hfull
  unfold Archive.materializeTail at htail
  by_cases hlive : a.liveWal source_id stream = []
  · rw [hlive] at htail
    obtain rfl : none = tail := Except.ok.inj htail
    refine ⟨(Except.ok.inj hfull).symm, ?_⟩
    unfold Archive.streamRange Archive.materializeTail
    rw [hcheck, hlive]
    rfl
  · rw [List.isEmpty_eq_false_iff.mpr hlive, huuid] at htail
    exact absurd htail (by simp)

/-- **The sealed half of a window is the same for both readers.** -/
theorem overlapping_rows (ht : a.Truthful dec) {start end_ : Int64} {r : WalRow}
    (hr : r ∈ rowsOf dec source_id stream ((a.readSegments source_id stream).map (·.bytes)))
    (hstart : start ≤ r.ts) (hend : r.ts ≤ end_) :
    r ∈ rowsOf dec source_id stream
      ((a.segmentsOverlapping source_id stream start end_).map (·.bytes)) := by
  obtain ⟨bytes, hbytes, hmem⟩ := List.mem_flatMap.mp hr
  obtain ⟨g, hg, rfl⟩ := List.mem_map.mp hbytes
  refine List.mem_flatMap.mpr ⟨g.bytes, List.mem_map.mpr ⟨g, ?_, rfl⟩, hmem⟩
  obtain ⟨e, he, rfl⟩ := List.mem_map.mp hg
  have hruns : e.2 ∈ a.runs (streamKey source_id stream) := List.mem_map.mpr ⟨e, he, rfl⟩
  obtain ⟨hfirst, hlast⟩ := ht _ e.2 hruns r hmem
  exact List.mem_filter.mpr ⟨hg, decide_eq_true ⟨hstart.trans hlast, hfirst.trans hend⟩⟩

/-- No row of a segment is a live one. -/
theorem sealed_not_live (ht : a.Truthful dec) {r : WalRow} (start end_ : Int64)
    (hr : r ∈ rowsOf dec source_id stream
      ((a.segmentsOverlapping source_id stream start end_).map (·.bytes))) :
    r ∉ a.liveWal source_id stream := by
  intro hlive
  obtain ⟨bytes, hbytes, hmem⟩ := List.mem_flatMap.mp hr
  obtain ⟨g, hg, rfl⟩ := List.mem_map.mp hbytes
  obtain ⟨e, he, rfl⟩ := List.mem_map.mp (List.mem_filter.mp hg).1
  have hruns : e.2 ∈ a.runs (streamKey source_id stream) := List.mem_map.mpr ⟨e, he, rfl⟩
  obtain ⟨-, hlast⟩ := ht _ e.2 hruns r hmem
  obtain ⟨x, hx, rfl⟩ := List.mem_map.mp hlive
  have hbeyond := Archive.isLive_iff.mp (List.mem_filter.mp hx).2 e.2 hruns
  exact absurd hlast (not_le.mpr hbeyond)

theorem kept_subset {ctx : EncodeContext} {r : WalRow} (h : r ∈ encoder.kept ctx rows) : r ∈ rows := by
  unfold SegmentEncoder.kept at h
  split at h
  · exact (List.mem_filter.mp h).1
  · exact absurd h (by simp)

/-- **The readers agree on a window exactly when the encoder does.** Every row of the window
that the full read returns is in the ranged read, if and only if the encoder keeps, of the
window's live rows alone, every row of the window that it keeps of the whole tail. -/
theorem streamRange_agrees_iff (a : Archive) {dec : Decoder} (ht : a.Truthful dec)
    {encoder : SegmentEncoder} (hr : encoder.ReadBy dec) (source_id : Int) (stream : String)
    (start end_ : Int64) :
    (∀ full, a.streamSegments source_id stream encoder = .ok full →
      ∃ ranged, a.streamRange source_id stream encoder start end_ = .ok ranged ∧
        ∀ r ∈ rowsOf dec source_id stream full, start ≤ r.ts → r.ts ≤ end_ →
          r ∈ rowsOf dec source_id stream ranged) ↔
      ∀ uuid, a.checkEncoderOf source_id encoder = .ok () → a.sourceUuid source_id = .ok uuid →
        ∀ r ∈ encoder.kept ⟨source_id, uuid, stream⟩ (a.liveWal source_id stream),
          start ≤ r.ts → r.ts ≤ end_ →
            r ∈ encoder.kept ⟨source_id, uuid, stream⟩ (a.liveWithin source_id stream start end_) := by
  constructor
  · intro h uuid hcheck huuid r hkept hstart hend
    obtain ⟨full, hfull, hrows⟩ := streamSegments_rows hr hcheck huuid stream
    obtain ⟨ranged, hranged, hrows'⟩ := streamRange_rows hr hcheck huuid stream start end_
    obtain ⟨ranged', hranged', hmem⟩ := h full hfull
    obtain rfl : ranged = ranged' := Except.ok.inj (hranged.symm.trans hranged')
    have hin := hmem r (hrows ▸ List.mem_append_right _ hkept) hstart hend
    rw [hrows'] at hin
    refine (List.mem_append.mp hin).resolve_left fun hsealed => ?_
    exact sealed_not_live ht start end_ hsealed (kept_subset hkept)
  · intro h full hfull
    rcases huuid : a.sourceUuid source_id with e | uuid
    · obtain ⟨rfl, hranged⟩ := streamSegments_noSource huuid hfull start end_
      exact ⟨_, hranged, fun r hmem hstart hend => overlapping_rows ht hmem hstart hend⟩
    · obtain ⟨⟨⟩, hcheck, -⟩ := Except.bind_eq_ok.mp hfull
      obtain ⟨full', hfull', hrows⟩ := streamSegments_rows hr hcheck huuid stream
      obtain rfl : full = full' := Except.ok.inj (hfull.symm.trans hfull')
      obtain ⟨ranged, hranged, hrows'⟩ := streamRange_rows hr hcheck huuid stream start end_
      refine ⟨ranged, hranged, fun r hmem hstart hend => ?_⟩
      rw [hrows] at hmem
      rw [hrows']
      rcases List.mem_append.mp hmem with hsealed | hkept
      · exact List.mem_append_left _ (overlapping_rows ht hsealed hstart hend)
      · exact List.mem_append_right _ (h uuid hcheck huuid r hkept hstart hend)

end

/-! ### Two rows that decode together -/

/-- The first carries the schema of the second. -/
def schemaRow : WalRow := { stream := "cpu", ts := 1, wall_offset := 0, row := [1] }

def laterRow : WalRow := { stream := "cpu", ts := 2, wall_offset := 0, row := [2] }

/-- Makes a segment of the two rows, and drops the second where the first is not before it. -/
def schemaEncoder : SegmentEncoder where
  encode _ rows :=
    if rows = [schemaRow, laterRow] then
      .ok (some { bytes := [1, 2], rows := 2, first_ts := 1, last_ts := 2, index := none })
    else .ok none
  version := none
  encode_after _ _ _ := .ok none

/-- Reads the segments of `schemaEncoder`. -/
def schemaDecoder : Decoder := fun _ _ => [schemaRow, laterRow]

theorem schemaEncoder_some {ctx : EncodeContext} {rows : List WalRow} {s : Segment}
    (h : schemaEncoder.encode ctx rows = .ok (some s)) : rows = [schemaRow, laterRow] ∧
      s = { bytes := [1, 2], rows := 2, first_ts := 1, last_ts := 2, index := none } := by
  unfold schemaEncoder at h
  dsimp only at h
  split at h
  · rename_i hrows
    injection h with h
    exact ⟨hrows, (Option.some.inj h).symm⟩
  · injection h with h
    exact absurd h (by simp)

/-- It is read by whatever reads the one segment it makes. -/
theorem schemaEncoder_readBy_of {dec : Decoder}
    (hdec : ∀ k, dec k [1, 2] = [schemaRow, laterRow]) : schemaEncoder.ReadBy dec where
  honours :=
    { answers := by
        intro ctx before rows _
        unfold SegmentEncoder.answer schemaEncoder
        dsimp only
        split
        · split <;> exact ⟨_, rfl⟩
        · exact ⟨_, rfl⟩
      spans := by
        intro ctx before rows s _ h
        unfold SegmentEncoder.answer at h
        split at h
        · obtain ⟨rfl, rfl⟩ := schemaEncoder_some h
          exact ⟨[], [schemaRow, laterRow], [], rfl, rfl, rfl, rfl⟩
        · unfold schemaEncoder at h
          injection h with h
          exact absurd h (by simp) }
  decodes := by
    intro ctx rows s h
    obtain ⟨rfl, rfl⟩ := schemaEncoder_some h
    have hall : ([schemaRow, laterRow].filter fun r => 1 ≤ r.ts && r.ts ≤ 2) =
        [schemaRow, laterRow] := by decide
    exact (hdec _).trans hall.symm

theorem schemaEncoder_readBy : schemaEncoder.ReadBy schemaDecoder :=
  schemaEncoder_readBy_of fun _ => rfl

/-- A source with nothing to it. -/
def bareSource : SourceCols where
  identity := { labels := ∅, metadata := ∅, clock_anchor_wall_ns := 0 }
  uuid := none
  complete := false
  heartbeat := none
  heartbeat_interval_ns := none

/-- An archive whose one stream has the two rows, none of them sealed. -/
def twoLiveRows : Archive where
  layout := .table
  sources := .ofList [(1, bareSource)]
  segments := ∅
  segment_indexes := ∅
  wal := .ofList ([schemaRow, laterRow].map fun r => (toLex (streamKey 1 r.stream, r.ts), r.cols))
  clock_offsets := ∅
  caller_rows := []

theorem twoLiveRows_truthful : twoLiveRows.Truthful schemaDecoder := by
  intro k c hc
  obtain ⟨seq, hseq⟩ := Archive.mem_runs.mp hc
  unfold Archive.catalog at hseq
  rw [OrdMap.get?_group] at hseq
  exact absurd hseq (by simp [twoLiveRows])

/-- A row that was sealed before the two came. -/
def sealedRow : WalRow := { stream := "cpu", ts := 0, wall_offset := 0, row := [0] }

/-- Reads its segment as well. -/
def sealedDecoder : Decoder := fun k bytes => if bytes = [9] then [sealedRow] else schemaDecoder k bytes

theorem schemaEncoder_readBy_sealed : schemaEncoder.ReadBy sealedDecoder :=
  schemaEncoder_readBy_of fun _ => rfl

/-- The two rows after a segment of that row. -/
def liveAfterSealed : Archive :=
  { twoLiveRows with
    segments := (∅ : OrdMap _ _).insert (toLex (streamKey 1 "cpu", 0))
      { seg_meta := { rows := 1, first_ts := 0, last_ts := 0 }, bytes := [9], caller_index := none } }

theorem liveAfterSealed_truthful : liveAfterSealed.Truthful sealedDecoder := by
  intro k c hc r hr
  obtain ⟨seq, hseq⟩ := Archive.mem_runs.mp hc
  unfold Archive.catalog at hseq
  rw [OrdMap.get?_group] at hseq
  have hget : liveAfterSealed.segments.get? (toLex (k, seq)) =
      if toLex (k, seq) = toLex (streamKey 1 "cpu", 0) then some
        { seg_meta := { rows := 1, first_ts := 0, last_ts := 0 }, bytes := [9], caller_index := none }
      else none := OrdMap.get?_insert _ _ _ _
  rw [hget] at hseq
  obtain ⟨-, hc⟩ := Option.ite_none_right_eq_some.mp hseq
  obtain rfl := Option.some.inj hc
  obtain rfl : r = sealedRow := by simpa [sealedDecoder] using hr
  decide

theorem streamRange_agrees_iff_whole :
    ∃ ranged, liveAfterSealed.streamRange 1 "cpu" schemaEncoder 0 5 = .ok ranged ∧
      ∀ r ∈ rowsOf sealedDecoder 1 "cpu" [[9], [1, 2]], 0 ≤ r.ts → r.ts ≤ 5 →
        r ∈ rowsOf sealedDecoder 1 "cpu" ranged := by
  have hagree := (streamRange_agrees_iff liveAfterSealed liveAfterSealed_truthful
    schemaEncoder_readBy_sealed 1 "cpu" 0 5).mpr fun uuid _ huuid => by
      obtain rfl : none = uuid := Except.ok.inj huuid
      decide
  exact hagree [[9], [1, 2]] (by decide)

/-- The window of the second row alone: the full read returns it, the ranged read nothing. -/
theorem streamRange_loses_row :
    schemaEncoder.ReadBy schemaDecoder ∧ twoLiveRows.Truthful schemaDecoder ∧
      twoLiveRows.streamSegments 1 "cpu" schemaEncoder = .ok [[1, 2]] ∧
      laterRow ∈ rowsOf schemaDecoder 1 "cpu" [[1, 2]] ∧ 2 ≤ laterRow.ts ∧ laterRow.ts ≤ 2 ∧
      twoLiveRows.streamRange 1 "cpu" schemaEncoder 2 2 = .ok [] ∧
      laterRow ∉ rowsOf schemaDecoder 1 "cpu" [] :=
  ⟨schemaEncoder_readBy, twoLiveRows_truthful, by decide, by decide, by decide, by decide,
    by decide, by decide⟩

end Dendro
