import Dendro.Rewrite.Copied

/-!
# An archive with copied sources

A copied source is found under its id as it was inserted, and whatever the archive held under
other ids is found as before. A reader sees of a source only what is compared here.
-/

namespace Dendro

open Archive

namespace Archive

/-! ## Streams by name -/

variable {a b : Archive} {id id' : Int} {c : SourceCopy} {stream : String}

/-- A stream is listed when it has a segment or a row. -/
theorem mem_allStreams : stream ∈ a.allStreams id ↔
    a.catalog (streamKey id stream) ≠ ∅ ∨ a.walOf (streamKey id stream) ≠ ∅ := by
  have hlisted : ∀ {α : Type} {σ : Type} [LinearOrder σ] (m : OrdMap (StreamKey ×ₗ σ) α),
      stream ∈ ((m.keys.map fun k => ofLex (ofLex k).1).filterMap fun k =>
        if k.1 = id then some k.2 else none) → m.group (streamKey id stream) ≠ ∅ := by
    intro α σ _ m hmem hnone
    obtain ⟨p, hp, hid⟩ := List.mem_filterMap.mp hmem
    obtain ⟨k, hk, rfl⟩ := List.mem_map.mp hp
    obtain ⟨v, hv⟩ := OrdMap.mem_keys.mp hk
    split at hid
    case isFalse => cases hid
    case isTrue hfst =>
      have hkey : (ofLex k).1 = streamKey id stream := by
        rw [streamKey, ← hfst, ← Option.some.inj hid]
        rfl
      have hget : (m.group (ofLex k).1).get? (ofLex k).2 = some v := by
        rw [OrdMap.get?_group]
        exact hv
      rw [hkey, hnone] at hget
      cases hget
  constructor
  · intro h
    rcases List.mem_append.mp (mem_distinct.mp h) with h | h
    · exact .inl (hlisted a.segments h)
    · exact .inr (hlisted a.wal h)
  · intro h
    by_contra hnot
    obtain ⟨hseg, hwal⟩ := of_not_mem_allStreams hnot
    rcases h with h | h
    · exact h (OrdMap.ext_get? fun seq => Option.eq_none_iff_forall_ne_some.mpr (hseg seq))
    · exact h (OrdMap.ext_get? fun ts => Option.eq_none_iff_forall_ne_some.mpr (hwal ts))

/-- A list of the streams, in order, is what lists them. -/
theorem allStreams_eq {streams : List String} (hs : streams.Pairwise (· < ·))
    (h : ∀ stream, stream ∈ streams ↔
      a.catalog (streamKey id stream) ≠ ∅ ∨ a.walOf (streamKey id stream) ≠ ∅) :
    a.allStreams id = streams :=
  List.Pairwise.eq_of_mem_iff (OrdMap.keys_sorted _) hs fun stream =>
    mem_allStreams.trans (h stream).symm

/-! ## What is found under an id -/

/-- Two archives hold the same under an id. -/
structure AgreesOn (id : Int) (a b : Archive) : Prop where
  source : a.sources.get? id = b.sources.get? id
  catalog : ∀ stream, a.catalog (streamKey id stream) = b.catalog (streamKey id stream)
  wal : ∀ stream, a.walOf (streamKey id stream) = b.walOf (streamKey id stream)
  offsets : a.readClockOffsets id = b.readClockOffsets id
  callers : ∀ stream, a.callerRowsOf (streamKey id stream) = b.callerRowsOf (streamKey id stream)

theorem AgreesOn.refl (id : Int) (a : Archive) : AgreesOn id a a :=
  ⟨rfl, fun _ => rfl, fun _ => rfl, rfl, fun _ => rfl⟩

theorem AgreesOn.symm (h : AgreesOn id a b) : AgreesOn id b a :=
  ⟨h.source.symm, fun s => (h.catalog s).symm, fun s => (h.wal s).symm, h.offsets.symm,
    fun s => (h.callers s).symm⟩

theorem AgreesOn.trans {d : Archive} (h : AgreesOn id a b) (h' : AgreesOn id b d) :
    AgreesOn id a d :=
  ⟨h.source.trans h'.source, fun s => (h.catalog s).trans (h'.catalog s),
    fun s => (h.wal s).trans (h'.wal s), h.offsets.trans h'.offsets,
    fun s => (h.callers s).trans (h'.callers s)⟩

theorem AgreesOn.liveWal (h : AgreesOn id a b) (stream : String) :
    a.liveWal id stream = b.liveWal id stream := by
  have hlive : a.live (streamKey id stream) = b.live (streamKey id stream) := by
    unfold live isLive watermark
    rw [h.wal, h.catalog]
  unfold Archive.liveWal
  rw [hlive]

theorem AgreesOn.allStreams (h : AgreesOn id a b) : a.allStreams id = b.allStreams id :=
  allStreams_eq (OrdMap.keys_sorted _) fun stream => by
    rw [h.catalog, h.wal]
    exact mem_allStreams

theorem AgreesOn.streamSegments (h : AgreesOn id a b) (encoder : SegmentEncoder) :
    a.streamSegmentsSnapshotted id stream encoder =
      b.streamSegmentsSnapshotted id stream encoder := by
  have hbytes : ∀ d : Archive, (d.readSegments id stream).map (·.bytes) =
      (d.catalog (streamKey id stream)).values.map (·.bytes) := by
    intro d
    rw [readSegments, OrdMap.values, List.map_map, List.map_map]
    rfl
  unfold streamSegmentsSnapshotted materializeTail sourceUuid
  rw [hbytes, hbytes, h.catalog, h.liveWal, h.source]

/-- **A reader finds the same in both.** -/
theorem AgreesOn.readSource (h : AgreesOn id a b) (encoder : SegmentEncoder) {src : SourceRow}
    (hsrc : src.id = id) : a.readSource encoder src = b.readSource encoder src := by
  subst hsrc
  have hstreams : ∀ stream, a.streamSegmentsSnapshotted src.id stream encoder =
      b.streamSegmentsSnapshotted src.id stream encoder := fun _ => h.streamSegments encoder
  unfold Archive.readSource readStreams
  rw [h.allStreams]
  simp only [hstreams]

/-- What was inserted of a source is found under an id. -/
structure HasCopy (a : Archive) (id : Int) (c : SourceCopy) : Prop where
  source : a.sources.get? id = some c.cols
  catalog : ∀ stream, a.catalog (streamKey id stream) = OrdMap.ofList
    ((c.segments.filter (·.stream = stream)).map fun e =>
      (e.seq, storedCols a.layout e.seg_meta e.bytes e.caller_index))
  wal : ∀ stream, a.walOf (streamKey id stream) = ∅
  offsets : a.readClockOffsets id = (OrdMap.ofList c.offsets).entries
  callers : ∀ stream, a.callerRowsOf (streamKey id stream) =
    (c.callers.filter (·.1 = stream)).map Prod.snd

theorem HasCopy.of_agrees (h : a.HasCopy id c) (hab : AgreesOn id b a) (hlayout : b.layout = a.layout) :
    b.HasCopy id c where
  source := hab.source.trans h.source
  catalog stream := by
    rw [hab.catalog, h.catalog, hlayout]
  wal stream := (hab.wal stream).trans (h.wal stream)
  offsets := hab.offsets.trans h.offsets
  callers stream := (hab.callers stream).trans (h.callers stream)

/-! ## One copied source -/

/-- The segments that are inserted, as the catalog of a stream takes them. -/
theorem placed_filterMap (layout : IndexLayout) (id : Int) (k : StreamKey) (es : List Encoded) :
    ((es.map fun e => (toLex (streamKey id e.stream, e.seq),
        storedCols layout e.seg_meta e.bytes e.caller_index)).filterMap fun e =>
      if (ofLex e.1).1 = k then some ((ofLex e.1).2, e.2) else none) =
      (es.filter fun e => streamKey id e.stream = k).map fun e =>
        (e.seq, storedCols layout e.seg_meta e.bytes e.caller_index) := by
  rw [List.filterMap_map, ← List.filterMap_eq_filter, List.map_filterMap]
  refine List.filterMap_congr fun e _ => ?_
  by_cases hk : streamKey id e.stream = k <;> simp [Option.guard, hk]

theorem catalog_place (a : Archive) (id : Int) (c : SourceCopy) (k : StreamKey) :
    (a.place id c).catalog k = (a.catalog k).insertAll
      ((c.segments.filter fun e => streamKey id e.stream = k).map fun e =>
        (e.seq, storedCols a.layout e.seg_meta e.bytes e.caller_index)) := by
  unfold catalog place
  rw [OrdMap.group_insertAll, placed_filterMap]

theorem callerRowsOf_place (a : Archive) (id : Int) (c : SourceCopy) (k : StreamKey) :
    (a.place id c).callerRowsOf k = a.callerRowsOf k ++
      (c.callers.filter fun e => streamKey id e.1 = k).map Prod.snd := by
  unfold callerRowsOf place
  rw [List.filter_append, List.map_append, List.filter_map, List.map_map]
  rfl

theorem readClockOffsets_place (a : Archive) (id id' : Int) (c : SourceCopy) :
    (a.place id c).readClockOffsets id' = ((a.clock_offsets.group id').insertAll
      (if id = id' then c.offsets else [])).entries := by
  have hall : ∀ offsets : List (Int64 × Int64),
      ((offsets.map fun o => (toLex (id, o.1), o.2)).filterMap fun e =>
        if (ofLex e.1).1 = id' then some ((ofLex e.1).2, e.2) else none) =
      if id = id' then offsets else [] := by
    intro offsets
    induction offsets with
    | nil => simp
    | cons o offsets ih =>
        rw [List.map_cons, List.filterMap_cons, ih]
        by_cases hid : id = id' <;> simp [hid]
  unfold readClockOffsets place
  rw [OrdMap.group_insertAll, hall]

theorem streamKey_ne {stream stream' : String} (h : id' ≠ id) :
    streamKey id stream ≠ streamKey id' stream' := fun hk =>
  h (Prod.mk.inj (toLex.injective hk)).1.symm

theorem streamKey_inj {stream stream' : String} :
    streamKey id stream = streamKey id stream' ↔ stream = stream' :=
  ⟨fun hk => (Prod.mk.inj (toLex.injective hk)).2, congrArg _⟩

/-- **Other ids are not touched.** -/
theorem place_agrees (a : Archive) (c : SourceCopy) (h : id' ≠ id) :
    AgreesOn id' (a.place id c) a where
  source := OrdMap.get?_insert_ne _ _ h
  catalog stream := by
    rw [catalog_place, List.filter_eq_nil_iff.mpr fun e _ => by simpa using streamKey_ne h]
    rfl
  wal _ := rfl
  offsets := by
    rw [readClockOffsets_place, if_neg (Ne.symm h)]
    rfl
  callers stream := by
    rw [callerRowsOf_place, List.filter_eq_nil_iff.mpr fun e _ => by simpa using streamKey_ne h,
      List.map_nil, List.append_nil]

/-- **The source is found as it was inserted**, where the id was new. -/
theorem place_hasCopy (hr : a.Rooted) (hid : ¬a.HasSource id) (c : SourceCopy) :
    (a.place id c).HasCopy id c where
  source := OrdMap.get?_insert_self _ _ _
  catalog stream := by
    rw [catalog_place, hr.catalog_none hid]
    simp only [streamKey_inj]
    rfl
  wal stream := hr.walOf_none hid stream
  offsets := by
    have hnone : a.clock_offsets.group id = ∅ := OrdMap.ext_get? fun ts => by
      rw [OrdMap.get?_group, hr.offsets_none hid]
      rfl
    rw [readClockOffsets_place, if_pos rfl, hnone]
    rfl
  callers stream := by
    rw [callerRowsOf_place, hr.callerRowsOf_none hid, List.nil_append]
    simp only [streamKey_inj]

theorem place_rooted (hr : a.Rooted) (id : Int) (c : SourceCopy) : (a.place id c).Rooted := by
  have hkeep : ∀ i, a.HasSource i → (a.place id c).HasSource i := by
    intro i hi
    unfold HasSource place
    rw [OrdMap.get?_insert]
    split
    · rfl
    · exact hi
  have hself : (a.place id c).HasSource id := by
    unfold HasSource place
    rw [OrdMap.get?_insert_self]
    rfl
  refine ⟨fun k s hs => ?_, fun k w hw => hkeep _ (hr.wal k w hw), fun k o ho => ?_, fun e he => ?_⟩
  · rcases OrdMap.mem_insertAll (OrdMap.get?_eq_some.mp hs) with h | h
    · exact hkeep _ (hr.segments k s (OrdMap.get?_eq_some.mpr h))
    · obtain ⟨e, -, he⟩ := List.mem_map.mp h
      rw [← (Prod.mk.inj he).1]
      exact hself
  · rcases OrdMap.mem_insertAll (OrdMap.get?_eq_some.mp ho) with h | h
    · exact hkeep _ (hr.clock_offsets k o (OrdMap.get?_eq_some.mpr h))
    · obtain ⟨e, -, he⟩ := List.mem_map.mp h
      rw [← (Prod.mk.inj he).1]
      exact hself
  · rcases List.mem_append.mp he with he | he
    · exact hkeep _ (hr.caller_rows e he)
    · obtain ⟨p, -, rfl⟩ := List.mem_map.mp he
      exact hself

/-! ## The sources of a copy -/

/-- The sources of a copy, each under the next id. -/
def placeAll (a : Archive) (cs : List SourceCopy) : Archive :=
  cs.foldl (fun a c => a.place a.nextSourceId c) a

theorem sources_lt (a : Archive) : ∀ id ∈ a.sources.keys, id < a.nextSourceId := fun id hid => by
  obtain ⟨cols, hcols⟩ := OrdMap.mem_keys.mp hid
  exact lt_nextSourceId (Option.isSome_iff_exists.mpr ⟨cols, hcols⟩)

theorem readSources_place (a : Archive) (c : SourceCopy) :
    (a.place a.nextSourceId c).readSources =
      a.readSources ++ [{ c.cols with id := a.nextSourceId }] := by
  unfold readSources place
  rw [OrdMap.entries_insert_of_lt _ a.sources_lt, List.map_append]
  rfl

theorem nextSourceId_place (a : Archive) (c : SourceCopy) :
    (a.place a.nextSourceId c).nextSourceId = a.nextSourceId + 1 := by
  have hmax : (a.sources.keys ++ [a.nextSourceId]).max? = some a.nextSourceId :=
    List.max?_eq_some_iff.mpr ⟨by simp, fun b hb => by
      rcases List.mem_append.mp hb with hb | hb
      · exact (a.sources_lt b hb).le
      · exact (List.mem_singleton.mp hb).le⟩
  have hkeys : (a.place a.nextSourceId c).sources.keys = a.sources.keys ++ [a.nextSourceId] :=
    OrdMap.keys_insert_of_lt _ a.sources_lt
  rw [nextSourceId, hkeys, hmax]
  rfl

/-- What an archive holds once sources were copied into it. -/
structure Received (a b : Archive) (cs : List SourceCopy) : Prop where
  layout : b.layout = a.layout
  rooted : b.Rooted
  sources : b.readSources = a.readSources ++
    cs.mapIdx fun i c => { c.cols with id := a.nextSourceId + i }
  old : ∀ id, a.HasSource id → AgreesOn id b a
  new : ∀ (i : Nat) (h : i < cs.length), b.HasCopy (a.nextSourceId + i) cs[i]

theorem placeAll_received : ∀ {cs : List SourceCopy} {a : Archive}, a.Rooted →
    Received a (a.placeAll cs) cs
  | [], a, hr => ⟨rfl, hr, by simp [placeAll], fun id _ => .refl id a, nofun⟩
  | c :: cs, a, hr => by
      have hrest : Received (a.place a.nextSourceId c) (a.placeAll (c :: cs)) cs :=
        placeAll_received (place_rooted hr _ c)
      have hkept : ∀ id, a.HasSource id → (a.place a.nextSourceId c).HasSource id := by
        intro id hid
        unfold HasSource
        rw [(place_agrees a c (lt_nextSourceId hid).ne).source]
        exact hid
      refine ⟨hrest.layout, hrest.rooted, ?_, fun id hid => ?_, fun i hi => ?_⟩
      · rw [hrest.sources, readSources_place, nextSourceId_place, List.mapIdx_cons,
          List.append_assoc, List.singleton_append]
        refine congrArg (a.readSources ++ ·) (congrArg₂ List.cons (by simp) ?_)
        refine congrArg (List.mapIdx · cs) (funext fun i => funext fun c => ?_)
        have hshift : a.nextSourceId + 1 + (i : Int) = a.nextSourceId + ((i + 1 : Nat) : Int) := by
          omega
        rw [hshift]
      · exact (hrest.old id (hkept id hid)).trans (place_agrees a c (lt_nextSourceId hid).ne)
      · rcases i with _ | i
        · have hself : (a.place a.nextSourceId c).HasSource a.nextSourceId := by
            unfold HasSource
            rw [(place_hasCopy hr not_hasSource_next c).source]
            rfl
          have hcopy := (place_hasCopy hr not_hasSource_next c).of_agrees (hrest.old _ hself)
            hrest.layout
          simpa using hcopy
        · have hcopy := hrest.new i (by simpa using hi)
          rw [nextSourceId_place] at hcopy
          have hshift : a.nextSourceId + 1 + (i : Int) = a.nextSourceId + ((i + 1 : Nat) : Int) := by
            omega
          rw [hshift] at hcopy
          exact hcopy

end Archive

end Dendro
