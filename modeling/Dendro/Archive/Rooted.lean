import Dendro.Archive.Growth

/-!
# Every row has its source

The tables reference `sources`, and SQLite refuses a row whose source is not there. So in a file
that transactions made, whatever they were, no table has a row under an id that no source has
(`Write.rooted`), and a source that is inserted finds nothing under its new id.
-/

namespace Dendro

open Archive

/-- A source has this id. -/
def Archive.HasSource (a : Archive) (id : Int) : Prop := (a.sources.get? id).isSome = true

/-- Every row names a source that is there. -/
structure Archive.Rooted (a : Archive) : Prop where
  segments : ∀ k s, a.segments.get? k = some s → a.HasSource (ofLex (ofLex k).1).1
  wal : ∀ k c, a.wal.get? k = some c → a.HasSource (ofLex (ofLex k).1).1
  clock_offsets : ∀ k o, a.clock_offsets.get? k = some o → a.HasSource (ofLex k).1
  caller_rows : ∀ e ∈ a.caller_rows, a.HasSource (ofLex e.1).1

namespace Archive

variable {a a' : Archive}

theorem Rooted.create (layout : IndexLayout) : (create layout).Rooted where
  segments _ _ h := absurd h (by simp [Archive.create])
  wal _ _ h := absurd h (by simp [Archive.create])
  clock_offsets _ _ h := absurd h (by simp [Archive.create])
  caller_rows := nofun

theorem checkSource_ok {context : String} {source_id : Int} {u : Unit}
    (h : a.checkSource context source_id = .ok u) : a.HasSource source_id := by
  unfold checkSource at h
  split at h
  · assumption
  · exact absurd h (by simp)

/-! ## What takes rows away -/

/-- No table has a new row, and no source is gone. -/
structure Thinned (a a' : Archive) : Prop where
  sources : ∀ id, a.HasSource id → a'.HasSource id
  segments : ∀ k s, a'.segments.get? k = some s → ∃ s', a.segments.get? k = some s'
  wal : ∀ k c, a'.wal.get? k = some c → ∃ c', a.wal.get? k = some c'
  clock_offsets : ∀ k o, a'.clock_offsets.get? k = some o → ∃ o', a.clock_offsets.get? k = some o'
  caller_rows : a'.caller_rows ⊆ a.caller_rows

theorem Thinned.refl (a : Archive) : Thinned a a :=
  ⟨fun _ h => h, fun _ s h => ⟨s, h⟩, fun _ c h => ⟨c, h⟩, fun _ o h => ⟨o, h⟩, fun _ h => h⟩

theorem Thinned.trans {b : Archive} (h : Thinned a b) (h' : Thinned b a') : Thinned a a' where
  sources id hid := h'.sources id (h.sources id hid)
  segments k s hs := by
    obtain ⟨s', hs'⟩ := h'.segments k s hs
    exact h.segments k s' hs'
  wal k c hc := by
    obtain ⟨c', hc'⟩ := h'.wal k c hc
    exact h.wal k c' hc'
  clock_offsets k o ho := by
    obtain ⟨o', ho'⟩ := h'.clock_offsets k o ho
    exact h.clock_offsets k o' ho'
  caller_rows := fun _ he => h.caller_rows (h'.caller_rows he)

theorem Rooted.thinned (h : a.Rooted) (ht : Thinned a a') : a'.Rooted where
  segments k s hs := by
    obtain ⟨s', hs'⟩ := ht.segments k s hs
    exact ht.sources _ (h.segments k s' hs')
  wal k c hc := by
    obtain ⟨c', hc'⟩ := ht.wal k c hc
    exact ht.sources _ (h.wal k c' hc')
  clock_offsets k o ho := by
    obtain ⟨o', ho'⟩ := ht.clock_offsets k o ho
    exact ht.sources _ (h.clock_offsets k o' ho')
  caller_rows e he := ht.sources _ (h.caller_rows e (ht.caller_rows he))

theorem thinned_deleteSegments (p : StreamKey ×ₗ Nat → SegmentCols → Bool) (a : Archive) :
    Thinned a (a.deleteSegments p) :=
  { Thinned.refl a with segments := fun _ s hs => ⟨s, (OrdMap.get?_filter_eq_some.mp hs).1⟩ }

theorem thinned_deleteWal (p : StreamKey → Int64 → Bool) (a : Archive) :
    Thinned a (a.deleteWal p) :=
  { Thinned.refl a with wal := fun _ c hc => ⟨c, (OrdMap.get?_filter_eq_some.mp hc).1⟩ }

theorem thinned_evictClockOffsets (source_id : Int) (cut : Int64) (a : Archive) :
    Thinned a (a.evictClockOffsets source_id cut) :=
  { Thinned.refl a with
    clock_offsets := fun _ o ho => ⟨o, (OrdMap.get?_filter_eq_some.mp ho).1⟩ }

theorem thinned_filterCallerRows (p : StreamKey × CallerRow → Bool) (a : Archive) :
    Thinned a { a with caller_rows := a.caller_rows.filter p } :=
  { Thinned.refl a with caller_rows := fun _ he => (List.mem_filter.mp he).1 }

theorem thinned_foldl {β : Type} {f : Archive → β → Archive} (h : ∀ a b, Thinned a (f a b)) :
    ∀ (bs : List β) (a : Archive), Thinned a (bs.foldl f a)
  | [], a => .refl a
  | b :: bs, a => (h a b).trans (thinned_foldl h bs (f a b))

theorem thinned_evict (source_id : Int) (cutoff_ts : Int64) (floor : Option CallerRowFloor)
    (names : List String) (a : Archive) : Thinned a (a.evict source_id cutoff_ts floor names) := by
  have hcut : Thinned a (((a.deleteSegments fun key s =>
      (ofLex (ofLex key).1).1 = source_id && s.seg_meta.last_ts < cutoff_ts).deleteWal
        fun key ts => (ofLex key).1 = source_id && ts < cutoff_ts).evictClockOffsets source_id
          cutoff_ts) :=
    (thinned_deleteSegments _ a).trans
      ((thinned_deleteWal _ _).trans (thinned_evictClockOffsets _ _ _))
  unfold evict
  cases floor with
  | none => exact hcut.trans (thinned_filterCallerRows _ _)
  | some f => exact hcut.trans (thinned_foldl (fun a _ => thinned_filterCallerRows _ a) names _)

theorem thinned_evictStreams (source_id : Int) (cutoff_ts : Int64) (floor : Option CallerRowFloor)
    (streams : List String) (a : Archive) :
    Thinned a (a.evictStreams source_id cutoff_ts floor streams) := by
  have hturn : ∀ (a : Archive) (stream : String), Thinned a
      (evictCallerRows source_id cutoff_ts floor (evictStream source_id cutoff_ts a stream)
        stream) := fun a stream =>
    (thinned_deleteSegments _ a).trans
      ((thinned_deleteWal _ _).trans (thinned_filterCallerRows _ _))
  exact (thinned_foldl hturn streams a).trans (thinned_evictClockOffsets _ _ _)

theorem thinned_updateSource (source_id : Int) (f : SourceCols → SourceCols) (a : Archive) :
    Thinned a (a.updateSource source_id f) := by
  have htables := updateSource_tables a source_id f
  refine ⟨fun id hid => ?_, ?_, ?_, ?_, ?_⟩
  · obtain ⟨cols, hcols⟩ := Option.isSome_iff_exists.mp hid
    obtain ⟨cols', hcols'⟩ := (grown_updateSource a source_id f).sources id cols hcols
    exact Option.isSome_iff_exists.mpr ⟨cols', hcols'⟩
  all_goals rw [htables]
  · exact fun _ s hs => ⟨s, hs⟩
  · exact fun _ c hc => ⟨c, hc⟩
  · exact fun _ o ho => ⟨o, ho⟩
  · exact fun _ h => h

theorem thinned_updateSourceOrFail {source_id : Int} {f : SourceCols → SourceCols}
    (h : a.updateSourceOrFail source_id f = .ok a') : Thinned a a' := by
  unfold updateSourceOrFail at h
  split at h
  · rw [← Except.ok.inj h]
    exact thinned_updateSource source_id f a
  · exact absurd h (by simp)

theorem thinned_insertSource (seed : SourceMeta) (uuid : String) (a : Archive) :
    Thinned a (a.insertSource seed uuid) :=
  { Thinned.refl a with
    sources := fun id hid => by
      obtain ⟨cols, hcols⟩ := Option.isSome_iff_exists.mp hid
      obtain ⟨cols', hcols'⟩ := (grown_insertSource seed uuid a).sources id cols hcols
      exact Option.isSome_iff_exists.mpr ⟨cols', hcols'⟩ }

/-! ## What adds rows -/

theorem Rooted.insertWalRow {source_id : Int} {r : WalRow} (h : a.Rooted)
    (hb : Archive.insertWalRow source_id a r = .ok a') : a'.Rooted := by
  unfold Archive.insertWalRow at hb
  dsimp only at hb
  split at hb
  · exact absurd hb (by simp [throw, throwThe, MonadExceptOf.throw])
  · simp only [Except.bind_eq_ok, Except.pure_eq_ok] at hb
    obtain ⟨u, hsource, rfl⟩ := hb
    refine ⟨h.segments, fun k c hc => ?_, h.clock_offsets, h.caller_rows⟩
    rw [OrdMap.get?_insert] at hc
    split at hc
    case isTrue hk =>
      subst hk
      exact checkSource_ok (a := a) hsource
    case isFalse => exact h.wal k c hc

theorem Rooted.insertSegment {source_id : Int} {stream : String} {seq : Nat} {m : SegmentMeta}
    {bytes : Bytes} {index : Option Bytes} (h : a.Rooted)
    (hb : a.insertSegment source_id stream seq m bytes index = .ok a') : a'.Rooted := by
  have hsource : a.HasSource source_id := by
    unfold Archive.insertSegment at hb
    dsimp only at hb
    split at hb
    · exact absurd hb (by simp [throw, throwThe, MonadExceptOf.throw])
    · simp only [Except.bind_eq_ok] at hb
      obtain ⟨u, hsource, -⟩ := hb
      exact checkSource_ok hsource
  obtain ⟨-, hframe⟩ := insertSegment_ok hb
  rw [hframe]
  refine ⟨fun k s hs => ?_, h.wal, h.clock_offsets, h.caller_rows⟩
  rw [OrdMap.get?_insert] at hs
  split at hs
  case isTrue hk =>
    subst hk
    exact hsource
  case isFalse => exact h.segments k s hs

theorem Rooted.insertClockOffset {source_id : Int} {ts offset : Int64} (h : a.Rooted)
    (hb : a.insertClockOffset source_id ts offset = .ok a') : a'.Rooted := by
  unfold Archive.insertClockOffset at hb
  dsimp only at hb
  split at hb
  · exact Except.pure_eq_ok.mp hb ▸ h
  · simp only [Except.bind_eq_ok, Except.pure_eq_ok] at hb
    obtain ⟨u, hsource, rfl⟩ := hb
    refine ⟨h.segments, h.wal, fun k o ho => ?_, h.caller_rows⟩
    rw [OrdMap.get?_insert] at ho
    split at ho
    case isTrue hk =>
      subst hk
      exact checkSource_ok (a := a) hsource
    case isFalse => exact h.clock_offsets k o ho

theorem Rooted.insertCallerRows {source_id : Int} {stream : String} {rows : List CallerRow}
    (h : a.Rooted) (hb : a.insertCallerRows source_id stream rows = .ok a') : a'.Rooted := by
  have hframe : a'.sources = a.sources ∧ a'.segments = a.segments ∧ a'.wal = a.wal ∧
      a'.clock_offsets = a.clock_offsets := by
    rw [insertCallerRows_tables hb]
    exact ⟨rfl, rfl, rfl, rfl⟩
  obtain ⟨hsources, hsegments, hwal, hoffsets⟩ := hframe
  have hhas : ∀ id, a'.HasSource id ↔ a.HasSource id := fun id => by
    rw [HasSource, HasSource, hsources]
  refine ⟨fun k s hs => (hhas _).mpr (h.segments k s (hsegments ▸ hs)),
    fun k c hc => (hhas _).mpr (h.wal k c (hwal ▸ hc)),
    fun k o ho => (hhas _).mpr (h.clock_offsets k o (hoffsets ▸ ho)), fun e he => ?_⟩
  unfold Archive.insertCallerRows at hb
  by_cases hrows : rows = []
  · subst hrows
    rw [if_neg (by simp)] at hb
    obtain rfl := Except.pure_eq_ok.mp hb
    exact h.caller_rows e (by simpa using he)
  · rw [if_pos hrows] at hb
    simp only [Except.bind_eq_ok, Except.pure_eq_ok] at hb
    obtain ⟨u, hsource, rfl⟩ := hb
    rcases List.mem_append.mp he with he | he
    · exact h.caller_rows e he
    · obtain ⟨r, -, rfl⟩ := List.mem_map.mp he
      exact checkSource_ok hsource

theorem Rooted.foldlM {β : Type} {f : Archive → β → Except Error Archive}
    (hf : ∀ a b a', a.Rooted → f a b = .ok a' → a'.Rooted) : ∀ {bs : List β} {a a' : Archive},
      a.Rooted → bs.foldlM f a = .ok a' → a'.Rooted
  | [], _, _, h, hb => Except.ok.inj hb ▸ h
  | b :: bs, a, a', h, hb => by
      obtain ⟨c, hc, hrest⟩ := Except.foldlM_cons_eq_ok.mp hb
      exact Rooted.foldlM hf (hf a b c h hc) hrest

end Archive

/-- **No transaction leaves a row without its source.** -/
theorem Write.rooted {w : Write} {a a' : Archive} (h : a.Rooted) (hb : w.apply a = .ok a') :
    a'.Rooted := by
  cases w with
  | walRows ticks =>
      exact Rooted.foldlM (fun _ _ _ h hb => Rooted.foldlM (fun _ _ _ h hb => h.insertWalRow hb) h hb)
        h hb
  | «seal» source_id batch encoded observation =>
      simp only [Write.apply, Except.bind_eq_ok] at hb
      obtain ⟨b, hencoded, hb⟩ := hb
      have hrooted : b.Rooted := Rooted.foldlM (fun _ _ _ h hb => h.insertSegment hb) h hencoded
      cases observation with
      | none => exact Except.pure_eq_ok.mp hb ▸ hrooted
      | some o => exact hrooted.insertClockOffset hb
  | adopt source_id s seq => exact h.insertSegment hb
  | pruneWal source_id stream upto_ts =>
      obtain rfl := Except.ok.inj hb
      exact h.thinned (thinned_deleteWal _ a)
  | evict source_id cutoff_ts floor names =>
      obtain rfl := Except.ok.inj hb
      exact h.thinned (thinned_evict _ _ _ _ a)
  | evictStreams source_id cutoff_ts floor streams =>
      obtain rfl := Except.ok.inj hb
      exact h.thinned (thinned_evictStreams _ _ _ _ a)
  | clockOffset source_id ts offset_ns => exact h.insertClockOffset hb
  | callerRows source_id stream rows => exact h.insertCallerRows hb
  | insertSource seed uuid =>
      obtain rfl := Except.ok.inj hb
      exact h.thinned (thinned_insertSource seed uuid a)
  | updateMetadata source_id metadata => exact h.thinned (thinned_updateSourceOrFail hb)
  | setIdentity source_id labels metadata => exact h.thinned (thinned_updateSourceOrFail hb)
  | markIncomplete source_id => exact h.thinned (thinned_updateSourceOrFail hb)
  | finalize source_id ts offset_ns =>
      simp only [Write.apply, Except.bind_eq_ok, Except.pure_eq_ok] at hb
      obtain ⟨b, hoffset, rfl⟩ := hb
      exact (h.insertClockOffset hoffset).thinned (thinned_updateSource _ _ b)
  | startHeartbeat source_id interval_ns =>
      obtain rfl := Except.ok.inj hb
      exact h.thinned ((thinned_updateSource _ _ a).trans
        (thinned_foldl (fun a _ => thinned_updateSource _ _ a) [source_id] _))
  | beat source_ids =>
      obtain rfl := Except.ok.inj hb
      exact h.thinned (thinned_foldl (fun a _ => thinned_updateSource _ _ a) source_ids a)
  | merge source_id stream run seq seg_meta bytes =>
      have hrun : (run.foldl (fun a s => a.deleteSegment source_id stream s) a).Rooted :=
        h.thinned (thinned_foldl (fun a _ => thinned_deleteSegments _ a) run a)
      exact hrun.insertSegment hb

namespace Archive

variable {a : Archive}

/-- Every id is below the next one. -/
theorem lt_nextSourceId {id : Int} (h : a.HasSource id) : id < a.nextSourceId := by
  obtain ⟨cols, hcols⟩ := Option.isSome_iff_exists.mp h
  have hkey : id ∈ a.sources.keys := OrdMap.mem_keys.mpr ⟨cols, hcols⟩
  rcases hmax : a.sources.keys.max? with _ | top
  · rw [List.max?_eq_none_iff] at hmax
    rw [hmax] at hkey
    exact absurd hkey (by simp)
  · have hle : id ≤ top := (List.max?_eq_some_iff.mp hmax).2 id hkey
    rw [nextSourceId, hmax, Option.getD_some]
    omega

theorem not_hasSource_next : ¬a.HasSource a.nextSourceId := fun h =>
  absurd (lt_nextSourceId h) (lt_irrefl _)

/-! ## Where there is no source -/

section

variable {id : Int} (h : a.Rooted) (hid : ¬a.HasSource id)
include h hid

theorem Rooted.segments_none (stream : String) (seq : Nat) :
    a.segments.get? (toLex (streamKey id stream, seq)) = none :=
  Option.eq_none_iff_forall_ne_some.mpr fun s hs => hid (h.segments _ s hs)

theorem Rooted.catalog_none (stream : String) : a.catalog (streamKey id stream) = ∅ :=
  OrdMap.ext_get? fun seq => (OrdMap.get?_group _ _ _).trans (h.segments_none hid stream seq)

theorem Rooted.walOf_none (stream : String) : a.walOf (streamKey id stream) = ∅ :=
  OrdMap.ext_get? fun _ => (OrdMap.get?_group _ _ _).trans
    (Option.eq_none_iff_forall_ne_some.mpr fun c hc => hid (h.wal _ c hc))

theorem Rooted.offsets_none (ts : Int64) : a.clock_offsets.get? (toLex (id, ts)) = none :=
  Option.eq_none_iff_forall_ne_some.mpr fun o ho => hid (h.clock_offsets _ o ho)

theorem Rooted.callerRowsOf_none (stream : String) : a.callerRowsOf (streamKey id stream) = [] := by
  rw [callerRowsOf, List.map_eq_nil_iff, List.filter_eq_nil_iff]
  intro e he hk
  have hkey : e.1 = streamKey id stream := by simpa using hk
  exact hid (by simpa [hkey] using h.caller_rows e he)

end

end Archive

end Dendro
