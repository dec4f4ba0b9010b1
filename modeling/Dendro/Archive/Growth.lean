import Dendro.Archive.Stream

/-!
# What stays in the file

Only retention takes anything from the tables beside the rows: every other transaction keeps
the sources, the clock observations and the caller's rows, and appends to the last.
-/

namespace Dendro

open Archive

/-- Whether a transaction is a retention pass. -/
def Write.evicts : Write → Bool
  | .evict .. | .evictStreams .. => true
  | _ => false

/-- Sources, clock observations and caller rows are as they were, and there may be more. -/
structure Archive.Grown (a a' : Archive) : Prop where
  sources : ∀ id cols, a.sources.get? id = some cols → ∃ cols', a'.sources.get? id = some cols'
  clock_offsets : ∀ k v, a.clock_offsets.get? k = some v → a'.clock_offsets.get? k = some v
  caller_rows : a.caller_rows <+: a'.caller_rows

namespace Archive

variable {a a' : Archive}

theorem Grown.refl (a : Archive) : Grown a a :=
  ⟨fun _ cols h => ⟨cols, h⟩, fun _ _ h => h, List.prefix_rfl⟩

theorem Grown.trans {b : Archive} (h : Grown a b) (h' : Grown b a') : Grown a a' where
  sources id cols hcols := by
    obtain ⟨cols₁, hcols₁⟩ := h.sources id cols hcols
    exact h'.sources id cols₁ hcols₁
  clock_offsets k v hk := h'.clock_offsets k v (h.clock_offsets k v hk)
  caller_rows := h.caller_rows.trans h'.caller_rows

theorem Grown.of_eq (hsources : a'.sources = a.sources) (hoffsets : a'.clock_offsets = a.clock_offsets)
    (hrows : a'.caller_rows = a.caller_rows) : Grown a a' where
  sources id cols hcols := ⟨cols, by rwa [hsources]⟩
  clock_offsets k v hk := by rwa [hoffsets]
  caller_rows := hrows ▸ List.prefix_rfl

theorem grown_insertClockOffset {source_id : Int} {ts offset : Int64}
    (h : a.insertClockOffset source_id ts offset = .ok a') : Grown a a' := by
  unfold insertClockOffset at h
  dsimp only at h
  split at h
  · obtain rfl := Except.pure_eq_ok.mp h
    exact .refl a
  · rename_i hnew
    simp only [Except.bind_eq_ok, Except.pure_eq_ok] at h
    obtain ⟨-, -, rfl⟩ := h
    refine ⟨fun _ cols hcols => ⟨cols, hcols⟩, fun k v hk => ?_, List.prefix_rfl⟩
    have hne : k ≠ toLex (source_id, ts) := by
      rintro rfl
      rw [hk] at hnew
      exact hnew rfl
    exact (OrdMap.get?_insert_ne a.clock_offsets offset hne).trans hk

theorem grown_insertCallerRows {source_id : Int} {stream : String} {rows : List CallerRow}
    (h : a.insertCallerRows source_id stream rows = .ok a') : Grown a a' := by
  have hend : ∀ b : Archive, b = { a with
      caller_rows := a.caller_rows ++ rows.map (streamKey source_id stream, ·) } → Grown a b := by
    rintro _ rfl
    exact ⟨fun _ cols hcols => ⟨cols, hcols⟩, fun _ _ hk => hk, List.prefix_append _ _⟩
  unfold insertCallerRows at h
  split at h
  · simp only [Except.bind_eq_ok, Except.pure_eq_ok] at h
    obtain ⟨-, -, h⟩ := h
    exact hend a' h.symm
  · exact hend a' (Except.pure_eq_ok.mp h).symm

theorem grown_updateSource (a : Archive) (source_id : Int) (f : SourceCols → SourceCols) :
    Grown a (a.updateSource source_id f) := by
  unfold updateSource
  split
  · refine ⟨fun id cols hcols => ?_, fun _ _ hk => hk, List.prefix_rfl⟩
    by_cases hid : id = source_id
    · exact ⟨_, by rw [hid, OrdMap.get?_insert, if_pos rfl]⟩
    · exact ⟨cols, by rw [OrdMap.get?_insert, if_neg hid, hcols]⟩
  · exact .refl a

theorem grown_updateSourceOrFail {source_id : Int} {f : SourceCols → SourceCols}
    (h : a.updateSourceOrFail source_id f = .ok a') : Grown a a' := by
  unfold updateSourceOrFail at h
  split at h
  · obtain rfl := Except.ok.inj h
    exact grown_updateSource a source_id f
  · exact absurd h (by simp)

theorem grown_beat : ∀ (source_ids : List Int) (a : Archive), Grown a (a.beat source_ids)
  | [], a => .refl a
  | id :: ids, a => (grown_updateSource a id _).trans (grown_beat ids _)

theorem grown_insertSource (seed : SourceMeta) (uuid : String) (a : Archive) :
    Grown a (a.insertSource seed uuid) := by
  refine ⟨fun id cols hcols => ?_, fun _ _ hk => hk, List.prefix_rfl⟩
  unfold insertSource
  by_cases hid : id = a.nextSourceId
  · exact ⟨_, by rw [hid, OrdMap.get?_insert, if_pos rfl]⟩
  · exact ⟨cols, by rw [OrdMap.get?_insert, if_neg hid, hcols]⟩

theorem grown_deleteSegments (source_id : Int) (stream : String) : ∀ (run : List Nat) (a : Archive),
    Grown a (run.foldl (fun a seq => a.deleteSegment source_id stream seq) a)
  | [], a => .refl a
  | seq :: run, a => by
      have hone : Grown a (a.deleteSegment source_id stream seq) := .of_eq rfl rfl rfl
      exact hone.trans (grown_deleteSegments source_id stream run _)

end Archive

/-- **A transaction that is no retention pass takes no source, no clock observation and no
caller row away.** -/
theorem Write.grown {w : Write} (hw : w.evicts = false) {a a' : Archive} (h : w.apply a = .ok a') :
    Grown a a' := by
  cases w with
  | walRows ticks =>
      have hframe := (appended_insertWalRowsBatch h).frame
      rw [hframe]
      exact .of_eq rfl rfl rfl
  | «seal» source_id batch encoded observation =>
      simp only [Write.apply, Except.bind_eq_ok] at h
      obtain ⟨b, hb, h⟩ := h
      have hframe := (sealed_of_insertEncoded hb).frame
      have hgrown : Grown a b := by
        rw [hframe]
        exact .of_eq rfl rfl rfl
      cases observation with
      | none =>
          obtain rfl := Except.pure_eq_ok.mp h
          exact hgrown
      | some o => exact hgrown.trans (grown_insertClockOffset h)
  | adopt =>
      rw [(insertSegment_ok h).2]
      exact .of_eq rfl rfl rfl
  | pruneWal =>
      obtain rfl := Except.ok.inj h
      exact .of_eq rfl rfl rfl
  | evict => exact absurd hw (by simp [Write.evicts])
  | evictStreams => exact absurd hw (by simp [Write.evicts])
  | clockOffset => exact grown_insertClockOffset h
  | callerRows => exact grown_insertCallerRows h
  | insertSource seed uuid =>
      obtain rfl := Except.ok.inj h
      exact grown_insertSource seed uuid a
  | updateMetadata => exact grown_updateSourceOrFail h
  | setIdentity => exact grown_updateSourceOrFail h
  | markIncomplete => exact grown_updateSourceOrFail h
  | finalize source_id ts offset =>
      simp only [Write.apply, Except.bind_eq_ok, Except.pure_eq_ok] at h
      obtain ⟨b, hb, rfl⟩ := h
      exact (grown_insertClockOffset hb).trans (grown_updateSource b source_id _)
  | startHeartbeat source_id interval =>
      obtain rfl := Except.ok.inj h
      exact (grown_updateSource a source_id _).trans (grown_beat _ _)
  | beat ids =>
      obtain rfl := Except.ok.inj h
      exact grown_beat ids a
  | merge source_id stream run seq seg_meta bytes =>
      refine (grown_deleteSegments source_id stream run a).trans ?_
      rw [(insertSegment_ok h).2]
      exact .of_eq rfl rfl rfl

/-- The caller's rows that a transaction appends. -/
def Write.callerAppended : Write → List (StreamKey × CallerRow)
  | .callerRows source_id stream rows => rows.map (streamKey source_id stream, ·)
  | _ => []

/-- **Outside retention the caller's rows are only appended to.** -/
theorem Write.caller_rows_apply {w : Write} (hw : w.evicts = false) {a a' : Archive}
    (h : w.apply a = .ok a') : a'.caller_rows = a.caller_rows ++ w.callerAppended := by
  have hnone : a'.caller_rows = a.caller_rows → a'.caller_rows = a.caller_rows ++ [] := fun h' => by
    rw [h', List.append_nil]
  cases w with
  | walRows ticks => exact hnone (by rw [(appended_insertWalRowsBatch h).frame])
  | «seal» source_id batch encoded observation =>
      simp only [Write.apply, Except.bind_eq_ok] at h
      obtain ⟨b, hb, h⟩ := h
      have hframe := (sealed_of_insertEncoded hb).frame
      refine hnone ?_
      cases observation with
      | none =>
          obtain rfl := Except.pure_eq_ok.mp h
          rw [hframe]
      | some o => rw [insertClockOffset_tables h, hframe]
  | adopt => exact hnone (by rw [(insertSegment_ok h).2])
  | pruneWal =>
      obtain rfl := Except.ok.inj h
      exact hnone rfl
  | evict => exact absurd hw (by simp [Write.evicts])
  | evictStreams => exact absurd hw (by simp [Write.evicts])
  | clockOffset => exact hnone (by rw [insertClockOffset_tables h])
  | callerRows source_id stream rows =>
      change a.insertCallerRows source_id stream rows = .ok a' at h
      unfold insertCallerRows at h
      split at h
      · simp only [Except.bind_eq_ok, Except.pure_eq_ok] at h
        obtain ⟨-, -, rfl⟩ := h
        rfl
      · obtain rfl := Except.pure_eq_ok.mp h
        rfl
  | insertSource =>
      obtain rfl := Except.ok.inj h
      exact hnone rfl
  | updateMetadata => exact hnone (by rw [updateSourceOrFail_tables h])
  | setIdentity => exact hnone (by rw [updateSourceOrFail_tables h])
  | markIncomplete => exact hnone (by rw [updateSourceOrFail_tables h])
  | finalize source_id ts offset =>
      simp only [Write.apply, Except.bind_eq_ok, Except.pure_eq_ok] at h
      obtain ⟨b, hb, rfl⟩ := h
      exact hnone (by rw [markComplete, updateSource_tables, insertClockOffset_tables hb])
  | startHeartbeat source_id interval =>
      obtain rfl := Except.ok.inj h
      exact hnone (by rw [beat_tables, setHeartbeatInterval, updateSource_tables a source_id])
  | beat ids =>
      obtain rfl := Except.ok.inj h
      exact hnone (by rw [beat_tables])
  | merge source_id stream run seq seg_meta bytes =>
      have hdelete : ∀ (run : List Nat) (a : Archive),
          (run.foldl (fun a seq => a.deleteSegment source_id stream seq) a).caller_rows =
            a.caller_rows := by
        intro run
        induction run with
        | nil => exact fun _ => rfl
        | cons seq run ih => exact fun a => ih _
      refine hnone ?_
      rw [(insertSegment_ok h).2]
      exact hdelete run a

theorem Write.callerRowsOf_apply {w : Write} (hw : w.evicts = false) {a a' : Archive}
    (h : w.apply a = .ok a') (k : StreamKey) : a'.callerRowsOf k =
      a.callerRowsOf k ++ (w.callerAppended.filter fun e => e.1 = k).map Prod.snd := by
  rw [callerRowsOf, w.caller_rows_apply hw h, List.filter_append, List.map_append]
  rfl

/-! ## Retention -/

section

variable {source_id : Int}

theorem sources_foldl_evictCallerRows {cutoff_ts : Int64} {floor : Option Archive.CallerRowFloor} :
    ∀ (names : List String) (a : Archive),
      (names.foldl (Archive.evictCallerRows source_id cutoff_ts floor) a).sources = a.sources
  | [], _ => rfl
  | _ :: names, _ => sources_foldl_evictCallerRows names _

theorem sources_foldl_evictStream {cutoff_ts : Int64} {floor : Option Archive.CallerRowFloor} :
    ∀ (streams : List String) (a : Archive), (streams.foldl (fun a stream =>
      Archive.evictCallerRows source_id cutoff_ts floor
        (Archive.evictStream source_id cutoff_ts a stream) stream) a).sources = a.sources
  | [], _ => rfl
  | _ :: streams, _ => sources_foldl_evictStream streams _

theorem sources_foldl_deleteSegment (stream : String) : ∀ (run : List Nat) (a : Archive),
    (run.foldl (fun a seq => a.deleteSegment source_id stream seq) a).sources = a.sources
  | [], _ => rfl
  | _ :: run, _ => sources_foldl_deleteSegment stream run _

/-- **No transaction takes a source away.** -/
theorem Write.sources_kept {w : Write} {a a' : Archive} (h : w.apply a = .ok a') {id : Int}
    (hid : (a.sources.get? id).isSome = true) : (a'.sources.get? id).isSome = true := by
  by_cases hw : w.evicts = false
  · obtain ⟨cols, hcols⟩ := Option.isSome_iff_exists.mp hid
    obtain ⟨cols', hcols'⟩ := (w.grown hw h).sources id cols hcols
    rw [hcols']
    rfl
  · cases w with
    | evict source_id cutoff_ts floor names =>
        obtain rfl := Except.ok.inj h
        have hsources : (a.evict source_id cutoff_ts floor names).sources = a.sources := by
          cases floor with
          | none => rfl
          | some f => exact sources_foldl_evictCallerRows names _
        rwa [hsources]
    | evictStreams source_id cutoff_ts floor streams =>
        obtain rfl := Except.ok.inj h
        have hsources : (a.evictStreams source_id cutoff_ts floor streams).sources = a.sources :=
          sources_foldl_evictStream streams a
        rwa [hsources]
    | _ => exact absurd rfl hw

end

end Dendro
