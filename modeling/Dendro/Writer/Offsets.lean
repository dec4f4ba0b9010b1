import Dendro.Archive.Growth
import Dendro.Writer.World

/-!
# Where a clock observation comes from

`clock_offsets` is written by three transactions, each with one observation: the caller's, a
finalize's, and the one a seal makes of its newest row. An observation at a timestamp that has one
already is ignored. So every observation of the file stood in a transaction of its log, and the
source it names is in the file (`Referenced`).
-/

namespace Dendro

open Archive Relation

/-- The clock observation a transaction brings, and its source. -/
def Write.observation : Write → Option (Int × Int64 × Int64)
  | .clockOffset source_id ts offset_ns => some (source_id, ts, offset_ns)
  | .finalize source_id ts offset_ns => some (source_id, ts, offset_ns)
  | .seal source_id _ _ (some (ts, offset_ns)) => some (source_id, ts, offset_ns)
  | _ => none

/-- An observation a transaction made of a source that is there, where there was none. -/
structure NewOffset (a : Archive) (observation : Option (Int × Int64 × Int64)) (source_id : Int)
    (ts offset_ns : Int64) : Prop where
  observed : observation = some (source_id, ts, offset_ns)
  source : (a.sources.get? source_id).isSome = true
  first : a.clock_offsets.get? (toLex (source_id, ts)) = none

section

variable {a a' : Archive} {id source_id : Int} {ts offset ts' offset' : Int64}

theorem offset_insertClockOffset (h : a.insertClockOffset id ts offset = .ok a')
    (hget : a'.clock_offsets.get? (toLex (source_id, ts')) = some offset') :
    a.clock_offsets.get? (toLex (source_id, ts')) = some offset' ∨
      NewOffset a (some (id, ts, offset)) source_id ts' offset' := by
  unfold insertClockOffset at h
  dsimp only at h
  split at h
  · obtain rfl := Except.pure_eq_ok.mp h
    exact .inl hget
  · rename_i hnew
    simp only [Except.bind_eq_ok, Except.pure_eq_ok] at h
    obtain ⟨_, hsource, rfl⟩ := h
    rw [OrdMap.get?_insert] at hget
    split at hget
    · rename_i hkey
      obtain rfl := Option.some.inj hget
      obtain ⟨rfl, rfl⟩ : source_id = id ∧ ts' = ts := by simpa using hkey
      refine .inr ⟨rfl, ?_, by simpa using hnew⟩
      unfold checkSource at hsource
      split at hsource
      · assumption
      · exact absurd hsource (by simp)
    · exact .inl hget

theorem offset_evictClockOffsets {cut : Int64} {k : Int ×ₗ Int64} {v : Int64}
    (hget : (a.evictClockOffsets id cut).clock_offsets.get? k = some v) :
    a.clock_offsets.get? k = some v :=
  (OrdMap.get?_filter_eq_some.mp hget).1

theorem clock_offsets_foldl_evictCallerRows {cutoff_ts : Int64} {floor : Option CallerRowFloor} :
    ∀ (names : List String) (a : Archive),
      (names.foldl (evictCallerRows id cutoff_ts floor) a).clock_offsets = a.clock_offsets
  | [], _ => rfl
  | _ :: names, _ => clock_offsets_foldl_evictCallerRows names _

theorem clock_offsets_foldl_evictStream {cutoff_ts : Int64} {floor : Option CallerRowFloor} :
    ∀ (streams : List String) (a : Archive), (streams.foldl (fun a stream =>
      evictCallerRows id cutoff_ts floor (evictStream id cutoff_ts a stream) stream)
        a).clock_offsets = a.clock_offsets
  | [], _ => rfl
  | _ :: streams, _ => clock_offsets_foldl_evictStream streams _

theorem clock_offsets_foldl_deleteSegment (stream : String) : ∀ (run : List Nat) (a : Archive),
    (run.foldl (fun a seq => a.deleteSegment id stream seq) a).clock_offsets = a.clock_offsets
  | [], _ => rfl
  | _ :: run, _ => clock_offsets_foldl_deleteSegment stream run _

/-- **An observation of the file was there before a transaction, or is the one it made.** -/
theorem Write.offset_origin {w : Write} (h : w.apply a = .ok a')
    (hget : a'.clock_offsets.get? (toLex (source_id, ts)) = some offset) :
    a.clock_offsets.get? (toLex (source_id, ts)) = some offset ∨
      NewOffset a w.observation source_id ts offset := by
  cases w with
  | walRows ticks =>
      rw [(appended_insertWalRowsBatch h).frame] at hget
      exact .inl hget
  | «seal» id batch encoded observation =>
      simp only [Write.apply, Except.bind_eq_ok] at h
      obtain ⟨b, hb, h⟩ := h
      have hframe := (sealed_of_insertEncoded hb).frame
      cases observation with
      | none =>
          obtain rfl := Except.pure_eq_ok.mp h
          rw [hframe] at hget
          exact .inl hget
      | some o =>
          refine (offset_insertClockOffset h hget).imp (fun h => ?_) fun h => ⟨h.observed, ?_, ?_⟩
          · rwa [hframe] at h
          · have hsource := h.source
            rwa [hframe] at hsource
          · have hfirst := h.first
            rwa [hframe] at hfirst
  | adopt =>
      rw [(insertSegment_ok h).2] at hget
      exact .inl hget
  | pruneWal =>
      obtain rfl := Except.ok.inj h
      exact .inl hget
  | evict id cutoff_ts floor names =>
      obtain rfl := Except.ok.inj h
      have hkept : (a.evict id cutoff_ts floor names).clock_offsets =
          (a.evictClockOffsets id cutoff_ts).clock_offsets := by
        cases floor with
        | none => rfl
        | some f => exact clock_offsets_foldl_evictCallerRows names _
      rw [hkept] at hget
      exact .inl (offset_evictClockOffsets hget)
  | evictStreams id cutoff_ts floor streams =>
      obtain rfl := Except.ok.inj h
      have hbefore := offset_evictClockOffsets hget
      rw [clock_offsets_foldl_evictStream] at hbefore
      exact .inl hbefore
  | clockOffset => exact offset_insertClockOffset h hget
  | callerRows =>
      rw [insertCallerRows_tables h] at hget
      exact .inl hget
  | insertSource =>
      obtain rfl := Except.ok.inj h
      exact .inl hget
  | updateMetadata =>
      rw [updateSourceOrFail_tables h] at hget
      exact .inl hget
  | setIdentity =>
      rw [updateSourceOrFail_tables h] at hget
      exact .inl hget
  | markIncomplete =>
      rw [updateSourceOrFail_tables h] at hget
      exact .inl hget
  | finalize id ts offset =>
      simp only [Write.apply, Except.bind_eq_ok, Except.pure_eq_ok] at h
      obtain ⟨b, hb, rfl⟩ := h
      rw [markComplete, updateSource_tables] at hget
      exact offset_insertClockOffset hb hget
  | startHeartbeat id interval_ns =>
      obtain rfl := Except.ok.inj h
      rw [beat_tables, setHeartbeatInterval, updateSource_tables a id] at hget
      exact .inl hget
  | beat ids =>
      obtain rfl := Except.ok.inj h
      rw [beat_tables] at hget
      exact .inl hget
  | merge id stream run seq seg_meta bytes =>
      rw [(insertSegment_ok h).2] at hget
      exact .inl (clock_offsets_foldl_deleteSegment stream run a ▸ hget)

/-! ## Sources that are there -/

/-- Every observation is of a source that is in the file. -/
def Archive.Referenced (a : Archive) : Prop :=
  ∀ id ts offset, a.clock_offsets.get? (toLex (id, ts)) = some offset →
    (a.sources.get? id).isSome = true

theorem referenced_create (layout : IndexLayout) : (Archive.create layout).Referenced :=
  fun _ _ _ h => absurd h (by simp [Archive.create])

theorem Archive.Referenced.apply (ha : a.Referenced) {w : Write} (h : w.apply a = .ok a') :
    a'.Referenced := by
  intro id ts offset hget
  rcases w.offset_origin h hget with hbefore | hnew
  · exact w.sources_kept h (ha id ts offset hbefore)
  · exact w.sources_kept h hnew.source

theorem WriterStep.referenced {env : Env} {msg : Msg} {s s' : WriterState}
    (h : WriterStep env msg s s') (hs : s.db.Referenced) : s'.db.Referenced := by
  rcases h.record with ⟨-, hdb⟩ | ⟨w, -, happly⟩
  · exact hdb ▸ hs
  · exact hs.apply happly

/-- **In every run of the writer, whatever fails, every observation is of a source that is
there.** -/
theorem referenced_run (layout : IndexLayout) (events : List Event) :
    ((World.create layout).run events).disk.db.Referenced := by
  have hinv : Invariant (fun _ _ => True) (fun d => d.db.Referenced) fun s => s.db.Referenced :=
    ⟨fun _ h => h, fun _ h => h, fun _ h hs => h.referenced hs, trivial⟩
  refine (hinv.run ⟨referenced_create layout, ?_⟩ fun (e : Event) (_ : e ∈ events) => ?_).disk
  · rintro m -
    exact referenced_create layout
  · cases e <;> trivial

/-! ## While a message is handled -/

/-- The observation a message asks to record. -/
def Msg.observation : Msg → Option (Int × Int64 × Int64)
  | .clockOffset source_id ts offset_ns => some (source_id, ts, offset_ns)
  | .finalize source_id clock_offset => some (source_id, clock_offset.1, clock_offset.2)
  | _ => none

/-- A row of a source that the writer of the file sealed: the newest of one of its segments. -/
def Disk.SealedRow (d : Disk) (source_id : Int) (ts wall_offset : Int64) : Prop :=
  ∃ a batch encoded observation, (a, Write.seal source_id batch encoded observation) ∈ d.log ∧
    ∃ e ∈ encoded, ∃ r ∈ a.liveWal source_id e.stream,
      r.ts = e.seg_meta.last_ts ∧ r.ts = ts ∧ r.wall_offset = wall_offset

variable {env : Env} {msg : Msg} {s s' : WriterState}

theorem Disk.SealedRow.mono {d d' : Disk} (h : d.SealedRow id ts offset)
    (hlog : d.log <+: d'.log) : d'.SealedRow id ts offset := by
  obtain ⟨a, batch, encoded, observation, hmem, hrow⟩ := h
  exact ⟨a, batch, encoded, observation, hlog.subset hmem, hrow⟩

/-- A message that is no retention pass takes no observation away. -/
theorem WriterStep.grown (h : WriterStep env msg s s')
    (hmsg : ∀ id cutoff streams floor, msg ≠ .evict id cutoff streams floor) :
    Grown s.db s'.db := by
  have hrun : ∀ w : Write, w.evicts = false → Grown s.db (s.run w).db := by
    intro w hw
    rcases run_record s w with ⟨-, hdb⟩ | ⟨-, happly⟩
    · rw [hdb]
      exact .refl s.db
    · exact w.grown hw happly
  cases h with
  | memory | resumed => exact .refl _
  | @beside w hw _ =>
      refine hrun w ?_
      cases w with
      | evict | evictStreams => exact absurd hw (by simp [Write.beside])
      | _ => rfl
  | walRows => exact hrun _ rfl
  | prune => exact hrun _ rfl
  | evict _ _ _ _ he =>
      obtain ⟨_, he⟩ := he
      exact absurd he (hmsg _ _ _ _)
  | evictStreams _ _ _ _ he =>
      obtain ⟨_, he⟩ := he
      exact absurd he (hmsg _ _ _ _)
  | sealed => exact hrun _ rfl
  | sealRefused => exact hrun _ rfl
  | adopted => exact hrun _ rfl
  | adoptRefused => exact hrun _ rfl

/-- **An observation of the file was there before a step, or the message asked for it, or it is of
a row that the step sealed.** -/
theorem WriterStep.offset_origin (h : WriterStep env msg s s')
    (hget : s'.db.clock_offsets.get? (toLex (id, ts)) = some offset) :
    s.db.clock_offsets.get? (toLex (id, ts)) = some offset ∨
      msg.observation = some (id, ts, offset) ∨ s'.disk.SealedRow id ts offset := by
  have hrun : ∀ w : Write, (s.run w).db.clock_offsets.get? (toLex (id, ts)) = some offset →
      s.db.clock_offsets.get? (toLex (id, ts)) = some offset ∨
        (w.observation = some (id, ts, offset) ∧ (s.run w).disk.log = s.disk.log ++ [(s.db, w)]) := by
    intro w hw
    rcases run_record s w with ⟨-, hdb⟩ | ⟨hlog, happly⟩
    · exact .inl (hdb ▸ hw)
    · exact (w.offset_origin happly hw).imp_right fun h => ⟨h.observed, hlog⟩
  have hnone : ∀ w : Write, w.observation = none →
      (s.run w).db.clock_offsets.get? (toLex (id, ts)) = some offset →
        s.db.clock_offsets.get? (toLex (id, ts)) = some offset := by
    intro w hw hget
    refine (hrun w hget).resolve_right fun h => ?_
    rw [hw] at h
    exact absurd h.1 (by simp)
  cases h with
  | memory | resumed => exact .inl hget
  | @beside w hw hasked =>
      refine (hrun w hget).imp_right fun h => .inl ?_
      obtain ⟨hobserved, -⟩ := h
      cases w with
      | clockOffset =>
          rw [show msg = _ from hasked]
          exact hobserved
      | finalize =>
          rw [show msg = _ from hasked]
          exact hobserved
      | «seal» => exact absurd hw (by simp [Write.beside])
      | _ => exact absurd hobserved (by simp [Write.observation])
  | walRows => exact .inl (hnone _ rfl hget)
  | prune => exact .inl (hnone _ rfl hget)
  | evict => exact .inl (hnone _ rfl hget)
  | evictStreams => exact .inl (hnone _ rfl hget)
  | @sealed source_id batch encoded parts observation db _ _ hobserved happly =>
      refine (hrun _ hget).imp_right fun h => .inr ?_
      obtain ⟨hobservation, hlog⟩ := h
      have ho : source_id = id ∧ observation = some (ts, offset) := by
        rcases observation with _ | ⟨ts', offset'⟩
        · exact absurd hobservation (by simp [Write.observation])
        · simpa [Write.observation] using hobservation
      obtain ⟨rfl, rfl⟩ := ho
      obtain ⟨e, he, r, hr, hlast, hrow⟩ := hobserved _ rfl
      obtain ⟨rfl, rfl⟩ := Prod.mk.inj hrow
      exact ⟨s.db, batch, encoded, _, hlog ▸ List.mem_concat_self, e, he, r, hr, hlast, rfl, rfl⟩
  | sealRefused _ _ happly =>
      refine .inl ?_
      rwa [run_of_error happly] at hget
  | adopted => exact .inl (hnone _ rfl hget)
  | adoptRefused => exact .inl (hnone _ rfl hget)

theorem handled_grown (hs : ReflTransGen (WriterStep env msg) s s')
    (hmsg : ∀ id cutoff streams floor, msg ≠ .evict id cutoff streams floor) :
    Grown s.db s'.db := by
  induction hs with
  | refl => exact .refl s.db
  | tail _ hlast ih => exact ih.trans (hlast.grown hmsg)

/-- **An observation of the file was there before a message, or the message asked for it, or it is
of a row that was sealed.** -/
theorem handled_offset (hs : ReflTransGen (WriterStep env msg) s s')
    (hget : s'.db.clock_offsets.get? (toLex (id, ts)) = some offset) :
    s.db.clock_offsets.get? (toLex (id, ts)) = some offset ∨
      msg.observation = some (id, ts, offset) ∨ s'.disk.SealedRow id ts offset := by
  induction hs with
  | refl => exact .inl hget
  | tail hs hlast ih =>
      rcases hlast.offset_origin hget with hbefore | hlater
      · exact (ih hbefore).imp_right fun h => h.imp_right fun h => h.mono hlast.log_prefix
      · exact .inr hlater

end

end Dendro
