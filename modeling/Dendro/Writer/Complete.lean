import Dendro.Archive.Growth
import Dendro.Lib.Along
import Dendro.Writer.World

/-!
# What the complete flag promises

A source's `complete` flag says that nothing after its last row is missing. The finalize sets
it and a resume clears it. A tick names its sources by id, and nothing asks whether one of them
is complete; the same goes for a segment that is adopted and for the caller's rows.

`complete_truthful` is the condition under which the flag is true: no message brings rows for
a source that is complete when the message is handled. A finalized source that a tick names
(`ticked_after_finalize`) is the other case.
-/

namespace Dendro

open Relation

/-! ## Rows and finalizes of one source -/

/-- Whether a transaction brings a row of a source. -/
def Write.commitsRows (source_id : Int) : Write → Bool
  | .walRows ticks => ticks.any fun t => t.1 = source_id && !t.2.isEmpty
  | .adopt id _ _ => id = source_id
  | .callerRows id _ rows => id = source_id && !rows.isEmpty
  | _ => false

/-- Whether a transaction finalizes a source. -/
def Write.finalizes (source_id : Int) : Write → Bool
  | .finalize id _ _ => id = source_id
  | _ => false

/-- Whether a source's row says that it is complete. -/
def Archive.isComplete (a : Archive) (source_id : Int) : Bool :=
  ((a.sources.get? source_id).map (·.complete)).getD false

/-- What was committed after a source's last finalize. -/
def sinceFinalize (source_id : Int) (log : List (Archive × Write)) : List Write :=
  ((log.map Prod.snd).reverse.takeWhile fun w => !w.finalizes source_id).reverse

/-- A source whose flag is set was finalized, and no row of it was committed since. -/
def Disk.CompleteIsTrue (d : Disk) : Prop :=
  ∀ id ∈ d.db.sources.keys, d.db.isComplete id = true →
    (∃ e ∈ d.log, e.2.finalizes id = true) ∧
      ∀ w ∈ sinceFinalize id d.log, w.commitsRows id = false

instance (d : Disk) : Decidable d.CompleteIsTrue :=
  inferInstanceAs (Decidable (∀ id ∈ d.db.sources.keys, d.db.isComplete id = true →
    (∃ e ∈ d.log, e.2.finalizes id = true) ∧
      ∀ w ∈ sinceFinalize id d.log, w.commitsRows id = false))

/-- Whether a message brings rows of a source: a tick's rows that are neither below its floor
nor shadowed, a segment past its stream's watermark, and the caller's rows. -/
def Msg.BringsRows (m : Caches) (source_id : Int) : Msg → Prop
  | .wal ticks => ∃ t ∈ admitted m ticks, t.1 = source_id ∧ t.2 ≠ []
  | .adoptSegment id segment => id = source_id ∧
      ∀ w, m.watermarks.get? (streamKey id segment.stream) = some w → w < segment.seg_meta.first_ts
  | .callerRows id _ rows => id = source_id ∧ rows ≠ []
  | _ => False

/-- An event that brings no row of a source that is complete when it comes. -/
def Event.SparesComplete (w : World) : Event → Prop
  | .message _ msg _ => ∀ m, w.mem = some m → ∀ id, msg.BringsRows m id →
      w.disk.db.isComplete id = false
  | _ => True

/-! ## What a transaction makes of the flags -/

section

variable {a a' : Archive} {source_id : Int} {log : List (Archive × Write)} {w : Write}

theorem sinceFinalize_append : sinceFinalize source_id (log ++ [(a, w)]) =
    if w.finalizes source_id then [] else sinceFinalize source_id log ++ [w] := by
  unfold sinceFinalize
  rw [List.map_append, List.reverse_append]
  by_cases hw : w.finalizes source_id = true
  · simp [hw]
  · simp [hw]

theorem isComplete_updateSource {id : Int} {f : SourceCols → SourceCols}
    (h : (a.updateSource id f).isComplete source_id = true)
    (hf : ∀ s, id = source_id → (f s).complete = true → s.complete = true) :
    a.isComplete source_id = true := by
  unfold Archive.updateSource at h
  rcases hget : a.sources.get? id with _ | s
  · rwa [hget] at h
  · rw [hget] at h
    unfold Archive.isComplete at h ⊢
    dsimp only at h
    rw [OrdMap.get?_insert] at h
    by_cases hid : source_id = id
    · rw [if_pos hid] at h
      rw [hid, hget]
      exact hf s hid.symm h
    · rwa [if_neg hid] at h

theorem isComplete_updateSourceOrFail {id : Int} {f : SourceCols → SourceCols}
    (h : a.updateSourceOrFail id f = .ok a') (hc : a'.isComplete source_id = true)
    (hf : ∀ s, id = source_id → (f s).complete = true → s.complete = true) :
    a.isComplete source_id = true := by
  unfold Archive.updateSourceOrFail at h
  split at h
  · obtain rfl := Except.ok.inj h
    exact isComplete_updateSource hc hf
  · exact absurd h (by simp)

theorem isComplete_beat : ∀ (ids : List Int) {a : Archive},
    (a.beat ids).isComplete source_id = true → a.isComplete source_id = true
  | [], _, h => h
  | _ :: ids, _, h => isComplete_updateSource (isComplete_beat ids h) fun _ _ hs => hs

theorem isComplete_insertSource {seed : SourceMeta} {uuid : String}
    (h : (a.insertSource seed uuid).isComplete source_id = true) :
    a.isComplete source_id = true := by
  unfold Archive.insertSource Archive.isComplete at h
  dsimp only at h
  rw [OrdMap.get?_insert] at h
  by_cases hid : source_id = a.nextSourceId
  · rw [if_pos hid] at h
    exact absurd h (by simp)
  · rwa [if_neg hid] at h

theorem isComplete_of_sources (hs : a'.sources = a.sources) :
    a'.isComplete source_id = a.isComplete source_id := by
  rw [Archive.isComplete, Archive.isComplete, hs]

/-- **Only a finalize completes a source.** -/
theorem Write.isComplete (h : w.apply a = .ok a') (hc : a'.isComplete source_id = true) :
    w.finalizes source_id = true ∨ a.isComplete source_id = true := by
  cases w with
  | walRows ticks =>
      rw [(Archive.appended_insertWalRowsBatch h).frame] at hc
      exact .inr hc
  | «seal» id batch encoded observation =>
      simp only [Write.apply, Except.bind_eq_ok] at h
      obtain ⟨b, hb, h⟩ := h
      have hsources : a'.sources = a.sources := by
        have hframe : b.sources = a.sources := by rw [(Archive.sealed_of_insertEncoded hb).frame]
        cases observation with
        | none => exact Except.pure_eq_ok.mp h ▸ hframe
        | some o =>
            rw [Archive.insertClockOffset_tables h]
            exact hframe
      exact .inr (isComplete_of_sources hsources ▸ hc)
  | adopt =>
      rw [(Archive.insertSegment_ok h).2] at hc
      exact .inr hc
  | pruneWal =>
      obtain rfl := Except.ok.inj h
      exact .inr hc
  | evict id cutoff_ts floor names =>
      obtain rfl := Except.ok.inj h
      have hsources : (a.evict id cutoff_ts floor names).sources = a.sources := by
        cases floor with
        | none => rfl
        | some f => exact sources_foldl_evictCallerRows names _
      exact .inr (isComplete_of_sources hsources ▸ hc)
  | evictStreams id cutoff_ts floor streams =>
      obtain rfl := Except.ok.inj h
      have hsources : (a.evictStreams id cutoff_ts floor streams).sources = a.sources :=
        sources_foldl_evictStream streams a
      exact .inr (isComplete_of_sources hsources ▸ hc)
  | clockOffset =>
      rw [Archive.insertClockOffset_tables h] at hc
      exact .inr hc
  | callerRows =>
      rw [Archive.insertCallerRows_tables h] at hc
      exact .inr hc
  | insertSource =>
      obtain rfl := Except.ok.inj h
      exact .inr (isComplete_insertSource hc)
  | updateMetadata => exact .inr (isComplete_updateSourceOrFail h hc fun _ _ hs => hs)
  | setIdentity => exact .inr (isComplete_updateSourceOrFail h hc fun _ _ hs => hs)
  | markIncomplete =>
      exact .inr (isComplete_updateSourceOrFail h hc fun _ _ hs => absurd hs (by simp))
  | finalize id ts offset =>
      simp only [Write.apply, Except.bind_eq_ok, Except.pure_eq_ok] at h
      obtain ⟨b, hb, rfl⟩ := h
      by_cases hid : id = source_id
      · exact .inl (decide_eq_true hid)
      · have hbefore := isComplete_updateSource hc fun _ h _ => absurd h hid
        rw [Archive.insertClockOffset_tables hb] at hbefore
        exact .inr hbefore
  | startHeartbeat id interval_ns =>
      obtain rfl := Except.ok.inj h
      exact .inr (isComplete_updateSource (isComplete_beat _ hc) fun _ _ hs => hs)
  | beat =>
      obtain rfl := Except.ok.inj h
      exact .inr (isComplete_beat _ hc)
  | merge id stream run seq seg_meta bytes =>
      rw [(Archive.insertSegment_ok h).2] at hc
      exact .inr (isComplete_of_sources (sources_foldl_deleteSegment stream run a) ▸ hc)

/-- **A transaction that brings no row of a complete source keeps every flag true.** -/
theorem completeIsTrue_run {d : Disk} (h : d.CompleteIsTrue)
    (hw : ∀ id, w.commitsRows id = true → d.db.isComplete id = false) :
    (d.run w).2.CompleteIsTrue := by
  unfold Disk.run
  rcases ha : w.apply d.db with e | db
  · exact h
  intro id _ hc
  dsimp only at hc ⊢
  rw [sinceFinalize_append]
  rcases w.isComplete ha hc with hfinal | hbefore
  · rw [if_pos hfinal]
    exact ⟨⟨(d.db, w), by simp, hfinal⟩, by simp⟩
  · have hmem : id ∈ d.db.sources.keys := by
      unfold Archive.isComplete at hbefore
      rcases hget : d.db.sources.get? id with _ | cols
      · rw [hget] at hbefore
        exact absurd hbefore (by simp)
      · exact OrdMap.mem_keys.mpr ⟨cols, hget⟩
    obtain ⟨⟨e, he, hfinal⟩, hsince⟩ := h id hmem hbefore
    refine ⟨⟨e, List.mem_append_left _ he, hfinal⟩, fun x hx => ?_⟩
    split at hx
    · exact absurd hx (by simp)
    · rcases List.mem_append.mp hx with hx | hx
      · exact hsince x hx
      · obtain rfl := List.mem_singleton.mp hx
        by_contra hrows
        rw [hw id (by simpa using hrows)] at hbefore
        exact absurd hbefore (by simp)

end

/-! ## What a step makes of them -/

section

variable {env : Env} {msg : Msg} {s s' : WriterState}

theorem bringsRows_congr {m m' : Caches} (h : m'.knows = m.knows) (id : Int) :
    msg.BringsRows m' id ↔ msg.BringsRows m id := by
  have hw : m'.watermarks = m.watermarks := congrArg (·.2.1) h
  unfold Msg.BringsRows
  rw [admitted_congr h, hw]

/-- Every flag is true, and the message brings no row of a complete source. -/
structure Spared (msg : Msg) (s : WriterState) : Prop where
  isTrue : s.disk.CompleteIsTrue
  spares : ∀ id, msg.BringsRows s.mem id → s.db.isComplete id = false

theorem Spared.run {w : Write} {m : Caches} (h : Spared msg s)
    (hrows : ∀ id, w.commitsRows id = true → msg.BringsRows s.mem id)
    (hfinal : ∀ id, w.finalizes id = true → ¬msg.BringsRows m id)
    (hm : ∀ id, msg.BringsRows m id → msg.BringsRows s.mem id) :
    Spared msg { s.run w with mem := m } where
  isTrue := completeIsTrue_run h.isTrue fun id hid => h.spares id (hrows id hid)
  spares := by
    intro id hid
    have hbefore := h.spares id (hm id hid)
    rcases ha : w.apply s.db with e | db
    · rw [run_of_error ha]
      exact hbefore
    · rw [run_of_ok ha]
      by_contra hc
      rcases w.isComplete ha (by simpa using hc) with hfinalized | hcomplete
      · exact hfinal id hfinalized hid
      · rw [hbefore] at hcomplete
        exact absurd hcomplete (by simp)

/-- A transaction that brings no row and finalizes nothing. -/
theorem Spared.run_quiet {w : Write} (h : Spared msg s) (hrows : ∀ id, w.commitsRows id = false)
    (hfinal : ∀ id, w.finalizes id = false) : Spared msg (s.run w) :=
  h.run (m := s.mem) (fun id hid => absurd hid (by simp [hrows]))
    (fun id hid => absurd hid (by simp [hfinal])) fun _ hid => hid

/-- **Every step of a message that spares the complete sources keeps the flags true.** -/
theorem Spared.step (h : Spared msg s) (hs : WriterStep env msg s s') : Spared msg s' := by
  cases hs with
  | memory hm => exact ⟨h.isTrue, fun id hid => h.spares id ((bringsRows_congr hm id).mp hid)⟩
  | resumed hmsg => exact ⟨h.isTrue, fun id hid => absurd hid (by simp [hmsg, Msg.BringsRows])⟩
  | @beside w hw hasked =>
      refine h.run (m := s.mem) (fun id hid => ?_) (fun id hid => ?_) fun _ hid => hid
      · cases w with
        | callerRows source_id stream rows =>
            obtain rfl : msg = .callerRows source_id stream rows := hasked
            simpa [Write.commitsRows, Msg.BringsRows] using hid
        | walRows => exact absurd hw (by simp [Write.beside])
        | adopt => exact absurd hw (by simp [Write.beside])
        | _ => exact absurd hid (by simp [Write.commitsRows])
      · cases w with
        | finalize source_id ts offset =>
            obtain rfl : msg = .finalize source_id (ts, offset) := hasked
            exact fun h => h
        | _ => exact absurd hid (by simp [Write.finalizes])
  | @walRows asked ticks hmsg hsub _ _ =>
      refine h.run (m := s.mem) (fun id hid => ?_) (fun id hid => absurd hid (by simp [Write.finalizes]))
        fun _ hid => hid
      subst hmsg
      obtain ⟨t, ht, hkey⟩ := List.any_eq_true.mp hid
      refine ⟨t, hsub ht, ?_⟩
      simpa using hkey
  | prune => exact h.run_quiet (fun _ => rfl) fun _ => rfl
  | evict => exact h.run_quiet (fun _ => rfl) fun _ => rfl
  | evictStreams => exact h.run_quiet (fun _ => rfl) fun _ => rfl
  | sealed hmsg =>
      have hnone : ∀ m id, ¬msg.BringsRows m id := by
        intro m id
        cases msg with
        | «seal» => exact not_false
        | evict => exact not_false
        | _ => exact absurd hmsg (by simp [Msg.seals])
      exact h.run (fun id hid => absurd hid (by simp [Write.commitsRows])) (fun id _ => hnone _ id)
        fun id hid => absurd hid (hnone _ id)
  | sealRefused => exact h.run_quiet (fun _ => rfl) fun _ => rfl
  | @adopted source_id segment db hmsg hplan hdb =>
      subst hmsg
      refine h.run (fun id hid => ⟨of_decide_eq_true hid, hplan.past⟩)
        (fun id hid => absurd hid (by simp [Write.finalizes])) ?_
      -- the segment is not past the watermark that it left
      rintro id ⟨-, hpast⟩
      have hbelow := hpast segment.seg_meta.last_ts (OrdMap.get?_insert_self _ _ _)
      exact absurd hplan.span (not_le.mpr hbelow)
  | @adoptRefused source_id segment e hmsg hplan he =>
      subst hmsg
      exact h.run (m := s.mem) (fun id hid => ⟨of_decide_eq_true hid, hplan.past⟩)
        (fun id hid => absurd hid (by simp [Write.finalizes])) fun _ hid => hid

theorem Spared.steps (h : Spared msg s) (hs : ReflTransGen (WriterStep env msg) s s') :
    Spared msg s' := by
  induction hs with
  | refl => exact h
  | tail _ hlast ih => exact ih.step hlast

end

/-! ## Every run -/

theorem completeIsTrue_create (layout : IndexLayout) : (Disk.create layout).CompleteIsTrue :=
  fun _ hid => absurd hid List.not_mem_nil

theorem completeIsTrue_apply {w : World} (h : w.disk.CompleteIsTrue) {e : Event}
    (he : e.SparesComplete w) : (w.apply e).disk.CompleteIsTrue := by
  cases e with
  | message env msg faults =>
      unfold World.apply
      rcases hm : w.mem with _ | m
      · exact h
      · have hspared : Spared msg { disk := w.disk, mem := m } := ⟨h, he m hm⟩
        exact (hspared.steps ((handle_runs env msg _).steps faults)).isTrue
  | beat faults =>
      unfold World.apply
      rcases hm : w.mem with _ | m
      · exact h
      · have hspared : Spared .sync { disk := w.disk, mem := m } := ⟨h, fun _ hid => hid.elim⟩
        exact (hspared.steps ((beatTimer_runs Env.idle .sync _).steps faults)).isTrue
  | kill => exact h
  | reopen =>
      unfold World.apply
      rcases w.mem with _ | m <;> exact h

theorem completeIsTrue_along : ∀ {events : List Event} {w : World}, w.disk.CompleteIsTrue →
    Along World.apply (fun w e => e.SparesComplete w) w events → (w.run events).disk.CompleteIsTrue
  | [], _, h, _ => h
  | _ :: events, _, h, he => @completeIsTrue_along events _ (completeIsTrue_apply h he.1) he.2

/-- **The complete flag is true where no message brings rows for a complete source.** In every
run of the writer, whatever fails and wherever the process is killed, a source whose flag is
set was finalized and had no row committed since, if every message of the run that brings rows
for a source finds it not complete. -/
theorem complete_truthful (layout : IndexLayout) (events : List Event)
    (h : Along World.apply (fun w e => e.SparesComplete w) (World.create layout) events) :
    ((World.create layout).run events).disk.CompleteIsTrue :=
  completeIsTrue_along (completeIsTrue_create layout) h

/-- A source that is written, finalized, resumed, and written again. -/
def finalizedThenResumed : List Event :=
  [.message Env.idle (.addSource { labels := ∅, metadata := ∅, clock_anchor_wall_ns := 0 } none) [],
    .message Env.idle (.wal [(1, [{ stream := "cpu", ts := 5, wall_offset := 0, row := [1] }])]) [],
    .message Env.idle (.finalize 1 (5, 0)) [],
    .message Env.idle (.resumeSource 1 6) [],
    .message Env.idle (.wal [(1, [{ stream := "cpu", ts := 9, wall_offset := 0, row := [2] }])]) []]

theorem complete_truthful_finalizedThenResumed :
    ((World.create .table).run finalizedThenResumed).disk.CompleteIsTrue := by
  refine complete_truthful .table finalizedThenResumed ⟨fun _ _ _ h => h.elim, ?_,
    fun _ _ _ h => h.elim, fun _ _ _ h => h.elim, ?_, trivial⟩
  · rintro m hm id ⟨t, ht, rfl, -⟩
    obtain rfl := Option.some.inj hm
    revert t
    decide +kernel
  · rintro m hm id ⟨t, ht, rfl, -⟩
    obtain rfl := Option.some.inj hm
    revert t
    decide +kernel

/-- A source that is written, finalized, and named by another tick. -/
def finalizedThenTicked : List Event :=
  [.message Env.idle (.addSource { labels := ∅, metadata := ∅, clock_anchor_wall_ns := 0 } none) [],
    .message Env.idle (.wal [(1, [{ stream := "cpu", ts := 5, wall_offset := 0, row := [1] }])]) [],
    .message Env.idle (.finalize 1 (5, 0)) [],
    .message Env.idle (.wal [(1, [{ stream := "cpu", ts := 9, wall_offset := 0, row := [2] }])]) []]

/-- **A tick adds rows to a complete source**, and it stays complete. -/
theorem ticked_after_finalize :
    ¬((World.create .table).run finalizedThenTicked).disk.CompleteIsTrue := by
  decide +kernel

end Dendro
