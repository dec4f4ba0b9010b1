import Dendro.Replicate.Subscriber
import Dendro.Writer.FaultFree

/-!
# Frames delivered to a subscriber

A `Delivery` is one `apply`: the frame, and what its calls meet. `Heard` says once what an `apply`
in which no call fails does, for each kind of frame, and `apply_heard` that it does that; what a
run of deliveries keeps is then a case analysis over the frames.
-/

namespace Dendro.Replicate

open Dendro SubscribeM

/-! ## Deliveries -/

/-- One frame on its way to a subscriber: what its `apply` runs in, and the faults it meets. -/
structure Delivery where
  env : Env
  frame : Frame
  faults : List (Fault StorageFailure)

namespace Subscriber

/-- What an `apply` answers. -/
def answer (sub : Subscriber) (d : Delivery) : Outcome Error Applied :=
  (sub.apply d.env d.frame d.faults).1

/-- What an `apply` leaves. -/
def deliver (sub : Subscriber) (d : Delivery) : Subscriber :=
  (sub.apply d.env d.frame d.faults).2.1

/-- What some deliveries leave. A frame that is refused does not keep the next from being
applied. -/
def deliverAll (sub : Subscriber) (ds : List Delivery) : Subscriber := ds.foldl deliver sub

theorem deliverAll_append (sub : Subscriber) (ds ds' : List Delivery) :
    sub.deliverAll (ds ++ ds') = (sub.deliverAll ds).deliverAll ds' := List.foldl_append

end Subscriber

/-! ## What an apply does -/

/-- The refusal of a frame whose source no handshake introduced. -/
def unknownSource (source : UInt32) : Error :=
  .message (s!"replication frame for source {source}, which no handshake " ++
    "has introduced; every frame names a source by the ordinal its handshake assigned")

/-- A segment of a frame, as it is offered for adoption. -/
abbrev offered (stream : String) (seg_meta : SegmentMeta) (bytes : Bytes)
    (caller_index : Option Bytes) : Adopted := { stream, seg_meta, bytes, caller_index }

/-- What the answer to an adoption counts. -/
def countAdopted : Except Error Bool → Outcome Error Applied
  | .ok inserted => .ok { Applied.none with
      segments := inserted.toNat, segments_held := (!inserted).toNat }
  | .error e => .err e

/-- **What the `apply` of a frame does where no call fails**: its answer, and what it leaves. -/
inductive Heard (sub : Subscriber) : Frame → Outcome Error Applied → Subscriber → Prop where
  | handshake {source : UInt32} {uuid : Option String} {labels metadata : StringMap}
      {anchor : Int64} {complete : Bool} {thread : WriterState} :
      RowSet sub.thread sub.thread.db.nextSourceId (Seeded ⟨labels, metadata, anchor⟩ uuid) thread →
      Heard sub (.handshake source uuid labels metadata anchor complete)
        (.ok { Applied.none with sources := 1 })
        { sub with
          thread
          sources := sub.sources.insert source (.start sub.thread.db.nextSourceId complete) }
  | index {source : UInt32} {stream : String} {ts : Int64} {kind : IndexKind} {state : IndexState}
      {blob : Bytes} {st : SourceState} {thread : WriterState} :
      sub.sources.get? source = some st →
      sub.thread.db.insertCallerRows st.writer stream [⟨ts, blob⟩] = .ok thread.db →
      thread.mem.knows = sub.thread.mem.knows →
      Heard sub (.index source stream ts kind state blob)
        (.ok { Applied.none with index_entries := 1 })
        { sub with
          thread
          sources := sub.sources.insert source
            { st with index_state := state, seen_full := st.seen_full || kind = .full } }
  | skipped {source : UInt32} {seq : UInt64} {state : IndexState} {rows : List WalRow}
      {st : SourceState} :
      sub.sources.get? source = some st → Subscriber.skips st state = true →
      Heard sub (.rows source seq state rows)
        (.ok { Applied.none with
          rows_skipped := rows.length, gap := Subscriber.isGap st.last_seq seq })
        { sub with sources := sub.sources.insert source { st with last_seq := some seq } }
  | written {source : UInt32} {seq : UInt64} {state : IndexState} {rows : List WalRow}
      {st : SourceState} {thread : WriterState} :
      sub.sources.get? source = some st → Subscriber.skips st state = false →
      WalOnly sub.thread thread →
      Heard sub (.rows source seq state rows)
        (.ok { Applied.none with rows := rows.length, gap := Subscriber.isGap st.last_seq seq })
        { sub with thread, sources := sub.sources.insert source { st with last_seq := some seq } }
  | segment {source : UInt32} {stream : String} {seg_meta : SegmentMeta} {bytes : Bytes}
      {caller_index : Option Bytes} {st : SourceState} {inserted : Except Error Bool}
      {thread : WriterState} :
      sub.sources.get? source = some st →
      AdoptEnd st.writer (offered stream seg_meta bytes caller_index) sub.thread inserted thread →
      Heard sub (.segment source stream seg_meta bytes caller_index) (countAdopted inserted)
        { sub with thread }
  | clockOffset {source : UInt32} {ts offset_ns : Int64} {st : SourceState}
      {thread : WriterState} :
      sub.sources.get? source = some st →
      sub.thread.db.insertClockOffset st.writer ts offset_ns = .ok thread.db →
      thread.mem.knows = sub.thread.mem.knows →
      Heard sub (.clockOffset source ts offset_ns)
        (.ok { Applied.none with clock_offsets := 1 })
        { sub with
          thread
          sources := sub.sources.insert source { st with last_offset := some (ts, offset_ns) } }
  | sourceUpdate {source : UInt32} {ts : Int64} {labels metadata : StringMap} {st : SourceState}
      {old : SourceCols} {thread : WriterState} :
      sub.sources.get? source = some st → sub.thread.db.sources.get? st.writer = some old →
      RowSet sub.thread st.writer (Renamed labels metadata old) thread →
      Heard sub (.sourceUpdate source ts labels metadata)
        (.ok { Applied.none with source_updates := 1 }) { sub with thread }
  /-- A source that no handshake introduced. -/
  | unknown {f : Frame} : (∀ o u l m a c, f ≠ .handshake o u l m a c) →
      sub.sources.get? f.source = none → Heard sub f (.err (unknownSource f.source)) sub

/-- A subscriber whose thread runs, and whose handles are of sources that are there. -/
structure Subscriber.Sound (sub : Subscriber) : Prop where
  going : sub.stopped = none
  rows : ∀ o st, sub.sources.get? o = some st → ∃ cols, sub.thread.db.sources.get? st.writer = some cols

theorem Subscriber.sound_new (thread : WriterState) : (Subscriber.new thread).Sound where
  going := rfl
  rows o st h := absurd h (by simp [Subscriber.new])

section

variable {sub : Subscriber} {env : Env} {Q : Reply → WriterState → Prop}

theorem goes_post {msg : Msg} (hgoing : sub.stopped = none)
    (h : Prog.Goes (handle env msg) sub.thread Q fun _ _ => False) :
    Prog.Goes (post env msg) sub (fun _ sub' => ∃ r thread, sub' = { sub with thread } ∧ Q r thread)
      fun _ _ => False := by
  rcases h with ⟨r, thread, hr, hq⟩ | ⟨_, _, _, h⟩
  · refine .inl ⟨(), { sub with thread }, ?_, r, thread, rfl, hq⟩
    unfold post
    rw [hgoing, hr]
  · exact h.elim

theorem goes_request {msg : Msg} (hgoing : sub.stopped = none)
    (h : Prog.Goes (handle env msg) sub.thread Q fun _ _ => False) :
    Prog.Goes (request env msg) sub (fun r sub' => ∃ thread, sub' = { sub with thread } ∧ Q r thread)
      fun _ _ => False := by
  rcases h with ⟨r, thread, hr, hq⟩ | ⟨_, _, _, h⟩
  · refine .inl ⟨r, { sub with thread }, ?_, thread, rfl, hq⟩
    unfold request
    rw [hgoing, hr]
  · exact h.elim

theorem run_sourceMut_some {source : UInt32} {st : SourceState}
    (h : sub.sources.get? source = some st) (fs : List (Fault StorageFailure)) :
    sourceMut source sub fs = (.ok st, sub, fs) := by
  unfold sourceMut
  simp [Prog.run_bind, Prog.state, Prog.run_pure, h]

theorem run_sourceMut_none {source : UInt32} (h : sub.sources.get? source = none)
    (fs : List (Fault StorageFailure)) :
    sourceMut source sub fs = (.err (unknownSource source), sub, fs) := by
  unfold sourceMut
  simp [Prog.run_bind, Prog.state, Prog.fail, unknownSource, h]

/-- A frame of an unknown source is refused before anything is done. -/
theorem goes_unknown {source : UInt32} {α : Type} {k : SourceState → SubscribeM α}
    {P : α → Subscriber → Prop} {E : Error → Subscriber → Prop}
    (h : sub.sources.get? source = none) (hE : E (unknownSource source) sub) :
    Prog.Goes (sourceMut source >>= k) sub P E :=
  .inr ⟨unknownSource source, sub, by rw [Prog.run_bind, run_sourceMut_none h], hE⟩

theorem goes_known {source : UInt32} {st : SourceState} {α : Type} {k : SourceState → SubscribeM α}
    {P : α → Subscriber → Prop} {E : Error → Subscriber → Prop}
    (h : sub.sources.get? source = some st) (hk : Prog.Goes (k st) sub P E) :
    Prog.Goes (sourceMut source >>= k) sub P E := by
  unfold Prog.Goes at hk ⊢
  rwa [Prog.run_bind_ok (run_sourceMut_some h [])]

end

section Apply

variable {sub : Subscriber} {env : Env}

/-- What is left to show of a frame whose source was introduced. -/
theorem goes_apply_of_known {f : Frame} {k : SourceState → SubscribeM Applied}
    (hf : ∀ o u l m a c, f ≠ .handshake o u l m a c)
    (happly : Subscriber.apply env f = sourceMut f.source >>= k)
    (h : ∀ st, sub.sources.get? f.source = some st → Prog.Goes (k st) sub
      (fun a sub' => Heard sub f (.ok a) sub') fun e sub' => Heard sub f (.err e) sub') :
    Prog.Goes (Subscriber.apply env f) sub (fun a sub' => Heard sub f (.ok a) sub')
      fun e sub' => Heard sub f (.err e) sub' := by
  rw [happly]
  rcases hget : sub.sources.get? f.source with _ | st
  · exact goes_unknown hget (.unknown hf hget)
  · exact goes_known hget (h st hget)

/-- **The `apply` of a frame does what `Heard` says.** -/
theorem goes_apply (h : sub.Sound) (f : Frame) :
    Prog.Goes (Subscriber.apply env f) sub (fun a sub' => Heard sub f (.ok a) sub')
      fun e sub' => Heard sub f (.err e) sub' := by
  cases f with
  | handshake source uuid labels metadata anchor complete =>
      unfold Subscriber.apply
      refine Prog.Goes.bind (Q := fun id sub' => id = sub.thread.db.nextSourceId ∧
        ∃ thread, sub' = { sub with thread } ∧ RowSet sub.thread sub.thread.db.nextSourceId
          (Seeded ⟨labels, metadata, anchor⟩ uuid) thread) ?_ ?_
      · unfold addSourceWithUuid
        refine ((goes_request h.going (goes_addSource _ _)).mono (fun _ _ h' => h')
          fun _ _ h' => h'.elim).bind ?_
        rintro _ _ ⟨thread, rfl, rfl, hset⟩
        exact .pure ⟨rfl, thread, rfl, hset⟩
      · rintro _ _ ⟨rfl, thread, rfl, hset⟩
        exact Prog.Goes.bind (Q := fun _ sub' => sub' = { sub with
            thread, sources := sub.sources.insert source
              (.start sub.thread.db.nextSourceId complete) })
          (.update rfl) fun _ _ hsub => .pure (hsub ▸ .handshake hset)
  | index source stream ts kind state blob =>
      refine goes_apply_of_known (by simp) rfl fun st hst => ?_
      obtain ⟨cols, hcols⟩ := h.rows source st hst
      refine ((goes_post h.going (goes_callerRows stream _ hcols)).mono (fun _ _ h' => h')
          fun _ _ h' => h'.elim).bind ?_
      rintro _ _ ⟨_, thread, rfl, hdb, hknows⟩
      exact Prog.Goes.bind (Q := fun _ sub' => sub' = { sub with
          thread, sources := sub.sources.insert source
            { st with index_state := state, seen_full := st.seen_full || kind = .full } })
        (.update rfl) fun _ _ hsub => .pure (hsub ▸ .index hst hdb hknows)
  | rows source seq state rows =>
      refine goes_apply_of_known (by simp) rfl fun st hst => ?_
      refine Prog.Goes.bind (Q := fun _ sub' => sub' = { sub with
          sources := sub.sources.insert source { st with last_seq := some seq } })
        (.update rfl) ?_
      rintro _ _ rfl
      dsimp only
      split
      · rename_i hskips
        exact .pure (.skipped hst hskips)
      · rename_i hskips
        rw [Bool.not_eq_true] at hskips
        split
        · have hgoing : ({ sub with
              sources := sub.sources.insert source { st with last_seq := some seq } } :
                Subscriber).stopped = none := h.going
          refine ((goes_post hgoing (goes_wal _)).mono (fun _ _ h' => h') fun _ _ h' => h'.elim).bind ?_
          rintro _ _ ⟨_, thread, rfl, hwal⟩
          exact .pure (.written hst hskips hwal)
        · exact .pure (.written hst hskips ⟨rfl, rfl⟩)
  | segment source stream seg_meta bytes caller_index =>
      refine goes_apply_of_known (by simp) rfl fun st hst => ?_
      refine Prog.Goes.bind (Q := fun inserted sub' =>
        Heard sub (.segment source stream seg_meta bytes caller_index)
          (countAdopted (.ok inserted)) sub') ?_ fun _ _ h' => .pure h'
      unfold SubscribeM.adoptSegment
      refine ((goes_request h.going goes_adoptSegment).mono (fun _ _ h' => h')
        fun _ _ h' => h'.elim).bind ?_
      rintro _ _ ⟨thread, rfl, inserted, rfl, hend⟩
      refine .lift (fun a ha => ?_) fun e he => ?_
      · subst ha
        exact .segment hst hend
      · subst he
        exact .segment hst hend
  | clockOffset source ts offset_ns =>
      refine goes_apply_of_known (by simp) rfl fun st hst => ?_
      obtain ⟨cols, hcols⟩ := h.rows source st hst
      refine ((goes_post h.going (goes_clockOffset ts offset_ns hcols)).mono (fun _ _ h' => h')
          fun _ _ h' => h'.elim).bind ?_
      rintro _ _ ⟨_, thread, rfl, hdb, hknows⟩
      exact Prog.Goes.bind (Q := fun _ sub' => sub' = { sub with
          thread, sources := sub.sources.insert source
            { st with last_offset := some (ts, offset_ns) } })
        (.update rfl) fun _ _ hsub => .pure (hsub ▸ .clockOffset hst hdb hknows)
  | sourceUpdate source ts labels metadata =>
      refine goes_apply_of_known (by simp) rfl fun st hst => ?_
      obtain ⟨cols, hcols⟩ := h.rows source st hst
      refine ((goes_post h.going (goes_setIdentity labels metadata hcols)).mono (fun _ _ h' => h')
          fun _ _ h' => h'.elim).bind ?_
      rintro _ _ ⟨_, thread, rfl, hset⟩
      exact .pure (.sourceUpdate hst hcols hset)

theorem apply_heard (h : sub.Sound) {d : Delivery} (hfaults : d.faults = []) :
    Heard sub d.frame (sub.answer d) (sub.deliver d) := by
  unfold Subscriber.answer Subscriber.deliver
  rw [hfaults]
  have hgoes : Prog.Goes (Subscriber.apply d.env d.frame) sub
      (fun a sub' => Heard sub d.frame (.ok a) sub') fun e sub' => Heard sub d.frame (.err e) sub' :=
    goes_apply h d.frame
  rcases hgoes with ⟨a, sub', hr, hheard⟩ | ⟨e, sub', hr, hheard⟩
  · rw [hr]
    exact hheard
  · rw [hr]
    exact hheard

end Apply

end Dendro.Replicate
