import Dendro.Replicate.Delivery
import Dendro.Replicate.Tail
import Dendro.Writer.Offsets

/-!
# Finishing a copy

The rest of a subscriber's life: its owner seals streams of the copy, and at the end `finish`
finalizes the sources that were complete at the publisher and joins the writer. A finalize needs an
observation, and `finish` takes the newest one a `ClockOffset` frame brought, "rather than a
timestamp this process invented".

`InventsNothing` says what that comes to for the whole copy, over every sequence of frames.
`finish_invents_nothing` is when it is so. A tailing publisher sends no observation of a source that
was complete before it was opened (`finish_invents`).
-/

namespace Dendro.Replicate

open Dendro SubscribeM Relation

/-! ## The calls of the owner -/

namespace SubscribeM

/-- `SourceWriter::check_alive`. -/
def checkAlive : SubscribeM Unit := do
  match (← Prog.state).stopped with
  | some e => Prog.fail (.writer e)
  | none => pure ()

/-- `SourceWriter::seal`. -/
def sealSource (env : Env) (source_id : Int) (batch : List String) : SubscribeM Unit :=
  if batch.isEmpty then checkAlive else post env (.seal source_id batch (2 ^ 64 - 1))

/-- `SourceWriter::finalize`: it waits until the thread has handled it. -/
def finalizeSource (env : Env) (source_id : Int) (clock_offset : Int64 × Int64) :
    SubscribeM Unit := do
  post env (.finalize source_id clock_offset)
  let _ ← request env .sync

/-- `Writer::join`. -/
def join (env : Env) : SubscribeM Unit := do
  match (← Prog.state).stopped with
  | some e => Prog.fail e
  | none =>
    post env .shutdown
    match (← Prog.state).stopped with
    | some e => Prog.fail e
    | none => pure ()

end SubscribeM

namespace Subscriber

/-- Seal streams of one source, by its handshake ordinal. -/
def «seal» (env : Env) (source : UInt32) (streams : List String) : SubscribeM Unit := do
  let st ← sourceMut source
  sealSource env st.writer streams

/-- What `finish` does with one source. -/
def finishSource (env : Env) (st : SourceState) : SubscribeM Unit :=
  if st.complete then finalizeSource env st.writer (st.last_offset.getD (0, 0)) else pure ()

/-- Finish the archive and join its writer. A subscriber that gives up joins it as well: it is
dropped then. -/
def finish (env : Env) : SubscribeM Unit := do
  let sources := (← Prog.state).sources.values
  Prog.update fun s => { s with sources := ∅ }
  match ← Prog.attempt (Prog.forEach (finishSource env) sources) with
  | .ok () => join env
  | .error e =>
    let _ ← Prog.attempt (join env)
    Prog.fail e

end Subscriber

/-! ## Runs of a copy -/

/-- What happens to a copy before it is finished. -/
inductive CopyEvent where
  | frame (d : Delivery)
  /-- The owner seals streams. -/
  | «seal» (env : Env) (source : UInt32) (streams : List String)
      (faults : List (Fault StorageFailure))
  /-- The heartbeat's timer fires. -/
  | beat (faults : List (Fault StorageFailure))

namespace Subscriber

/-- What an event leaves. -/
def step (sub : Subscriber) : CopyEvent → Subscriber
  | .frame d => sub.deliver d
  | .seal env source streams faults => (Subscriber.seal env source streams sub faults).2.1
  | .beat faults => { sub with thread := (beatTimer sub.thread faults).2.1 }

/-- A run. -/
def run (sub : Subscriber) (events : List CopyEvent) : Subscriber := events.foldl step sub

/-- What a finished subscriber leaves. -/
def finished (sub : Subscriber) (env : Env) (faults : List (Fault StorageFailure)) : Subscriber :=
  (finish env sub faults).2.1

/-- Whether an event is a clock observation of a source of the copy. -/
def carries (sub : Subscriber) (e : CopyEvent) (id : Int) (ts offset_ns : Int64) : Prop :=
  ∃ d source st, e = .frame d ∧ d.frame = .clockOffset source ts offset_ns ∧
    sub.sources.get? source = some st ∧ st.writer = id

/-- Whether an observation of a source of the copy was carried by one of the frames of a run. -/
def carried : Subscriber → List CopyEvent → Int → Int64 → Int64 → Prop
  | _, [], _, _, _ => False
  | sub, e :: es, id, ts, offset_ns =>
    sub.carries e id ts offset_ns ∨ (sub.step e).carried es id ts offset_ns

/-- **Finishing a copy invents no observation**: every one that the copy holds of a source that
was not there at the start was carried by a frame, or is a row that the copy's writer sealed. -/
def InventsNothing (start : Subscriber) (events : List CopyEvent) (left : Subscriber) : Prop :=
  ∀ id, start.thread.db.sources.get? id = none → ∀ ts offset_ns,
    left.thread.db.clock_offsets.get? (toLex (id, ts)) = some offset_ns →
      start.carried events id ts offset_ns ∨ left.thread.disk.SealedRow id ts offset_ns

/-- A source for which `finish` has an observation, or which has one at the time that it would
make up. -/
def HasObservation (sub : Subscriber) (st : SourceState) : Prop :=
  st.last_offset.isSome = true ∨
    (sub.thread.db.clock_offsets.get? (toLex (st.writer, 0))).isSome = true

/-! ## Where observations come from -/

/-- The observations of a copy are those of `known`, those in `P`, and rows that were sealed; what
the subscriber remembers of a source is in `P`. -/
structure Accounted (known : Archive) (P : Int → Int64 → Int64 → Prop) (sub : Subscriber) :
    Prop where
  offsets : ∀ id ts offset, sub.thread.db.clock_offsets.get? (toLex (id, ts)) = some offset →
    known.clock_offsets.get? (toLex (id, ts)) = some offset ∨ P id ts offset ∨
      sub.thread.disk.SealedRow id ts offset
  remembered : ∀ source st o, sub.sources.get? source = some st → st.last_offset = some o →
    P st.writer o.1 o.2

section

variable {env : Env} {sub sub' : Subscriber} {known : Archive} {P Q : Int → Int64 → Int64 → Prop}

theorem Accounted.mono (h : Accounted known P sub) (hPQ : ∀ id ts o, P id ts o → Q id ts o) :
    Accounted known Q sub where
  offsets id ts offset hget := (h.offsets id ts offset hget).imp_right fun h =>
    h.imp_left (hPQ id ts offset)
  remembered source st o hst ho := hPQ _ _ _ (h.remembered source st o hst ho)

/-- A message that the thread handled, and that asked for no observation but one of `P`. -/
theorem Accounted.handled (h : Accounted known P sub) {msg : Msg} (hsources : sub'.sources = sub.sources)
    (hsteps : ReflTransGen (WriterStep env msg) sub.thread sub'.thread)
    (hmsg : ∀ id ts offset, msg.observation = some (id, ts, offset) →
      sub.thread.db.clock_offsets.get? (toLex (id, ts)) = none → P id ts offset) :
    Accounted known P sub' where
  offsets id ts offset hget := by
    have hbefore : sub.thread.db.clock_offsets.get? (toLex (id, ts)) = some offset →
        known.clock_offsets.get? (toLex (id, ts)) = some offset ∨ P id ts offset ∨
          sub'.thread.disk.SealedRow id ts offset := fun hget =>
      (h.offsets id ts offset hget).imp_right fun h =>
        h.imp_right fun h => h.mono (log_prefix_steps hsteps)
    rcases handled_offset hsteps hget with hget' | hasked | hsealed
    · exact hbefore hget'
    · -- what the message asks for is ignored where there is an observation already
      rcases hfirst : sub.thread.db.clock_offsets.get? (toLex (id, ts)) with _ | v
      · exact .inr (.inl (hmsg id ts offset hasked hfirst))
      · have hkept : ∀ id' cutoff streams floor, msg ≠ .evict id' cutoff streams floor := by
          rintro _ _ _ _ rfl
          exact absurd hasked (by simp [Msg.observation])
        have hv := (handled_grown hsteps hkept).clock_offsets _ v hfirst
        rw [hget] at hv
        exact hbefore (hfirst.trans hv.symm)
    · exact .inr (.inr hsealed)
  remembered source st o hst ho := h.remembered source st o (hsources ▸ hst) ho

/-! ## One frame -/

/-- A message to the writer thread, waited for or not, leaves the sources and steps the thread. -/
theorem keeps_handed {msg : Msg} {I : Subscriber → Prop}
    (h : ∀ sub', sub'.sources = sub.sources →
      ReflTransGen (WriterStep env msg) sub.thread sub'.thread → I sub') :
    Prog.Keeps (post env msg) sub I ∧ Prog.Keeps (request env msg) sub I := by
  have hboth : ∀ faults, I (post env msg sub faults).2.1 ∧ I (request env msg sub faults).2.1 := by
    intro faults
    unfold post request
    rcases sub.stopped with _ | e
    · have hsteps := (handle_runs env msg sub.thread).steps faults
      rcases hr : handle env msg sub.thread faults with ⟨a | e | -, thread, rest⟩ <;>
        rw [hr] at hsteps <;> exact ⟨h _ rfl hsteps, h _ rfl hsteps⟩
    · exact ⟨h sub rfl .refl, h sub rfl .refl⟩
  exact ⟨fun faults => (hboth faults).1, fun faults => (hboth faults).2⟩

theorem keeps_post {msg : Msg} {I : Subscriber → Prop}
    (h : ∀ sub', sub'.sources = sub.sources →
      ReflTransGen (WriterStep env msg) sub.thread sub'.thread → I sub') :
    Prog.Keeps (post env msg) sub I := (keeps_handed h).1

theorem keeps_request {msg : Msg} {I : Subscriber → Prop}
    (h : ∀ sub', sub'.sources = sub.sources →
      ReflTransGen (WriterStep env msg) sub.thread sub'.thread → I sub') :
    Prog.Keeps (request env msg) sub I := (keeps_handed h).2

theorem keeps_sourceMut {source : UInt32} {α : Type} {k : SourceState → SubscribeM α}
    {I : Subscriber → Prop} (hI : I sub)
    (hk : ∀ st, sub.sources.get? source = some st → Prog.Keeps (k st) sub I) :
    Prog.Keeps (sourceMut source >>= k) sub I := by
  intro faults
  rcases hget : sub.sources.get? source with _ | st
  · rw [Prog.run_bind, run_sourceMut_none hget]
    exact hI
  · rw [Prog.run_bind_ok (run_sourceMut_some hget faults)]
    exact hk st hget faults

/-- What is remembered of a source, if its observation is one of `P`. -/
theorem Accounted.remember (h : Accounted known P sub) (source : UInt32) {st : SourceState}
    (hst : ∀ o, st.last_offset = some o → P st.writer o.1 o.2) :
    Accounted known P { sub with sources := sub.sources.insert source st } where
  offsets := h.offsets
  remembered source' st' o hst' ho := by
    rw [OrdMap.get?_insert] at hst'
    split at hst'
    · obtain rfl := Option.some.inj hst'
      exact hst o ho
    · exact h.remembered source' st' o hst' ho

/-- **A frame leaves observations accounted for**, if what it carries is in `P`. -/
theorem keeps_apply (h : Accounted known P sub) (f : Frame)
    (hf : ∀ source ts offset st, f = .clockOffset source ts offset →
      sub.sources.get? source = some st → P st.writer ts offset) :
    Prog.Keeps (apply env f) sub (Accounted known P) := by
  have hposted : ∀ {msg : Msg}, msg.observation = none →
      ∀ sub', sub'.sources = sub.sources →
        ReflTransGen (WriterStep env msg) sub.thread sub'.thread → Accounted known P sub' :=
    fun hmsg sub' hsources hsteps => h.handled hsources hsteps fun _ _ _ hasked => by
      rw [hmsg] at hasked
      exact absurd hasked (by simp)
  cases f with
  | handshake source uuid labels metadata anchor complete =>
      unfold apply addSourceWithUuid
      refine Prog.Keeps.bind (Prog.Keeps.bind (keeps_request (hposted rfl)) ?_) ?_
      · intro reply sub' h'
        split
        · exact .lift (fun _ _ => h') fun _ _ => h'
        · exact .fail h'
      · intro writer sub' h'
        refine Prog.Keeps.bind (.update (h'.remember source ?_)) fun _ _ h'' _ => h''
        exact fun o ho => absurd ho (by simp [SourceState.start])
  | index source stream ts kind state blob =>
      unfold apply
      refine keeps_sourceMut h fun st hst => ?_
      refine Prog.Keeps.bind (keeps_post (hposted rfl)) fun _ sub' h' => ?_
      refine Prog.Keeps.bind (.update (h'.remember source ?_)) fun _ _ h'' _ => h''
      exact fun o => h.remembered source st o hst
  | rows source seq index_state rows =>
      unfold apply
      refine keeps_sourceMut h fun st hst => ?_
      refine Prog.Keeps.update_bind ?_
      have h' : Accounted known P { sub with
          sources := sub.sources.insert source { st with last_seq := some seq } } :=
        h.remember source fun o => h.remembered source st o hst
      dsimp only
      split
      · exact fun _ => h'
      · split
        · refine Prog.Keeps.bind (keeps_post fun sub' hsources hsteps =>
            h'.handled hsources hsteps fun _ _ _ hasked => absurd hasked ?_) fun _ sub' h'' _ => h''
          simp [Msg.observation]
        · exact fun _ => h'
  | segment source stream seg_meta bytes caller_index =>
      unfold apply
      refine keeps_sourceMut h fun st hst => ?_
      unfold SubscribeM.adoptSegment
      refine Prog.Keeps.bind (Prog.Keeps.bind (keeps_request (hposted rfl)) ?_) fun _ sub' h' _ => h'
      intro reply sub' h'
      split
      · exact .lift (fun _ _ => h') fun _ _ => h'
      · exact .fail h'
  | clockOffset source ts offset_ns =>
      unfold apply
      refine keeps_sourceMut h fun st hst => ?_
      have hnew := hf source ts offset_ns st rfl hst
      refine Prog.Keeps.bind (keeps_post fun sub' hsources hsteps =>
        h.handled hsources hsteps fun id ts' offset' hasked _ => ?_) fun _ sub' h' => ?_
      · obtain ⟨rfl, rfl, rfl⟩ : st.writer = id ∧ ts = ts' ∧ offset_ns = offset' := by
          simpa [Msg.observation] using hasked
        exact hnew
      · refine Prog.Keeps.bind (.update (h'.remember source ?_)) fun _ _ h'' _ => h''
        intro o ho
        obtain rfl := Option.some.inj ho
        exact hnew
  | sourceUpdate source ts labels metadata =>
      unfold apply
      refine keeps_sourceMut h fun st hst => ?_
      exact Prog.Keeps.bind (keeps_post (hposted rfl)) fun _ sub' h' _ => h'

/-! ## Whole runs -/

/-- An event leaves observations accounted for, counting what it carries. -/
theorem Accounted.step (h : Accounted known P sub) (e : CopyEvent) :
    Accounted known (fun id ts o => P id ts o ∨ sub.carries e id ts o) (sub.step e) := by
  have h' := h.mono (Q := fun id ts o => P id ts o ∨ sub.carries e id ts o) fun _ _ _ => .inl
  cases e with
  | frame d =>
      refine keeps_apply h' d.frame (fun source ts offset st hf hst => ?_) d.faults
      exact .inr ⟨d, source, st, rfl, hf, hst, rfl⟩
  | «seal» env source streams faults =>
      have hkeeps : Prog.Keeps (Subscriber.seal env source streams) sub (Accounted known
          fun id ts o => P id ts o ∨ sub.carries (.seal env source streams faults) id ts o) := by
        refine keeps_sourceMut h' fun st hst => ?_
        unfold sealSource
        split
        · unfold checkAlive
          refine Prog.Ends.state_bind ?_
          split
          · exact .fail h'
          · exact fun _ => h'
        · refine keeps_post fun sub' hsources hsteps =>
            h'.handled hsources hsteps fun _ _ _ hasked => absurd hasked ?_
          simp [Msg.observation]
      exact hkeeps faults
  | beat faults =>
      have hsteps := (beatTimer_runs Env.idle .sync sub.thread).steps faults
      refine h'.handled rfl hsteps fun _ _ _ hasked => absurd hasked ?_
      simp [Msg.observation]

theorem accounted_run : ∀ {events : List CopyEvent} {sub : Subscriber}
    {P : Int → Int64 → Int64 → Prop}, Accounted known P sub →
      Accounted known (fun id ts o => P id ts o ∨ sub.carried events id ts o) (sub.run events)
  | [], _, _, h => h.mono fun _ _ _ => .inl
  | e :: events, sub, P, h => by
      have hrest := @accounted_run events _ _ (h.step e)
      exact hrest.mono fun id ts o ho => or_assoc.mp ho

/-- A subscriber while it finishes: observations are accounted for, and none of those that were
there is gone. -/
structure Finishing (known : Archive) (P : Int → Int64 → Int64 → Prop) (before sub : Subscriber) :
    Prop where
  accounted : Accounted known P sub
  grown : before.thread.db.Grown sub.thread.db

variable {before : Subscriber}

theorem Finishing.handled (h : Finishing known P before sub) {msg : Msg}
    (hsources : sub'.sources = sub.sources)
    (hsteps : ReflTransGen (WriterStep env msg) sub.thread sub'.thread)
    (hkept : ∀ id cutoff streams floor, msg ≠ .evict id cutoff streams floor)
    (hmsg : ∀ id ts offset, msg.observation = some (id, ts, offset) →
      sub.thread.db.clock_offsets.get? (toLex (id, ts)) = none → P id ts offset) :
    Finishing known P before sub' :=
  ⟨h.accounted.handled hsources hsteps hmsg, h.grown.trans (handled_grown hsteps hkept)⟩

/-- The finalize of a source that has an observation. -/
theorem keeps_finishSource {st : SourceState} (h : Finishing known P before sub)
    (hremembered : ∀ o, st.last_offset = some o → P st.writer o.1 o.2)
    (hobserved : st.complete = true → before.HasObservation st) :
    Prog.Keeps (finishSource env st) sub (Finishing known P before) := by
  unfold finishSource
  split
  · rename_i hcomplete
    unfold finalizeSource
    refine Prog.Keeps.bind (keeps_post fun sub' hsources hsteps =>
      h.handled hsources hsteps nofun fun id ts offset hasked hfirst => ?_) fun _ sub' h' => ?_
    · rcases hlast : st.last_offset with _ | o
      · -- the made-up observation is ignored: there is one at its time
        rw [hlast] at hasked
        obtain ⟨rfl, rfl, rfl⟩ : st.writer = id ∧ 0 = ts ∧ 0 = offset := by
          simpa [Msg.observation] using hasked
        rcases hobserved hcomplete with hsome | hzero
        · exact absurd hsome (by simp [hlast])
        · obtain ⟨v, hv⟩ := Option.isSome_iff_exists.mp hzero
          rw [h.grown.clock_offsets _ v hv] at hfirst
          exact absurd hfirst (by simp)
      · rw [hlast] at hasked
        obtain ⟨rfl, rfl⟩ : st.writer = id ∧ o = (ts, offset) := by
          simpa [Msg.observation] using hasked
        exact hremembered _ hlast
    · exact Prog.Keeps.bind (keeps_request fun sub'' hsources hsteps =>
        h'.handled hsources hsteps nofun nofun) fun _ _ h'' _ => h''
  · exact fun _ => h

theorem keeps_join (h : Finishing known P before sub) :
    Prog.Keeps (join env) sub (Finishing known P before) := by
  unfold join
  refine Prog.Ends.state_bind ?_
  split
  · exact .fail h
  · refine Prog.Keeps.bind (keeps_post fun sub' hsources hsteps =>
      h.handled hsources hsteps nofun nofun) fun _ sub' h' => ?_
    refine Prog.Ends.state_bind ?_
    split
    · exact .fail h'
    · exact fun _ => h'

/-- **A finish leaves observations accounted for**, if each complete source has one. -/
theorem keeps_finish (h : Accounted known P sub)
    (hobserved : ∀ source st, sub.sources.get? source = some st → st.complete = true →
      sub.HasObservation st) : Prog.Keeps (finish env) sub (Accounted known P) := by
  have hstart : Finishing known P sub { sub with sources := ∅ } :=
    ⟨⟨h.offsets, fun _ _ _ hst => absurd hst (by simp)⟩, .refl _⟩
  have hfinish : Prog.Keeps (finish env) sub (Finishing known P sub) := by
    unfold finish
    refine Prog.Ends.state_bind (Prog.Keeps.update_bind ?_)
    refine Prog.Keeps.bind (Prog.Ends.attempt
      (Prog.Keeps.forEach (fun st hst _ h' => ?_) hstart) (fun _ _ h' => h') (fun _ _ h' => h')
        fun _ h' => h') fun r sub' h' => ?_
    · obtain ⟨⟨source, st⟩, hmem, rfl⟩ := List.mem_map.mp hst
      have hget : sub.sources.get? source = some st := OrdMap.get?_eq_some.mpr hmem
      exact keeps_finishSource h' (fun o => h.remembered source st o hget) (hobserved source st hget)
    · split
      · exact keeps_join h'
      · exact Prog.Keeps.bind (Prog.Ends.attempt (keeps_join h') (fun _ _ h' => h')
          (fun _ _ h' => h') fun _ h' => h') fun _ _ h' => .fail h'
  exact hfinish.mono fun _ _ h' => h'.accounted

end

/-- A subscriber into an archive that a run of the writer left. -/
def copyInto (layout : IndexLayout) (before : List Event) (mem : Caches) : Subscriber :=
  .new { disk := ((World.create layout).run before).disk, mem }

/-- **When finishing a copy invents no observation.** A subscriber into any archive that a run of
the writer left, after any sequence of frames, seals and beats, whatever fails: if each source that
is complete at the publisher has an observation, every observation that the finished copy holds of
its new sources was carried by a frame or sealed from a row. -/
theorem finish_invents_nothing (layout : IndexLayout) (before : List Event) (mem : Caches)
    (events : List CopyEvent) (env : Env) (faults : List (Fault StorageFailure))
    (hobserved : ∀ source st,
      ((copyInto layout before mem).run events).sources.get? source = some st →
        st.complete = true → ((copyInto layout before mem).run events).HasObservation st) :
    InventsNothing (copyInto layout before mem) events
      (((copyInto layout before mem).run events).finished env faults) := by
  have hreferenced : (copyInto layout before mem).thread.db.Referenced :=
    referenced_run layout before
  have hnew : Accounted (copyInto layout before mem).thread.db (fun _ _ _ => False)
      (copyInto layout before mem) :=
    ⟨fun _ _ _ hget => .inl hget, fun _ _ _ hst => absurd hst (by simp [copyInto, Subscriber.new])⟩
  have hfinished := @keeps_finish env _ _ _ (accounted_run hnew) hobserved faults
  intro id hid ts offset hget
  rcases hfinished.offsets id ts offset hget with hknown | (hnone | hcarried) | hsealed
  · have hsource := hreferenced id ts offset hknown
    rw [hid] at hsource
    exact absurd hsource (by simp)
  · exact hnone.elim
  · exact .inl hcarried
  · exact .inr hsealed

/-- A copy that starts from an empty file. -/
def emptyCopy : Subscriber := copyInto .table [] (.seed (.create .table))

/-- Frames that arrive one after the other, and nothing fails. -/
def arriving (frames : List Frame) : List CopyEvent := frames.map fun f => .frame ⟨.idle, f, []⟩

/-- A source that was complete at the publisher, and one observation of it. -/
def completeObserved : List Frame :=
  [.handshake 0 (some "u") ∅ ∅ 0 true, .clockOffset 0 7 3]

theorem finish_invents_nothing_completeObserved :
    InventsNothing emptyCopy (arriving completeObserved)
      ((emptyCopy.run (arriving completeObserved)).finished .idle []) := by
  refine finish_invents_nothing .table [] (.seed (.create .table)) (arriving completeObserved) .idle
    [] fun source st hst _ => .inl ?_
  have hall : ∀ e ∈ (emptyCopy.run (arriving completeObserved)).sources.entries,
      e.2.last_offset.isSome = true := by decide +kernel
  exact hall (source, st) (OrdMap.get?_eq_some.mp hst)

/-- An archive of one source, recorded and finalized. -/
def recorded : Archive :=
  ((Write.finalize 1 7 3).apply oneSource).toOption.getD oneSource

/-- **A complete source that a publisher tails gets an observation that nobody made.** -/
theorem finish_invents : ∃ frames p,
    ArchivePublisher.open_ recorded none (.unopened none) [] = (.ok frames, p, []) ∧
      ¬InventsNothing emptyCopy (arriving frames)
        ((emptyCopy.run (arriving frames)).finished .idle []) := by
  refine ⟨[.handshake 0 (some "u") ∅ ∅ 0 true], _, rfl, fun h => ?_⟩
  rcases h 1 (by decide +kernel) 0 0 (by decide +kernel) with hcarried | hsealed
  · obtain ⟨d, source, st, hd, hframe, -⟩ | hnone := hcarried
    · injection hd with hd
      rw [← hd] at hframe
      exact absurd hframe (by simp)
    · exact hnone
  · obtain ⟨a, batch, encoded, observation, hmem, -⟩ := hsealed
    have hlog : ∀ e ∈ ((emptyCopy.run (arriving [.handshake 0 (some "u") ∅ ∅ 0 true])).finished
        .idle []).thread.disk.log, e.2.beside = true := by decide +kernel
    exact absurd (hlog _ hmem) (by simp [Write.beside])

end Subscriber

end Dendro.Replicate
