import Dendro.Lib.Line
import Dendro.Writer.FaultFree
import Dendro.Writer.World

/-!
# Adds and resumes that are answered with an error

Handling `AddSource` or `ResumeSource` is a straight line of calls, and each of its writes is
a transaction of its own. A call that fails before the first write leaves everything as it
was. After it, the answer is an error and the write stands: the row of a source that no caller
was given an id for (`Dendro.addSource`), or a finished source marked unfinished
(`Dendro.resumeSource`).

What the thread remembers is the same in either case: its floors and its beats are told only
of a source whose add or resume succeeded.
-/

namespace Dendro

open WriterM

/-! ## The lines -/

/-- The calls of an add: the uuid where none is given, the row, the session record, the
heartbeat, whose failure is ignored, and the encoder's version where it has one. -/
def addCalls (env : Env) (uuid : Option String) : List Bool :=
  (if uuid.isNone then [true] else []) ++ [true] ++ [true, true, true, true] ++ [false] ++
    if env.encoder.version.isSome then [true, true] else []

/-- Which of them inserts the row. -/
def insertCall (uuid : Option String) : Nat := if uuid.isNone then 1 else 0

/-- The events of a source with that of a resume appended, where the stored value allows it. -/
def resumedEvents (env : Env) (a : Archive) (source_id : Int) (anchor : Int64)
    (src : SourceRow) : Option Json :=
  appendEvent ((src.identity.metadata.get? keys.EVENTS).bind env.parseJson)
    (sessionEvent (env.mint 0) anchor (a.sourceTimeSpan source_id).2)

/-- The calls of a resume that passes its checks: the sources, the source's span, the flag,
and the session record. Where the stored events panic, the thread gets no further than the
record's reads. -/
def resumeCalls (env : Env) (a : Archive) (source_id : Int) (anchor : Int64)
    (src : SourceRow) : List Bool :=
  [true, true, true, true, true] ++
    if (resumedEvents env a source_id anchor src).isSome then [true, true] else []

/-- Which of them clears the flag. -/
def markCall : Nat := 2

/-- A resume of a source passes its checks: `src` is its row, this encoder wrote it, and the
anchor is after its newest row. -/
structure Resumes (env : Env) (a : Archive) (source_id : Int) (anchor : Int64)
    (src : SourceRow) : Prop where
  found : a.readSources.find? (·.id = source_id) = some src
  encoder : checkEncoder source_id src.identity.metadata env.encoder = .ok ()
  later : ∀ floor, (a.sourceTimeSpan source_id).2 = some floor → floor < anchor

/-- An answer with an error leaves the archive's sources, and what the thread remembers, as
they were. -/
def FailsCleanly (env : Env) (msg : Msg) (s : WriterState) (faults : List (Fault StorageFailure)) :
    Prop :=
  ∀ e s' rest, handle env msg s faults = (.ok (.added (.error e)), s', rest) ∨
      handle env msg s faults = (.ok (.resumed (.error e)), s', rest) →
    s'.db.sources = s.db.sources ∧ s'.mem = s.mem

/-! ## What the calls leave -/

/-- The source is there and unfinished, and the thread remembers what it did. -/
structure Unfinished (s : WriterState) (id : Int) (s' : WriterState) : Prop where
  row : ∃ cols, s'.db.sources.get? id = some cols ∧ cols.complete = false
  mem : s'.mem = s.mem

section

variable {s s₁ : WriterState} {id : Int} {env : Env}

theorem line_query {α : Type} {f : Archive → Except Error α} {a : α} (h : f s.db = .ok a)
    {Q : α → WriterState → Prop} {E : Nat → WriterState → Prop} (hQ : Q a s) (hE : E 0 s) :
    Prog.Line [true] (query f) s Q E :=
  .read h hQ hE

theorem line_commit {w : Write} {db : Archive} (h : w.apply s.db = .ok db)
    {Q : Unit → WriterState → Prop} {E : Nat → WriterState → Prop}
    (hQ : ∀ s', s'.db = db → s'.mem = s.mem → Q () s') (hE : E 0 s) :
    Prog.Line [true] (commit w) s Q E := by
  have happly : w.apply s.disk.db = .ok db := h
  have hrun : ((s.disk.run w).1, s.run w) = (.ok (), s.run w) := by
    simp [Disk.run, happly]
  exact .call hrun (hQ _ (run_db_of_ok h) rfl) hE

/-- An update that leaves the flag alone. -/
theorem Unfinished.update {f : SourceCols → SourceCols} (h : Unfinished s id s₁)
    {s' : WriterState} (hdb : s'.db = s₁.db.updateSource id f) (hmem : s'.mem = s₁.mem)
    (hf : ∀ cols, (f cols).complete = cols.complete) : Unfinished s id s' := by
  obtain ⟨cols, hcols, hcomplete⟩ := h.row
  refine ⟨⟨f cols, ?_, (hf cols).trans hcomplete⟩, hmem.trans h.mem⟩
  rw [hdb, Archive.get?_updateSource, if_pos rfl, hcols]
  rfl

theorem Unfinished.metadata (h : Unfinished s id s₁) :
    ∃ metadata, s₁.db.sourceMetadata id = .ok metadata := by
  obtain ⟨cols, hcols, -⟩ := h.row
  exact ⟨cols.identity.metadata, by rw [Archive.sourceMetadata, hcols]⟩

theorem Unfinished.patch (h : Unfinished s id s₁) (patch : StringMap) :
    Prog.Line [true, true] (patchSourceMetadata id patch) s₁ (fun _ => Unfinished s id)
      fun _ s' => s' = s₁ := by
  obtain ⟨metadata, hmeta⟩ := h.metadata
  obtain ⟨cols, hcols, -⟩ := h.row
  unfold patchSourceMetadata
  show Prog.Line ([true] ++ [true]) _ _ _ _
  refine .bind (line_query hmeta (Q := fun _ s' => s' = s₁) rfl rfl) ?_
  rintro m s₁ rfl
  have happly : (Write.updateMetadata id (m.insertAll patch.entries)).apply s₁.db =
      .ok (s₁.db.updateSource id fun cols =>
        { cols with identity := { cols.identity with metadata := m.insertAll patch.entries } }) :=
    if_pos (by rw [hcols]; rfl)
  exact line_commit happly (fun s' hdb hmem => h.update hdb hmem fun _ => rfl) rfl

/-- The session record of a source, after an add or where the stored events take one more. -/
theorem Unfinished.record (h : Unfinished s id s₁) (turn : Nat) (anchor : Int64)
    (resumed : Option (Option Int64)) (hevents : ∀ after metadata, resumed = some after →
      s₁.db.sourceMetadata id = .ok metadata →
      (appendEvent ((metadata.get? keys.EVENTS).bind env.parseJson)
        (sessionEvent (env.mint turn) anchor after)).isSome) :
    Prog.Line [true, true, true, true] (recordSession env turn id anchor resumed) s₁
      (fun _ => Unfinished s id) fun _ s' => s' = s₁ := by
  obtain ⟨metadata, hmeta⟩ := h.metadata
  unfold recordSession
  show Prog.Line ([true] ++ ([true] ++ [true, true])) _ _ _ _
  refine .bind (line_query (a := env.mint turn) rfl
    (Q := fun session s' => session = env.mint turn ∧ s' = s₁) ⟨rfl, rfl⟩ rfl) ?_
  rintro _ s₁ ⟨rfl, rfl⟩
  refine .bind (line_query hmeta (Q := fun m s' => m = metadata ∧ s' = s₁) ⟨rfl, rfl⟩ rfl) ?_
  rintro _ s₁ ⟨rfl, rfl⟩
  dsimp only
  cases resumed with
  | none => exact h.patch _
  | some after =>
      obtain ⟨events, heq⟩ := Option.isSome_iff_exists.mp (hevents after _ rfl hmeta)
      simp only [heq]
      exact h.patch _

/-- The session record of a resume where the stored events take no more: a panic. -/
theorem Unfinished.record_panics (h : Unfinished s id s₁) (turn : Nat) (anchor : Int64)
    (after : Option Int64) (hevents : ∀ metadata, s₁.db.sourceMetadata id = .ok metadata →
      appendEvent ((metadata.get? keys.EVENTS).bind env.parseJson)
        (sessionEvent (env.mint turn) anchor after) = none) :
    Prog.GivesUp [true, true] (recordSession env turn id anchor (some after)) s₁
      fun _ s' => s' = s₁ := by
  obtain ⟨metadata, hmeta⟩ := h.metadata
  unfold recordSession
  show Prog.GivesUp ([true] ++ ([true] ++ [])) _ _ _
  refine Prog.Line.bind_givesUp (line_query (a := env.mint turn) rfl
    (Q := fun session s' => session = env.mint turn ∧ s' = s₁) ⟨rfl, rfl⟩ rfl) ?_
  rintro _ s₁ ⟨rfl, rfl⟩
  refine Prog.Line.bind_givesUp
    (line_query hmeta (Q := fun m s' => m = metadata ∧ s' = s₁) ⟨rfl, rfl⟩ rfl) ?_
  rintro _ s₁ ⟨rfl, rfl⟩
  simp only [hevents _ hmeta]
  exact .abort

/-- The first heartbeat, whether it starts or not. -/
theorem Unfinished.heartbeat (h : Unfinished s id s₁) :
    Prog.Line [false] (startHeartbeat env id) s₁ (fun _ => Unfinished s id)
      fun _ => Unfinished s id := by
  unfold startHeartbeat
  show Prog.Line ([false] ++ []) _ _ _ _
  refine .bind (Q := fun _ => Unfinished s id) ?_ fun _ _ h' => .pure h'
  have hcommit : ((s₁.disk.run (.startHeartbeat id env.heartbeat_interval_ns)).1,
      s₁.run (.startHeartbeat id env.heartbeat_interval_ns)) =
      (.ok (), s₁.run (.startHeartbeat id env.heartbeat_interval_ns)) := rfl
  refine .attempt_call hcommit ?_ fun _ => h
  have hinterval : Unfinished s id
      { s₁ with disk := { s₁.disk with
          db := s₁.db.setHeartbeatInterval id env.heartbeat_interval_ns } } :=
    h.update rfl rfl fun _ => rfl
  exact hinterval.update rfl rfl fun _ => rfl

/-- A failure of a call up to the `k`-th leaves `s`, a later one what `P` says. -/
def UpTo (k : Nat) (s : WriterState) (P : WriterState → Prop) (i : Nat) (s' : WriterState) : Prop :=
  (i ≤ k → s' = s) ∧ (k < i → P s')

theorem UpTo.later {k : Nat} {P : WriterState → Prop} {i n : Nat} {s' : WriterState} (h : P s')
    (hn : k < n) : UpTo k s P (i + n) s' :=
  ⟨fun hle => by omega, fun _ => h⟩

/-- What a failing add leaves. -/
theorem addSource_givesUp (seed : SourceMeta) (uuid : Option String) :
    Prog.GivesUp (addCalls env uuid) (addSource env seed uuid) s
      (UpTo (insertCall uuid) s (Unfinished s s.db.nextSourceId)) := by
  unfold addSource
  extract_lets go
  have hgo : ∀ u, Prog.Line ([true] ++ ([true, true, true, true] ++ ([false] ++
      if env.encoder.version.isSome then [true, true] else []))) (go u) s (fun _ _ => True)
        (UpTo 0 s (Unfinished s s.db.nextSourceId)) := by
    intro u
    refine .state_bind ?_
    refine .bind (Q := fun _ => Unfinished s s.db.nextSourceId)
      (line_commit rfl (fun s' hdb hmem => ⟨?_, hmem⟩) ⟨fun _ => rfl, fun h => by omega⟩) ?_
    · rw [hdb]
      exact ⟨_, OrdMap.get?_insert_self _ _ _, rfl⟩
    intro _ s₁ h₁
    refine .bind ((h₁.record 1 _ none nofun).mono (fun _ _ h => h)
      fun i s' h => UpTo.later (h ▸ h₁) (by decide)) ?_
    intro _ s₂ h₂
    refine .bind (h₂.heartbeat.mono (fun _ _ h => h) fun i s' h => UpTo.later h (by simp)) ?_
    intro _ s₃ h₃
    cases env.encoder.version with
    | none => exact .pure trivial
    | some version =>
        show Prog.Line ([true, true] ++ []) _ _ _ _
        exact .bind ((h₃.patch _).mono (fun _ _ h => h) fun i s' h => UpTo.later (h ▸ h₃) (by simp))
          fun _ _ _ => .pure trivial
  cases uuid with
  | some u => exact (hgo u).givesUp
  | none =>
      have hline : Prog.Line ([true] ++ ([true] ++ ([true, true, true, true] ++ ([false] ++
          if env.encoder.version.isSome then [true, true] else []))))
          (query (fun _ => .ok (env.mint 0)) >>= go) s (fun _ _ => True)
          (UpTo 1 s (Unfinished s s.db.nextSourceId)) := by
        refine .bind (line_query (a := env.mint 0) rfl (Q := fun _ s' => s' = s) rfl
          ⟨fun _ => rfl, fun h => by omega⟩) ?_
        rintro u s rfl
        refine (hgo u).mono (fun _ _ h => h) fun i s' h => ?_
        exact ⟨fun hi => h.1 (by simpa using hi), fun hi => h.2 (by simpa using hi)⟩
      exact hline.givesUp

/-- An add is answered with an error exactly when it gives up. -/
theorem handle_addSource {seed : SourceMeta} {uuid : Option String}
    {faults rest : List (Fault StorageFailure)} {e : Error} {s' : WriterState} :
    (handle env (.addSource seed uuid) s faults = (.ok (.added (.error e)), s', rest) ∨
      handle env (.addSource seed uuid) s faults = (.ok (.resumed (.error e)), s', rest)) ↔
      addSource env seed uuid s faults = (.err e, s', rest) := by
  have hrun : handle env (.addSource seed uuid) s faults =
      match addSource env seed uuid s faults with
      | (.ok id, s₁, fs) => (.ok (.added (.ok id)), { s₁ with mem :=
          { s₁.mem with added := s₁.mem.added + 1, beating := s₁.mem.beating.insert id () } }, fs)
      | (.err e, s₁, fs) => (.ok (.added (.error e)), s₁, fs)
      | (.killed, s₁, fs) => (.killed, s₁, fs) := by
    show (Prog.attempt (addSource env seed uuid) >>= _) s faults = _
    rw [Prog.run_bind, Prog.attempt]
    rcases addSource env seed uuid s faults with ⟨id | e' | -, s₁, fs⟩ <;> rfl
  rw [hrun]
  rcases addSource env seed uuid s faults with ⟨id | e' | -, s₁, fs⟩ <;> simp

/-- A resume is answered with an error exactly when it gives up. -/
theorem handle_resumeSource {source_id : Int} {anchor : Int64}
    {faults rest : List (Fault StorageFailure)} {e : Error} {s' : WriterState} :
    (handle env (.resumeSource source_id anchor) s faults = (.ok (.added (.error e)), s', rest) ∨
      handle env (.resumeSource source_id anchor) s faults =
        (.ok (.resumed (.error e)), s', rest)) ↔
      resumeSource env source_id anchor s faults = (.err e, s', rest) := by
  obtain ⟨k, f, hrun, hok, herr⟩ : ∃ (k : Except Error Resumed → WriterM Reply)
      (f : Resumed → Caches → Caches),
      handle env (.resumeSource source_id anchor) s faults =
        (Prog.attempt (resumeSource env source_id anchor) >>= k) s faults ∧
      (∀ r, k (.ok r) = startHeartbeat env source_id >>= fun _ => remember (f r) >>= fun _ =>
        pure (.resumed (.ok r))) ∧
      ∀ e', k (.error e') = pure (.resumed (.error e')) :=
    ⟨_, _, rfl, fun _ => rfl, fun _ => rfl⟩
  rw [hrun, Prog.run_bind, Prog.attempt]
  rcases resumeSource env source_id anchor s faults with ⟨r | e' | -, s₁, fs⟩
  · dsimp only
    rw [hok, Prog.run_bind]
    rcases startHeartbeat env source_id s₁ fs with ⟨_ | e' | -, s₂, fs'⟩
    · simp [Prog.run_bind, remember, Prog.update, Prog.run_pure]
    · simp
    · simp
  · dsimp only
    rw [herr]
    simp [Prog.run_pure]
  · simp

/-! ## Adding -/

/-- A call before the first write leaves everything, and one after it does not. -/
theorem failsCleanly_iff {calls : List Bool} {α : Type} {m : WriterM α} {msg : Msg} {k : Nat}
    {P : WriterState → Prop} {faults : List (Fault StorageFailure)}
    (hm : Prog.GivesUp calls m s (UpTo k s P))
    (hmsg : ∀ e s' rest, (handle env msg s faults = (.ok (.added (.error e)), s', rest) ∨
      handle env msg s faults = (.ok (.resumed (.error e)), s', rest)) ↔
      m s faults = (.err e, s', rest))
    (hP : ∀ s', P s' → s'.db.sources ≠ s.db.sources) :
    FailsCleanly env msg s faults ↔ ∀ i, Prog.struck calls faults = .err i → i ≤ k := by
  constructor
  · intro h i hi
    obtain ⟨e, s', rest, hrun, hE⟩ := hm.of_struck hi
    by_contra hlt
    exact hP s' (hE.2 (by omega)) (h e s' rest ((hmsg e s' rest).mpr hrun)).1
  · intro h e s' rest hr
    obtain ⟨i, hi, hE⟩ := hm.err ((hmsg e s' rest).mp hr)
    rw [hE.1 (h i hi)]
    exact ⟨rfl, rfl⟩

theorem Unfinished.sources_ne (hid : ∀ cols, s.db.sources.get? id = some cols → cols.complete = true)
    (h : Unfinished s id s₁) : s₁.db.sources ≠ s.db.sources := by
  intro heq
  obtain ⟨cols, hcols, hcomplete⟩ := h.row
  rw [heq] at hcols
  exact absurd ((hid cols hcols).symm.trans hcomplete) (by decide)

theorem addSource_failsCleanly (env : Env) (s : WriterState) (seed : SourceMeta)
    (uuid : Option String) (faults : List (Fault StorageFailure)) :
    FailsCleanly env (.addSource seed uuid) s faults ↔
      ∀ i, Prog.struck (addCalls env uuid) faults = .err i → i ≤ insertCall uuid := by
  refine failsCleanly_iff (addSource_givesUp seed uuid) (fun _ _ _ => handle_addSource) ?_
  refine fun s' hs' => hs'.sources_ne fun cols hcols => ?_
  rw [Archive.nextSourceId_fresh] at hcols
  exact absurd hcols (by simp)

/-! ## Resuming -/

theorem readSources_find {a : Archive} {source_id : Int} {src : SourceRow}
    (h : a.readSources.find? (·.id = source_id) = some src) :
    a.sources.get? source_id = some src.toSourceCols := by
  obtain ⟨e, he, rfl⟩ := List.mem_map.mp (List.mem_of_find?_eq_some h)
  have hid : e.1 = source_id := by simpa using List.find?_some h
  rw [← hid, OrdMap.get?_eq_some]
  exact he

/-- What a resume does once it has passed its checks. -/
def reopen (env : Env) (source_id : Int) (anchor : Int64) (src : SourceRow)
    (last : Option Int64) : WriterM Resumed := do
  commit (.markIncomplete source_id)
  recordSession env 0 source_id anchor (some last)
  return { labels := src.identity.labels, last_ts := last }

/-- The source is marked unfinished, and that is all that happened. -/
structure Reopened (s : WriterState) (id : Int) (s' : WriterState) : Prop where
  db : s'.db = s.db.updateSource id fun cols => { cols with complete := false }
  mem : s'.mem = s.mem

theorem Reopened.unfinished {s' : WriterState} {cols : SourceCols} (h : Reopened s id s')
    (hrow : s.db.sources.get? id = some cols) :
    s'.db.sources.get? id = some { cols with complete := false } := by
  rw [h.db, Archive.get?_updateSource, if_pos rfl, hrow]
  rfl

/-- Marking an unfinished source unfinished changes nothing. -/
theorem Reopened.sources_eq {s' : WriterState} {cols : SourceCols} (h : Reopened s id s')
    (hrow : s.db.sources.get? id = some cols) (hcols : cols.complete = false) :
    s'.db.sources = s.db.sources := by
  refine OrdMap.ext_get? fun id' => ?_
  rw [h.db, Archive.get?_updateSource]
  split
  · rename_i hid
    obtain rfl := hid
    rw [hrow, Option.map_some, ← hcols]
  · rfl

/-- Clearing the flag is its first write, and what fails after it leaves nothing more. -/
theorem reopen_givesUp {source_id : Int} {anchor : Int64} {src : SourceRow} {last : Option Int64}
    (hrow : s.db.sources.get? source_id = some src.toSourceCols) :
    Prog.GivesUp ([true] ++ ([true, true] ++
      if (appendEvent ((src.identity.metadata.get? keys.EVENTS).bind env.parseJson)
        (sessionEvent (env.mint 0) anchor last)).isSome then [true, true] else []))
      (reopen env source_id anchor src last) s (UpTo 0 s (Reopened s source_id)) := by
  have happly : (Write.markIncomplete source_id).apply s.db =
      .ok (s.db.updateSource source_id fun cols => { cols with complete := false }) :=
    if_pos (by rw [hrow]; rfl)
  unfold reopen
  refine Prog.Line.bind_givesUp (Q := fun _ => Reopened s source_id)
    (line_commit happly (fun s' hdb hmem => ⟨hdb, hmem⟩) ⟨fun _ => rfl, fun hlt => by omega⟩) ?_
  intro _ s₁ hreopened
  have hcols := hreopened.unfinished hrow
  have h₁ : Unfinished s source_id s₁ := ⟨⟨_, hcols, rfl⟩, hreopened.mem⟩
  have hmeta : s₁.db.sourceMetadata source_id = .ok src.identity.metadata := by
    rw [Archive.sourceMetadata, hcols]
  refine Prog.GivesUp.bind_pure ?_ _
  rcases hevents : appendEvent ((src.identity.metadata.get? keys.EVENTS).bind env.parseJson)
    (sessionEvent (env.mint 0) anchor last) with _ | events
  · refine (h₁.record_panics 0 anchor last ?_).mono fun i s' h =>
      UpTo.later (h ▸ hreopened) (by decide)
    intro metadata hmeta'
    rw [← Except.ok.inj (hmeta.symm.trans hmeta'), hevents]
  · refine (h₁.record 0 anchor (some last) ?_).givesUp.mono fun i s' h =>
      UpTo.later (h ▸ hreopened) (by decide)
    rintro after metadata hafter hmeta'
    obtain rfl := Option.some.inj hafter
    rw [← Except.ok.inj (hmeta.symm.trans hmeta'), hevents]
    rfl

/-- What a failing resume of a source that passes its checks leaves. -/
theorem resumeSource_givesUp {source_id : Int} {anchor : Int64} {src : SourceRow}
    (h : Resumes env s.db source_id anchor src) :
    Prog.GivesUp (resumeCalls env s.db source_id anchor src) (resumeSource env source_id anchor) s
      (UpTo markCall s (Reopened s source_id)) := by
  have hrow := readSources_find h.found
  have hbefore : ∀ i ≤ markCall, UpTo markCall s (Reopened s source_id) i s :=
    fun i hi => ⟨fun _ => rfl, fun hlt => by omega⟩
  unfold resumeSource
  show Prog.GivesUp ([true] ++ ([] ++ ([true] ++ ([true] ++ ([true, true] ++
    if (resumedEvents env s.db source_id anchor src).isSome then [true, true] else []))))) _ _ _
  refine Prog.Line.bind_givesUp (line_query (a := s.db.readSources) rfl
    (Q := fun sources s' => sources = s.db.readSources ∧ s' = s) ⟨rfl, rfl⟩
    (hbefore _ (by decide))) ?_
  rintro _ s ⟨rfl, rfl⟩
  simp only [h.found]
  refine Prog.Line.bind_givesUp (.lift h.encoder (Q := fun _ s' => s' = s) rfl) ?_
  rintro _ s rfl
  refine Prog.Line.bind_givesUp (line_query (a := s.db.sourceTimeSpan source_id) rfl
    (Q := fun span s' => span = s.db.sourceTimeSpan source_id ∧ s' = s) ⟨rfl, rfl⟩
    (hbefore _ (by decide))) ?_
  rintro _ s ⟨rfl, rfl⟩
  unfold resumedEvents
  have hlater := h.later
  generalize s.db.sourceTimeSpan source_id = span at hlater ⊢
  obtain ⟨first, last⟩ := span
  have hgo : Prog.GivesUp ([true] ++ ([true, true] ++
      if (appendEvent ((src.identity.metadata.get? keys.EVENTS).bind env.parseJson)
        (sessionEvent (env.mint 0) anchor last)).isSome then [true, true] else []))
      (reopen env source_id anchor src last) s
      fun i => UpTo markCall s (Reopened s source_id) (i + [true, true].length) := by
    refine (reopen_givesUp hrow).mono fun i s' hi => ?_
    refine ⟨fun hle => hi.1 ?_, fun hlt => hi.2 ?_⟩ <;>
    · simp [markCall] at *
      omega
  cases last with
  | none => exact hgo
  | some floor =>
      have hlt : ¬anchor ≤ floor := Int64.not_le.mpr (hlater floor rfl)
      dsimp only
      rw [if_neg hlt]
      exact hgo

/-- A resume that does not pass its checks has done nothing when it gives up. -/
theorem resumeSource_refused {source_id : Int} {anchor : Int64}
    (h : ∀ src, ¬Resumes env s.db source_id anchor src) :
    Prog.Ends (resumeSource env source_id anchor) s fun r s' => ∀ e, r = .err e → s' = s := by
  have hsame : ∀ r : Outcome Error Resumed, ∀ e, r = .err e → s = s := fun _ _ _ => rfl
  unfold resumeSource
  refine .read_bind (fun _ => hsame _) (hsame _) fun sources hsources => ?_
  obtain rfl := Except.ok.inj hsources
  split
  · exact .fail (hsame _)
  rename_i src hfound
  refine .lift_bind (fun _ _ => hsame _) fun _ hencoder => ?_
  refine .read_bind (fun _ => hsame _) (hsame _) fun span hspan => ?_
  obtain rfl := Except.ok.inj hspan
  have hlater := fun hlater => h src ⟨hfound, hencoder, hlater⟩
  generalize s.db.sourceTimeSpan source_id = span at hlater ⊢
  obtain ⟨first, last⟩ := span
  cases last with
  | none => exact absurd nofun hlater
  | some floor =>
      have hle : anchor ≤ floor := by
        by_contra hlt
        refine hlater fun floor' hfloor => ?_
        obtain rfl := Option.some.inj hfloor
        exact Int64.not_le.mp hlt
      dsimp only
      rw [if_pos hle]
      exact fun _ _ _ => rfl

theorem resumeSource_failsCleanly (env : Env) (s : WriterState) (source_id : Int)
    (anchor : Int64) (faults : List (Fault StorageFailure)) :
    FailsCleanly env (.resumeSource source_id anchor) s faults ↔
      ∀ src, Resumes env s.db source_id anchor src → src.complete = true →
        ∀ i, Prog.struck (resumeCalls env s.db source_id anchor src) faults = .err i →
          i ≤ markCall := by
  by_cases hresumes : ∃ src, Resumes env s.db source_id anchor src
  swap
  · have hrefused := resumeSource_refused (fun src hsrc => hresumes ⟨src, hsrc⟩) faults
    refine iff_of_true (fun e s' rest hr => ?_) fun src hsrc => absurd ⟨src, hsrc⟩ hresumes
    have hrun := handle_resumeSource.mp hr
    rw [hrun] at hrefused
    obtain rfl := hrefused e rfl
    exact ⟨rfl, rfl⟩
  obtain ⟨src, hsrc⟩ := hresumes
  have hrow := readSources_find hsrc.found
  have hgives := resumeSource_givesUp hsrc
  have honly : ∀ src', Resumes env s.db source_id anchor src' → src' = src := fun src' hsrc' =>
    Option.some.inj (hsrc'.found.symm.trans hsrc.found)
  cases hcomplete : src.complete with
  | false =>
      -- the flag was clear already
      refine iff_of_true (fun e s' rest hr => ?_) fun src' hsrc' hc => ?_
      · obtain ⟨i, -, hE⟩ := hgives.err (handle_resumeSource.mp hr)
        rcases Nat.lt_or_ge markCall i with hlt | hle
        · exact ⟨(hE.2 hlt).sources_eq hrow hcomplete, (hE.2 hlt).mem⟩
        · rw [hE.1 hle]
          exact ⟨rfl, rfl⟩
      · rw [honly src' hsrc', hcomplete] at hc
        exact absurd hc (by simp)
  | true =>
      have hP : ∀ s', Reopened s source_id s' → s'.db.sources ≠ s.db.sources := by
        intro s' hs' heq
        have hcols := hs'.unfinished hrow
        rw [heq, hrow] at hcols
        have := congrArg SourceCols.complete (Option.some.inj hcols)
        rw [hcomplete] at this
        exact absurd this (by simp)
      rw [failsCleanly_iff hgives (fun _ _ _ => handle_resumeSource) hP]
      constructor
      · intro h src' hsrc' _ i
        rw [honly src' hsrc']
        exact h i
      · exact fun h => h src hsrc hcomplete

/-- **An add or a resume that is answered with an error changes nothing exactly when the call
that failed was not after its first write.** That write is the row of an added source; of a
resume that passes its checks it is the flag, and then the source had to be finished for
anything to change. -/
theorem failed_source_changes_nothing_iff (env : Env) (s : WriterState)
    (faults : List (Fault StorageFailure)) :
    (∀ seed uuid, FailsCleanly env (.addSource seed uuid) s faults ↔
      ∀ i, Prog.struck (addCalls env uuid) faults = .err i → i ≤ insertCall uuid) ∧
    (∀ source_id anchor, FailsCleanly env (.resumeSource source_id anchor) s faults ↔
      ∀ src, Resumes env s.db source_id anchor src → src.complete = true →
        ∀ i, Prog.struck (resumeCalls env s.db source_id anchor src) faults = .err i →
          i ≤ markCall) :=
  ⟨fun seed uuid => addSource_failsCleanly env s seed uuid faults,
    fun source_id anchor => resumeSource_failsCleanly env s source_id anchor faults⟩

end

/-! ### A finished source -/

/-- An identity with nothing in it. -/
def plainSeed : SourceMeta := { labels := ∅, metadata := ∅, clock_anchor_wall_ns := 0 }

/-- A file with one source, added and finished. -/
def finishedSource : World := (World.create .table).run
  [.message .idle (.addSource plainSeed none) [], .message .idle (.finalize 1 (5, 0)) []]

/-- The thread that finished it. -/
def finishedState : WriterState where
  disk := finishedSource.disk
  mem := finishedSource.mem.getD (.seed finishedSource.disk.db)

/-- Nothing is left on the disk when the session is to be recorded. -/
def recordFails (before : Nat) : List (Fault StorageFailure) :=
  List.replicate before .none ++
    [.fails ⟨"failed to mint a uuid", .sqliteFailure .diskFull "database or disk is full"⟩]

/-- An answer with an error that leaves the row of a source changed. -/
theorem not_failsCleanly {env : Env} {msg : Msg} {s : WriterState}
    {faults : List (Fault StorageFailure)} {e : Error} (id : Int)
    (hreply : (handle env msg s faults).1 = .ok (.added (.error e)) ∨
      (handle env msg s faults).1 = .ok (.resumed (.error e)))
    (hrow : ((handle env msg s faults).2.1.db.sources.get? id).map (·.complete) ≠
      (s.db.sources.get? id).map (·.complete)) : ¬FailsCleanly env msg s faults := by
  intro h
  have hsame : (handle env msg s faults).2.1.db.sources = s.db.sources := by
    rcases hreply with hr | hr
    · exact (h e _ _ (.inl (Prod.ext hr rfl))).1
    · exact (h e _ _ (.inr (Prod.ext hr rfl))).1
  exact hrow (by rw [hsame])

/-- **A resume answered with an error leaves a finished source unfinished, and an add answered
with an error leaves a source behind.** -/
theorem failed_source_leaves_a_write :
    ((finishedState.db.sources.get? 1).map (·.complete) = some true ∧
      (∃ e, (handle .idle (.resumeSource 1 10) finishedState (recordFails 3)).1 =
        .ok (.resumed (.error e))) ∧
      ((handle .idle (.resumeSource 1 10) finishedState (recordFails 3)).2.1.db.sources.get? 1).map
        (·.complete) = some false ∧
      ¬FailsCleanly .idle (.resumeSource 1 10) finishedState (recordFails 3)) ∧
    ((finishedState.db.sources.get? 2).isSome = false ∧
      (∃ e, (handle .idle (.addSource plainSeed none) finishedState (recordFails 2)).1 =
        .ok (.added (.error e))) ∧
      ((handle .idle (.addSource plainSeed none) finishedState
        (recordFails 2)).2.1.db.sources.get? 2).isSome ∧
      ¬FailsCleanly .idle (.addSource plainSeed none) finishedState (recordFails 2)) := by
  refine ⟨⟨by decide, ⟨_, rfl⟩, by decide, ?_⟩, ⟨by decide, ⟨_, rfl⟩, by decide, ?_⟩⟩
  · exact not_failsCleanly 1 (.inr rfl) (by decide)
  · exact not_failsCleanly 2 (.inl rfl) (by decide)

end Dendro
