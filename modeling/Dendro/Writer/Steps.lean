import Dendro.Archive.Stream
import Dendro.SegmentProof
import Dendro.Writer.Loop

/-!
# What the writer thread can do

`WriterStep` says once what one step of the thread can do: which transaction it runs, what
it had checked before, and which of its caches it changes with it. `handle_runs` is the
proof that every message is handled by such steps alone, whatever fails and wherever the
process is killed. Every invariant of the writer is then a case analysis over the steps.

A seal and an adoption change the file and the caches in one step: nothing can come between
the commit and the update that follows it.
-/

namespace Dendro

open WriterM

/-- What the thread knows of the segments it is about to insert for a batch: each stream's
are a seal of its live rows, numbered from the stream's next `seq`. -/
structure SealPlan (env : Env) (s : WriterState) (source_id : Int) (batch : List String)
    (encoded : List Encoded) (parts : String → List Segment) : Prop where
  sealOf : ∀ stream, ∃ uuid, SealOf env.encoder ⟨source_id, uuid, stream⟩
    (s.db.liveWal source_id stream) (parts stream)
  encoded_eq : encoded = batch.flatMap fun stream =>
    numbered stream (nextSeq s.mem source_id stream) (parts stream)

/-- What a batch's clock observation is made of: the newest row of one of its segments. -/
def Observed (a : Archive) (source_id : Int) (encoded : List Encoded)
    (observation : Option (Int64 × Int64)) : Prop :=
  ∀ o, observation = some o → ∃ e ∈ encoded, ∃ r ∈ a.liveWal source_id e.stream,
    r.ts = e.seg_meta.last_ts ∧ o = (r.ts, r.wall_offset)

/-- What the thread checked of a segment built elsewhere. -/
structure AdoptPlan (s : WriterState) (source_id : Int) (segment : Adopted) : Prop where
  rows : segment.seg_meta.rows ≠ 0
  span : segment.seg_meta.first_ts ≤ segment.seg_meta.last_ts
  past : ∀ w, s.mem.watermarks.get? (streamKey source_id segment.stream) = some w →
    w < segment.seg_meta.first_ts
  before_live : ∀ first, (s.db.liveWalSpan source_id segment.stream).first_ts = some first →
    segment.seg_meta.last_ts < first

/-- The caches after an adoption. -/
def adopted (source_id : Int) (segment : Adopted) (seq : Nat) (m : Caches) : Caches :=
  { m with
    next_seq := m.next_seq.insert (streamKey source_id segment.stream) (seq + 1)
    watermarks := m.watermarks.insert (streamKey source_id segment.stream)
      segment.seg_meta.last_ts }

/-- What the thread knows of the file, of all that it remembers. -/
def Caches.knows (m : Caches) :
    OrdMap StreamKey Nat × OrdMap StreamKey Int64 × OrdMap Int Int64 :=
  (m.next_seq, m.watermarks, m.floors)

/-- The messages that seal, and so may defer a seal or take one off the list. -/
def Msg.seals : Msg → Bool
  | .seal .. | .evict .. => true
  | _ => false

/-- A transaction that appends for the caller, or records what the caller observed, is the one
its message asks for. -/
def Write.askedBy (msg : Msg) : Write → Prop
  | .callerRows source_id stream rows => msg = .callerRows source_id stream rows
  | .clockOffset source_id ts offset_ns => msg = .clockOffset source_id ts offset_ns
  | .finalize source_id ts offset_ns => msg = .finalize source_id (ts, offset_ns)
  | _ => True

/-- One step of the thread while it handles a message. -/
inductive WriterStep (env : Env) (msg : Msg) : WriterState → WriterState → Prop where
  /-- What the thread remembers changes, but not what it knows of the file. -/
  | memory {s : WriterState} {m : Caches} : m.knows = s.mem.knows →
      (msg.seals = false → m.deferred = s.mem.deferred) →
      WriterStep env msg s { s with mem := m }
  /-- A resume sets its source's floor. -/
  | resumed {s : WriterState} {source_id : Int} {anchor : Int64} {m : Caches} :
      msg = .resumeSource source_id anchor → m.next_seq = s.mem.next_seq →
      m.watermarks = s.mem.watermarks → m.deferred = s.mem.deferred →
      (∀ id ≠ source_id, m.floors.get? id = s.mem.floors.get? id) →
      WriterStep env msg s { s with mem := m }
  | beside {s : WriterState} {w : Write} : w.beside → w.askedBy msg →
      WriterStep env msg s (s.run w)
  /-- Rows of the message's ticks, none of them at or below its source's floor or what the
  thread takes for its stream's watermark. -/
  | walRows {s : WriterState} {asked ticks : List (Int × List WalRow)} :
      msg = .wal asked → ticks ⊆ admitted s.mem asked →
      (∀ t ∈ ticks, belowFloor s.mem t = false) →
      (∀ t ∈ ticks, ∀ r ∈ t.2, shadows s.mem t.1 r = false) →
      WriterStep env msg s (s.run (.walRows ticks))
  /-- A prune, never past the watermark. -/
  | prune {s : WriterState} {source_id : Int} {stream : String} {upto_ts w : Int64} :
      s.db.watermark (streamKey source_id stream) = some w → upto_ts ≤ w →
      WriterStep env msg s (s.run (.pruneWal source_id stream upto_ts))
  | evict {s : WriterState} (source_id : Int) (cutoff_ts : Int64)
      (floor : Option Archive.CallerRowFloor) (names : List String) :
      (∃ streams, msg = .evict source_id cutoff_ts streams floor) →
      (floor.isSome = true → names = s.db.callerRowStreams source_id) →
      WriterStep env msg s (s.run (.evict source_id cutoff_ts floor names))
  | evictStreams {s : WriterState} (source_id : Int) (cutoff_ts : Int64)
      (floor : Option Archive.CallerRowFloor) (streams : List String) :
      (∃ asked, msg = .evict source_id cutoff_ts asked floor) → streams.Nodup →
      WriterStep env msg s (s.run (.evictStreams source_id cutoff_ts floor streams))
  | sealed {s : WriterState} {source_id : Int} {batch : List String} {encoded : List Encoded}
      {parts : String → List Segment} {observation : Option (Int64 × Int64)} {db : Archive} :
      msg.seals = true → SealPlan env s source_id batch encoded parts →
      Observed s.db source_id encoded observation →
      (Write.seal source_id batch encoded observation).apply s.db = .ok db →
      WriterStep env msg s { s.run (.seal source_id batch encoded observation) with
        mem := sealed source_id s.mem encoded }
  | sealRefused {s : WriterState} {source_id : Int} {batch : List String}
      {encoded : List Encoded} {parts : String → List Segment}
      {observation : Option (Int64 × Int64)} {e : Error} :
      msg.seals = true → SealPlan env s source_id batch encoded parts →
      (Write.seal source_id batch encoded observation).apply s.db = .error e →
      WriterStep env msg s (s.run (.seal source_id batch encoded observation))
  | adopted {s : WriterState} {source_id : Int} {segment : Adopted} {db : Archive} :
      msg = .adoptSegment source_id segment → AdoptPlan s source_id segment →
      (Write.adopt source_id segment (nextSeq s.mem source_id segment.stream)).apply s.db
        = .ok db →
      WriterStep env msg s
        { s.run (.adopt source_id segment (nextSeq s.mem source_id segment.stream)) with
          mem := adopted source_id segment (nextSeq s.mem source_id segment.stream) s.mem }
  | adoptRefused {s : WriterState} {source_id : Int} {segment : Adopted} {e : Error} :
      msg = .adoptSegment source_id segment → AdoptPlan s source_id segment →
      (Write.adopt source_id segment (nextSeq s.mem source_id segment.stream)).apply s.db
        = .error e →
      WriterStep env msg s
        (s.run (.adopt source_id segment (nextSeq s.mem source_id segment.stream)))

open Relation

/-! ## The primitives -/

section Primitives

variable {env : Env} {msg : Msg} {s : WriterState} {α β : Type}

/-- From `s`, `m` makes only writer steps, and `Q` holds of what it returns and leaves. -/
abbrev Steps (env : Env) (msg : Msg) (m : WriterM α) (s : WriterState)
    (Q : α → WriterState → Prop) : Prop :=
  Prog.Runs (WriterStep env msg) m s Q fun _ _ => True

variable {Q : α → WriterState → Prop}

theorem steps_query {f : Archive → Except Error α} (h : ∀ a, f s.db = .ok a → Q a s) :
    Steps env msg (query f) s Q :=
  .read h (fun _ _ => trivial) fun _ => trivial

theorem run_of_ok {w : Write} {db : Archive} (h : w.apply s.db = .ok db) :
    s.run w = { s with disk := { s.disk with db, log := s.disk.log ++ [(s.db, w)] } } := by
  have : w.apply s.disk.db = .ok db := h
  simp [WriterState.run, Disk.run, this]

theorem run_of_error {w : Write} {e : Error} (h : w.apply s.db = .error e) :
    s.run w = { s with disk := { s.disk with
      refused := s.disk.refused ++ [⟨s.db, w, e⟩] } } := by
  have : w.apply s.disk.db = .error e := h
  simp [WriterState.run, Disk.run, this]

theorem run_fst (s : WriterState) (w : Write) :
    (s.disk.run w).1 = (w.apply s.db).map fun _ => () := by
  rcases h : w.apply s.disk.db with e | db <;> simp [Disk.run, h, Except.map]

/-- What a transaction leaves of the file: it was refused, or it is the last of the log. -/
theorem run_record (s : WriterState) (w : Write) :
    ((s.run w).disk.log = s.disk.log ∧ (s.run w).db = s.db) ∨
      ((s.run w).disk.log = s.disk.log ++ [(s.db, w)] ∧ w.apply s.db = .ok (s.run w).db) := by
  rcases h : w.apply s.db with e | db
  · rw [run_of_error h]
    exact .inl ⟨rfl, rfl⟩
  · rw [run_of_ok h]
    exact .inr ⟨rfl, rfl⟩

/-- **A step leaves the file, or commits one transaction.** -/
theorem WriterStep.record {s' : WriterState} (h : WriterStep env msg s s') :
    (s'.disk.log = s.disk.log ∧ s'.db = s.db) ∨
      ∃ w, s'.disk.log = s.disk.log ++ [(s.db, w)] ∧ w.apply s.db = .ok s'.db := by
  cases h with
  | memory | resumed => exact .inl ⟨rfl, rfl⟩
  | _ => exact (run_record s _).imp id fun h => ⟨_, h⟩

/-- How a commit goes, by how its transaction does. -/
theorem commit_cases {w : Write} {r : Except Error Unit} {s' : WriterState}
    (h : ((s.disk.run w).1, s.run w) = (r, s')) : s' = s.run w ∧
      ((∃ db, w.apply s.db = .ok db ∧ r = .ok ()) ∨ ∃ e, w.apply s.db = .error e ∧ r = .error e) := by
  obtain ⟨hr, rfl⟩ := Prod.mk.inj h
  rw [run_fst] at hr
  refine ⟨rfl, ?_⟩
  rcases ha : w.apply s.db with e | db
  · exact .inr ⟨e, rfl, by rw [← hr, ha]; rfl⟩
  · exact .inl ⟨db, rfl, by rw [← hr, ha]; rfl⟩

theorem steps_commit {w : Write} {Q : Unit → WriterState → Prop}
    (hstep : WriterStep env msg s (s.run w))
    (hok : ∀ db, w.apply s.db = .ok db → Q () (s.run w)) : Steps env msg (commit w) s Q := by
  refine .call (fun _ s' h => ?_) (fun _ s' h => ?_) fun _ => trivial
  · obtain ⟨rfl, ⟨db, ha, -⟩ | ⟨e, -, he⟩⟩ := commit_cases h
    · exact ⟨.single hstep, hok db ha⟩
    · exact absurd he (by simp)
  · obtain ⟨rfl, -⟩ := commit_cases h
    exact ⟨.single hstep, trivial⟩

/-- A commit with the change of memory that belongs to it. -/
theorem steps_commit_remember {w : Write} {g : Caches → Caches} {k : Unit → WriterM α}
    (hok : ∀ db, w.apply s.db = .ok db →
      WriterStep env msg s { s.run w with mem := g s.mem } ∧
        Steps env msg (k ()) { s.run w with mem := g s.mem } Q)
    (herr : ∀ e, w.apply s.db = .error e → WriterStep env msg s (s.run w)) :
    Steps env msg (commit w >>= fun _ => remember g >>= k) s Q := by
  refine .call_update (fun _ s' h => ?_) (fun e s' h => ?_) fun _ => trivial
  · obtain ⟨rfl, ⟨db, ha, -⟩ | ⟨e, -, he⟩⟩ := commit_cases h
    · exact ⟨.single (hok db ha).1, (hok db ha).2⟩
    · exact absurd he (by simp)
  · obtain ⟨rfl, ⟨db, -, hr⟩ | ⟨e, ha, -⟩⟩ := commit_cases h
    · exact absurd hr (by simp)
    · exact ⟨.single (herr e ha), trivial⟩

/-- A change of memory that keeps what the thread knows of the file. -/
theorem steps_remember {f : Caches → Caches} {Q : Unit → WriterState → Prop}
    (hf : (f s.mem).knows = s.mem.knows)
    (hd : msg.seals = false → (f s.mem).deferred = s.mem.deferred)
    (h : Q () { s with mem := f s.mem }) : Steps env msg (remember f) s Q :=
  .update (.memory hf hd) h

theorem steps_remember_bind {f : Caches → Caches} {k : Unit → WriterM α}
    (hf : (f s.mem).knows = s.mem.knows)
    (hd : msg.seals = false → (f s.mem).deferred = s.mem.deferred)
    (h : Steps env msg (k ()) { s with mem := f s.mem } Q) :
    Steps env msg (remember f >>= k) s Q :=
  .bind (Q := fun _ s' => s' = { s with mem := f s.mem }) (steps_remember hf hd rfl)
    fun _ _ hs => hs ▸ h

theorem steps_remembered_bind {k : Caches → WriterM α} (h : Steps env msg (k s.mem) s Q) :
    Steps env msg (remembered >>= k) s Q := h

theorem steps_state_bind {k : WriterState → WriterM α} (h : Steps env msg (k s) s Q) :
    Steps env msg (Prog.state >>= k) s Q := h

theorem steps_query_bind {f : Archive → Except Error β} {k : β → WriterM α}
    (h : ∀ b, f s.db = .ok b → Steps env msg (k b) s Q) : Steps env msg (query f >>= k) s Q :=
  .bind (Q := fun b s' => s' = s ∧ f s.db = .ok b) (steps_query fun _ hb => ⟨rfl, hb⟩)
    fun b _ hs => hs.1 ▸ h b hs.2

theorem steps_attempt {m : WriterM α} {Q : Except Error α → WriterState → Prop}
    (hm : Steps env msg m s fun a s' => Q (.ok a) s') (herr : ∀ e s', Q (.error e) s') :
    Steps env msg (Prog.attempt m) s Q :=
  .attempt hm (fun _ _ h => h) fun e s' _ => herr e s'

theorem steps_retries {m : WriterM α} {Q : α → WriterState → Prop}
    (hm : ∀ s, Steps env msg m s Q) : ∀ s, Steps env msg (withRetries m) s Q := fun s =>
  (Prog.Runs.retry (I := fun _ => True) (E := fun _ _ => True)
    (fun s _ => (hm s).mono (fun _ _ h => h) fun _ _ _ => ⟨trivial, trivial⟩) 3 s trivial).mono
      (fun _ _ h => h) fun _ _ _ => trivial

end Primitives

/-! ## Ticks -/

section Handlers

variable {env : Env} {msg : Msg}

theorem shadows_congr {m m' : Caches} (h : m'.knows = m.knows) : shadows m' = shadows m := by
  have hw : m'.watermarks = m.watermarks := congrArg (·.2.1) h
  funext source_id r
  rw [shadows, shadows, hw]

theorem belowFloor_congr {m m' : Caches} (h : m'.knows = m.knows) :
    belowFloor m' = belowFloor m := by
  have hf : m'.floors = m.floors := congrArg (·.2.2) h
  funext t
  rw [belowFloor, belowFloor, hf]

theorem admitted_congr {m m' : Caches} (h : m'.knows = m.knows) : admitted m' = admitted m := by
  funext ticks
  unfold admitted dropShadowed
  rw [belowFloor_congr h, shadows_congr h]

/-- A part of a tick that the floor lets through is let through. -/
theorem belowFloor_sublist {m : Caches} {source_id : Int} {rows rows' : List WalRow}
    (hsub : rows' ⊆ rows) (h : belowFloor m (source_id, rows) = false) :
    belowFloor m (source_id, rows') = false := by
  unfold belowFloor at h ⊢
  split
  · rename_i floor hfloor
    simp only [hfloor, List.any_eq_false] at h ⊢
    exact fun r hr => h r (hsub hr)
  · rfl

/-- **No admitted tick is below its source's floor.** -/
theorem admitted_past {m : Caches} {ticks : List (Int × List WalRow)} {t : Int × List WalRow}
    (ht : t ∈ admitted m ticks) : belowFloor m t = false := by
  unfold admitted dropShadowed at ht
  split at ht
  · obtain ⟨u, hu, hkeep⟩ := List.mem_filterMap.mp ht
    have hpast : belowFloor m u = false := by simpa using (List.mem_filter.mp hu).2
    dsimp only at hkeep
    split at hkeep
    · exact absurd hkeep (by simp)
    · obtain rfl := Option.some.inj hkeep
      exact belowFloor_sublist List.filter_sublist.subset hpast
  · simpa using (List.mem_filter.mp ht).2

/-- **No row of an admitted tick is shadowed.** -/
theorem admitted_live {m : Caches} {ticks : List (Int × List WalRow)} {t : Int × List WalRow}
    (ht : t ∈ admitted m ticks) {r : WalRow} (hr : r ∈ t.2) : shadows m t.1 r = false := by
  unfold admitted dropShadowed at ht
  split at ht
  · obtain ⟨u, -, hu⟩ := List.mem_filterMap.mp ht
    dsimp only at hu
    split at hu
    · exact absurd hu (by simp)
    · obtain rfl := Option.some.inj hu
      simpa using (List.mem_filter.mp hr).2
  · rename_i hnone
    simp only [List.any_eq_true, not_exists, not_and, Bool.not_eq_true] at hnone
    exact hnone t ht r hr

theorem steps_committed {s : WriterState} {Q : Unit → WriterState → Prop}
    (h : Q () { s with mem := { s.mem with consecutive_dropped := 0 } }) :
    Steps env msg committed s Q :=
  steps_remember rfl (fun _ => rfl) h

theorem steps_dropped (e : Error) {s : WriterState} {Q : Unit → WriterState → Prop}
    (h : ∀ n, Q () { s with mem := { s.mem with consecutive_dropped := n } }) :
    Steps env msg (dropped e) s Q := by
  unfold dropped
  refine steps_remember_bind rfl (fun _ => rfl) (steps_remembered_bind ?_)
  dsimp only
  split
  · exact .fail trivial
  · exact .pure (h _)

/-- A tick's commit leaves what the thread knows as it is. -/
theorem steps_commitRows {ticks kept : List (Int × List WalRow)} {m : Caches} {s : WriterState}
    (hmsg : msg = .wal ticks) (hs : s.mem.knows = m.knows) (hsub : kept ⊆ admitted m ticks) :
    Steps env msg (Prog.attempt (withRetries (commit (.walRows kept)))) s
      fun _ s' => s'.mem.knows = m.knows := by
  refine .attempt (Q := fun _ s' => s'.mem.knows = m.knows)
    (E := fun _ s' => s'.mem.knows = m.knows ∧ True) ?_
    (fun _ _ h => h) (fun _ _ h => h.1)
  refine Prog.Runs.retry (I := fun s' => s'.mem.knows = m.knows) (fun s hs => ?_) 3 s hs
  have hstep : WriterStep env msg s (s.run (.walRows kept)) :=
    .walRows hmsg (admitted_congr hs ▸ hsub)
      (fun t ht => belowFloor_congr hs ▸ admitted_past (hsub ht))
      fun t ht r hr => shadows_congr hs ▸ admitted_live (hsub ht) hr
  refine .call (fun _ s' h => ?_) (fun _ s' h => ?_) fun _ => ⟨hs, trivial⟩
  · obtain ⟨rfl, -⟩ := commit_cases h
    exact ⟨.single hstep, hs⟩
  · obtain ⟨rfl, -⟩ := commit_cases h
    exact ⟨.single hstep, hs, trivial⟩

theorem steps_commitSource {ticks : List (Int × List WalRow)} {m : Caches} {any : Bool}
    {t : Int × List WalRow} {s : WriterState} (hmsg : msg = .wal ticks)
    (hs : s.mem.knows = m.knows) (ht : t ∈ admitted m ticks) :
    Steps env msg (commitSource any t) s fun _ s' => s'.mem.knows = m.knows := by
  unfold commitSource
  refine (steps_commitRows hmsg hs (by simpa using ht)).bind fun r s₁ hs₁ => ?_
  cases r with
  | ok => exact .pure hs₁
  | error e =>
      dsimp only
      split
      · exact .pure hs₁
      · split
        · exact (steps_dropped e fun n => hs₁).bind fun _ _ h => .pure h
        · exact .fail trivial

theorem steps_commitTick (ticks : List (Int × List WalRow)) (s : WriterState) :
    Steps env (.wal ticks) (commitTick ticks) s fun _ _ => True := by
  unfold commitTick
  refine steps_remembered_bind ?_
  refine steps_remember_bind rfl (fun _ => rfl) ?_
  dsimp only
  split
  · exact .pure trivial
  · refine .bind (Q := fun _ s' => s'.mem.knows = s.mem.knows)
      (@steps_commitRows _ _ ticks _ _ _ rfl (by rfl) (List.Subset.refl _)) fun r s₁ hs₁ => ?_
    cases r with
    | ok => exact steps_committed trivial
    | error e =>
        dsimp only
        split
        · -- a constraint: each source's part of the tick on its own
          refine Prog.Runs.bind (Q := fun _ _ => True) ?_ fun any s₂ _ => ?_
          · refine (Prog.Runs.foldEach (I := fun rest _ s' => s'.mem.knows =
              s.mem.knows ∧ rest ⊆ admitted s.mem ticks) ?_
              ⟨hs₁, List.Subset.refl _⟩).mono (fun _ _ _ => trivial) fun _ _ h => h
            rintro t rest any s' ⟨hs', hsub⟩
            refine (steps_commitSource rfl hs' (hsub (by simp))).mono (fun _ _ h => ?_) fun _ _ h => h
            exact ⟨h, fun x hx => hsub (List.mem_cons_of_mem _ hx)⟩
          · split
            · exact steps_committed trivial
            · exact .pure trivial
        · split
          · exact steps_dropped e fun _ => trivial
          · exact .fail trivial

/-! ## Seals -/

theorem lastParts_subset : ∀ es : List Encoded, lastParts es ⊆ es
  | [] => by simp [lastParts]
  | [e] => by simp [lastParts]
  | e :: next :: es => by
      unfold lastParts
      split
      · exact fun x hx => List.mem_cons_of_mem _ (lastParts_subset (next :: es) hx)
      · exact List.cons_subset_cons e (lastParts_subset (next :: es))

/-- The parts a stream's live rows seal into, none where the encoder failed. -/
def partsOf (env : Env) (s : WriterState) (source_id : Int) (uuid : Option String)
    (max_rows : Nat) (stream : String) : List Segment :=
  match splitSeal env.encoder ⟨source_id, uuid, stream⟩ (s.db.liveWal source_id stream) max_rows with
  | .ok parts => parts
  | .error _ => []

theorem partsOf_sealOf {s : WriterState} {source_id : Int} {uuid : Option String}
    {max_rows : Nat} (stream : String) : SealOf env.encoder ⟨source_id, uuid, stream⟩
      (s.db.liveWal source_id stream) (partsOf env s source_id uuid max_rows stream) := by
  unfold partsOf
  split
  · exact splitSeal_sealOf ‹_›
  · exact .inl rfl

theorem splitSeal_nil {encoder : SegmentEncoder} {ctx : EncodeContext} {max_rows : Nat} :
    splitSeal encoder ctx [] max_rows = .ok [] := by
  unfold splitSeal
  simp only [List.length_nil, Nat.zero_le, if_true]
  rfl

theorem Observed.mono {a : Archive} {source_id : Int} {es es' : List Encoded}
    {observation : Option (Int64 × Int64)} (h : Observed a source_id es observation)
    (hsub : es ⊆ es') : Observed a source_id es' observation := by
  intro o ho
  obtain ⟨e, he, hr⟩ := h o ho
  exact ⟨e, hsub he, hr⟩

/-- The newest row of a stream's last part joins a batch's observation. -/
theorem Observed.observe {a : Archive} {source_id : Int} {es : List Encoded}
    {observation : Option (Int64 × Int64)} (h : Observed a source_id es observation)
    {stream : String} {first_seq : Nat} {parts : List Segment} {tail : Segment} {r : WalRow}
    (hlast : parts.getLast? = some tail)
    (hr : (a.liveWal source_id stream).reverse.find? (·.ts = tail.last_ts) = some r) :
    Observed a source_id (es ++ numbered stream first_seq parts) (observe observation r) := by
  have hnew : ∃ e ∈ numbered stream first_seq parts, ∃ r' ∈ a.liveWal source_id e.stream,
      r'.ts = e.seg_meta.last_ts ∧ (r.ts, r.wall_offset) = (r'.ts, r'.wall_offset) := by
    obtain ⟨init, rfl⟩ := List.getLast?_eq_some_iff.mp hlast
    refine ⟨encodedPart stream (first_seq + init.length) tail, ?_, r, ?_, ?_, rfl⟩
    · simp [numbered, List.zipIdx_append]
    · exact List.mem_reverse.mp (List.mem_of_find?_eq_some hr)
    · have hts := List.find?_some hr
      exact of_decide_eq_true hts
  have hkeep : Observed a source_id (es ++ numbered stream first_seq parts) observation :=
    h.mono (List.subset_append_left _ _)
  intro o ho
  unfold Dendro.observe at ho
  split at ho
  · rename_i seen offset
    split at ho
    · obtain rfl := Option.some.inj ho
      obtain ⟨e, he, hrow⟩ := hnew
      exact ⟨e, List.mem_append_right _ he, hrow⟩
    · exact hkeep o ho
  · obtain rfl := Option.some.inj ho
    obtain ⟨e, he, hrow⟩ := hnew
    exact ⟨e, List.mem_append_right _ he, hrow⟩

/-- What encoding one stream adds to a batch. -/
theorem steps_encodeStream {s : WriterState} {source_id : Int} {uuid : Option String}
    {max_rows : Nat} {acc : Batch} {stream : String} (hacc : Observed s.db source_id acc.1 acc.2) :
    Steps env msg (encodeStream env source_id uuid max_rows acc stream) s fun acc' s' => s' = s ∧
      acc'.1 = acc.1 ++ numbered stream (nextSeq s.mem source_id stream)
        (partsOf env s source_id uuid max_rows stream) ∧ Observed s.db source_id acc'.1 acc'.2 := by
  unfold encodeStream
  refine steps_query_bind fun rows hrows => ?_
  obtain rfl := Except.ok.inj hrows
  split
  · rename_i hempty
    refine steps_query_bind fun _ _ => .pure ⟨rfl, ?_, hacc⟩
    have hnil : s.db.liveWal source_id stream = [] := List.isEmpty_iff.mp hempty
    simp [partsOf, hnil, splitSeal_nil, numbered]
  · refine .bind (Q := fun parts s' => s' = s ∧
      partsOf env s source_id uuid max_rows stream = parts)
      (.lift (fun parts hp => ⟨rfl, by rw [partsOf, hp]⟩) fun _ _ => trivial) ?_
    rintro parts _ ⟨rfl, hparts⟩
    split
    · rename_i hlast
      have hnil : parts = [] := List.getLast?_eq_none_iff.mp hlast
      refine .pure ⟨rfl, ?_, hacc⟩
      simp [hparts, hnil, numbered]
    · rename_i tail hlast
      split
      · exact .abort
      · rename_i segment_last hfound
        exact steps_remembered_bind
          (.pure ⟨rfl, by rw [hparts], hacc.observe hlast hfound⟩)

/-- A segment that was inserted is in its stream's catalog. -/
theorem Archive.Sealed.mem_runs {a a' : Archive} {source_id : Int} {encoded : List Encoded}
    (h : a.Sealed a' source_id encoded) {e : Encoded} (he : e ∈ encoded) :
    ∃ c ∈ a'.runs (streamKey source_id e.stream), c.seg_meta = e.seg_meta := by
  refine ⟨(Archive.entry a.layout e).2, Archive.mem_runs.mpr ⟨e.seq, ?_⟩, rfl⟩
  rw [h.catalog]
  refine OrdMap.get?_insertAll_of_mem (h.fresh.nodup _) ?_ _
  exact List.mem_map.mpr ⟨e, List.mem_filter.mpr ⟨he, by simp⟩, rfl⟩

theorem seal_apply_ok {a a' : Archive} {source_id : Int} {batch : List String}
    {encoded : List Encoded} {observation : Option (Int64 × Int64)}
    (h : (Write.seal source_id batch encoded observation).apply a = .ok a') :
    ∃ b, a.Sealed b source_id encoded ∧ ∀ k, Archive.Same b a' k := by
  simp only [Write.apply, Except.bind_eq_ok] at h
  obtain ⟨b, hb, h⟩ := h
  refine ⟨b, Archive.sealed_of_insertEncoded hb, fun k => ?_⟩
  cases observation with
  | none => obtain rfl := Except.pure_eq_ok.mp h; exact .refl _ _
  | some o => rw [Archive.insertClockOffset_tables h]; exact .of_tables rfl rfl

theorem watermark_ge {a : Archive} {k : StreamKey} {c : SegmentCols} (hc : c ∈ a.runs k) :
    ∃ w, a.watermark k = some w ∧ c.last ≤ w := by
  rcases hw : a.watermark k with _ | w
  · rw [Archive.watermark_eq, Spans.newest_eq_none] at hw
    exact absurd hc (by simp [hw])
  · exact ⟨w, rfl, Spans.le_newest (Archive.watermark_eq a k ▸ hw) hc⟩

/-- A prune at or below the watermark leaves it. -/
theorem steps_prunes {source_id : Int} {es : List Encoded} {s : WriterState}
    (h : ∀ e ∈ es, ∃ w, s.db.watermark (streamKey source_id e.stream) = some w ∧
      e.seg_meta.last_ts ≤ w) :
    Steps env msg (Prog.forEach (fun e => commit (.pruneWal source_id e.stream
      e.seg_meta.last_ts)) es) s fun _ _ => True := by
  refine (Prog.Runs.forEach (I := fun s' => ∀ e ∈ es, ∃ w,
    s'.db.watermark (streamKey source_id e.stream) = some w ∧ e.seg_meta.last_ts ≤ w) ?_ h).mono
      (fun _ _ _ => trivial) fun _ _ h => h
  intro e he s' hs'
  obtain ⟨w, hw, hle⟩ := hs' e he
  refine steps_commit (.prune hw hle) fun db hdb e' he' => ?_
  rw [run_of_ok hdb]
  obtain rfl := Except.ok.inj hdb
  exact hs' e' he'

theorem steps_sealBatch (hmsg : msg.seals = true) (source_id : Int) (batch : List String)
    (max_rows : Nat) (s : WriterState) :
    Steps env msg (sealBatch env source_id batch max_rows) s fun _ _ => True := by
  unfold sealBatch
  refine steps_query_bind fun uuid _ => ?_
  refine .bind (Q := fun acc s' => s' = s ∧ acc.1 = (batch.flatMap fun stream =>
    numbered stream (nextSeq s.mem source_id stream)
      (partsOf env s source_id uuid max_rows stream)) ∧ Observed s.db source_id acc.1 acc.2) ?_ ?_
  · refine (Prog.Runs.foldEach (I := fun rest acc s' => s' = s ∧ ∃ done, batch = done ++ rest ∧
      acc.1 = (done.flatMap fun stream => numbered stream (nextSeq s.mem source_id stream)
        (partsOf env s source_id uuid max_rows stream)) ∧ Observed s.db source_id acc.1 acc.2) ?_
          ⟨rfl, [], rfl, rfl, fun o ho => absurd ho (by simp)⟩).mono ?_ fun _ _ h => h
    · rintro stream rest acc _ ⟨rfl, done, hbatch, hacc, hobserved⟩
      refine (steps_encodeStream hobserved).mono ?_ fun _ _ h => h
      rintro acc' _ ⟨rfl, hacc', hobserved'⟩
      exact ⟨rfl, done ++ [stream], by simp [hbatch], by simp [hacc', hacc], hobserved'⟩
    · rintro acc _ ⟨rfl, done, hbatch, hacc, hobserved⟩
      rw [List.append_nil] at hbatch
      exact ⟨rfl, hbatch ▸ hacc, hobserved⟩
  · rintro ⟨encoded, observation⟩ s ⟨rfl, hencoded, hobserved⟩
    have hplan : SealPlan env s source_id batch encoded
        (partsOf env s source_id uuid max_rows) :=
      ⟨fun stream => ⟨uuid, partsOf_sealOf stream⟩, hencoded⟩
    refine steps_commit_remember (fun db hdb => ⟨.sealed hmsg hplan hobserved hdb, ?_⟩)
      fun e he => .sealRefused hmsg hplan he
    refine steps_prunes fun e he => ?_
    obtain ⟨b, hsealed, hsame⟩ := seal_apply_ok hdb
    obtain ⟨c, hc, hmeta⟩ := hsealed.mem_runs (lastParts_subset _ he)
    have hcat := (hsame (streamKey source_id e.stream)).catalog
    obtain ⟨w, hw, hle⟩ := watermark_ge (a := db) (c := c) (by rwa [Archive.runs, hcat])
    refine ⟨w, ?_, ?_⟩
    · rw [show (s.run _).db = db by rw [run_of_ok hdb]]
      exact hw
    · rwa [SegmentCols.last, hmeta] at hle

theorem steps_handleSeal (hmsg : msg.seals = true) (source_id : Int) (batch : List String)
    (max_rows : Nat) (s : WriterState) :
    Steps env msg (handleSeal env source_id batch max_rows) s fun _ _ => True := by
  unfold handleSeal
  refine .bind (Q := fun _ _ => True)
    (steps_attempt (steps_retries (steps_sealBatch hmsg source_id batch max_rows) s)
      fun _ _ => trivial) fun r s' _ => ?_
  cases r with
  | ok => exact steps_remember rfl (by simp [hmsg]) trivial
  | error e =>
      dsimp only
      split
      · exact steps_remember rfl (by simp [hmsg]) trivial
      · exact .fail trivial

/-! ## Adoption -/

/-- What an adoption does, from the state the message arrived in: it inserts a segment that
passed every check there, or is refused by the file and leaves all as it was. -/
inductive AdoptStep (s₀ : WriterState) (source_id : Int) (segment : Adopted) :
    WriterState → WriterState → Prop where
  | inserted {s : WriterState} {db : Archive} : s.mem = s₀.mem → s.db = s₀.db →
      AdoptPlan s source_id segment →
      (Write.adopt source_id segment (nextSeq s.mem source_id segment.stream)).apply s.db
        = .ok db →
      AdoptStep s₀ source_id segment s
        { s.run (.adopt source_id segment (nextSeq s.mem source_id segment.stream)) with
          mem := adopted source_id segment (nextSeq s.mem source_id segment.stream) s.mem }
  | refused {s : WriterState} {e : Error} : s.mem = s₀.mem → s.db = s₀.db →
      AdoptPlan s source_id segment →
      (Write.adopt source_id segment (nextSeq s.mem source_id segment.stream)).apply s.db
        = .error e →
      AdoptStep s₀ source_id segment s
        (s.run (.adopt source_id segment (nextSeq s.mem source_id segment.stream)))

/-- The thread takes a segment for one that the stream already has. -/
def takenForHeld (m : Caches) (source_id : Int) (segment : Adopted) : Prop :=
  segment.seg_meta.rows ≠ 0 ∧ segment.seg_meta.first_ts ≤ segment.seg_meta.last_ts ∧
    ∃ w, m.watermarks.get? (streamKey source_id segment.stream) = some w ∧
      segment.seg_meta.last_ts ≤ w

section

variable {source_id : Int} {segment : Adopted} {s s₀ : WriterState}

/-- What a failed adoption leaves: the caches and the archive it started from. -/
abbrev Unmoved (s₀ s : WriterState) : Prop := s.mem = s₀.mem ∧ s.db = s₀.db

theorem runs_adoptInsert (hs : Unmoved s₀ s) (hrows : segment.seg_meta.rows ≠ 0)
    (hspan : segment.seg_meta.first_ts ≤ segment.seg_meta.last_ts)
    (hpast : ∀ w, s.mem.watermarks.get? (streamKey source_id segment.stream) = some w →
      w < segment.seg_meta.first_ts) :
    Prog.Runs (AdoptStep s₀ source_id segment) (adoptSegment.insert source_id segment s.mem) s
      (fun inserted _ => inserted = true ∨ takenForHeld s₀.mem source_id segment)
      fun _ s' => Unmoved s₀ s' ∧ True := by
  unfold adoptSegment.insert
  refine .bind (Q := fun live s' => s' = s ∧ live = s.db.liveWalSpan source_id segment.stream)
    (.read (fun _ h => ⟨rfl, (Except.ok.inj h).symm⟩) (fun _ _ => ⟨hs, trivial⟩)
      fun _ => ⟨hs, trivial⟩) fun live s' hlive => ?_
  obtain ⟨rfl, rfl⟩ := hlive
  dsimp only
  split
  · exact .fail ⟨hs, trivial⟩
  · rename_i hnone
    have hplan : AdoptPlan s' source_id segment := by
      refine ⟨hrows, hspan, hpast, fun first hfirst => ?_⟩
      rw [hfirst, Option.filter_some] at hnone
      split at hnone
      · exact absurd hnone (by simp)
      · rename_i hle
        exact not_le.mp (by simpa using hle)
    refine .call_update (fun _ s'' h => ?_) (fun e s'' h => ?_) fun _ => ⟨hs, trivial⟩
    · obtain ⟨rfl, ⟨db, ha, -⟩ | ⟨e, -, he⟩⟩ := commit_cases h
      · exact ⟨.single (.inserted hs.1 hs.2 hplan ha), .pure (.inl rfl)⟩
      · exact absurd he (by simp)
    · obtain ⟨rfl, ⟨db, -, hr⟩ | ⟨e, ha, -⟩⟩ := commit_cases h
      · exact absurd hr (by simp)
      · refine ⟨.single (.refused hs.1 hs.2 hplan ha), ?_, trivial⟩
        rw [run_of_error ha]
        exact hs

/-- **An adoption inserts a segment that passed every check, answers `false` only for one the
thread takes for held, and otherwise moves nothing.** -/
theorem runs_adoptSegment (hs : Unmoved s₀ s) :
    Prog.Runs (AdoptStep s₀ source_id segment) (adoptSegment source_id segment) s
      (fun inserted _ => inserted = true ∨ takenForHeld s₀.mem source_id segment)
      fun _ s' => Unmoved s₀ s' ∧ True := by
  unfold adoptSegment
  dsimp only
  split
  · exact .fail ⟨hs, trivial⟩
  · rename_i hpossible
    simp only [Bool.or_eq_true, decide_eq_true_eq, not_or, not_lt] at hpossible
    refine .bind (Q := fun m s' => m = s.mem ∧ s' = s) (fun _ => ⟨.refl, rfl, rfl⟩)
      fun m s' hm => ?_
    obtain ⟨rfl, rfl⟩ := hm
    split
    · rename_i w hw
      split
      · rename_i hle
        exact .pure (.inr ⟨hpossible.1, hpossible.2, w, hs.1 ▸ hw, hle⟩)
      · split
        · exact .fail ⟨hs, trivial⟩
        · rename_i hpast
          refine runs_adoptInsert hs hpossible.1 hpossible.2 fun w' hw' => ?_
          rw [hw] at hw'
          exact Option.some.inj hw' ▸ not_le.mp hpast
    · rename_i hw
      exact runs_adoptInsert hs hpossible.1 hpossible.2 fun w' hw' =>
        absurd hw' (by rw [hw]; simp)

/-- The retried adoption of a message starts every attempt from where the message arrived. -/
theorem runs_adoptRetried (s : WriterState) :
    Prog.Runs (AdoptStep s source_id segment) (withRetries (adoptSegment source_id segment)) s
      (fun inserted _ => inserted = true ∨ takenForHeld s.mem source_id segment)
      fun _ s' => Unmoved s s' ∧ True :=
  Prog.Runs.retry (fun _ hs => runs_adoptSegment hs) 3 s ⟨rfl, rfl⟩

theorem AdoptStep.writer (hmsg : msg = .adoptSegment source_id segment) {s s' : WriterState}
    (h : AdoptStep s₀ source_id segment s s') : WriterStep env msg s s' := by
  cases h with
  | inserted _ _ hplan hdb => exact .adopted hmsg hplan hdb
  | refused _ _ hplan he => exact .adoptRefused hmsg hplan he

theorem steps_adoptRetried (hmsg : msg = .adoptSegment source_id segment) (s : WriterState) :
    Steps env msg (withRetries (adoptSegment source_id segment)) s fun _ _ => True :=
  ((runs_adoptRetried s).weaken fun _ _ h => h.writer hmsg).mono (fun _ _ _ => trivial)
    fun _ _ _ => trivial

end

/-! ## Retention -/

theorem steps_retryDeferredSeal (hmsg : msg.seals = true) (source_id : Int) (held : List (String × Nat))
    (e : String × Nat) (s : WriterState) :
    Steps env msg (retryDeferredSeal env source_id held e) s fun _ _ => True := by
  unfold retryDeferredSeal
  split
  · exact .pure trivial
  · refine .bind (Q := fun _ _ => True)
      (steps_attempt (steps_retries (steps_sealBatch hmsg source_id [e.1] e.2) s)
        fun _ _ => trivial) fun r s' _ => ?_
    cases r with
    | ok => exact .pure trivial
    | error e =>
        dsimp only
        split <;> exact .pure trivial

theorem steps_retryDeferredSeals (hmsg : msg.seals = true) (source_id : Int) (s : WriterState) :
    Steps env msg (retryDeferredSeals env source_id) s fun _ _ => True := by
  unfold retryDeferredSeals
  refine steps_remembered_bind (steps_remember_bind rfl (by simp [hmsg]) ?_)
  refine .bind (Q := fun _ _ => True) ?_ fun held s' _ => ?_
  · exact Prog.Runs.foldEach (I := fun _ _ _ => True)
      (fun e _ held s' _ => steps_retryDeferredSeal hmsg source_id held e s') trivial
  · exact steps_remember_bind rfl (by simp [hmsg]) (.pure trivial)

theorem steps_evictBefore {streams : Option (String → Bool)} (source_id : Int) (cutoff_ts : Int64)
    (floor : Option Archive.CallerRowFloor) (s : WriterState)
    (hmsg : msg = .evict source_id cutoff_ts streams floor) :
    Steps env msg (evictBefore source_id cutoff_ts floor) s fun _ _ => True := by
  have hgo : ∀ names, (floor.isSome = true → names = s.db.callerRowStreams source_id) →
      Steps env msg (do
        let a := (← Prog.state).db
        commit (.evict source_id cutoff_ts floor names)
        return a.evictedCounts (← Prog.state).db (a.liveBefore source_id cutoff_ts)) s
          fun _ _ => True := by
    intro names hnames
    have hstep : WriterStep env msg s (s.run (.evict source_id cutoff_ts floor names)) :=
      .evict source_id cutoff_ts floor names ⟨streams, hmsg⟩ hnames
    exact steps_state_bind (.bind (steps_commit (Q := fun _ _ => True) hstep fun _ _ => trivial)
      fun _ _ _ => steps_state_bind (.pure trivial))
  unfold evictBefore
  cases floor with
  | none => exact hgo [] nofun
  | some f => exact steps_query_bind fun names hnames => hgo names fun _ => (Except.ok.inj hnames).symm

/-- The streams of a source and the other names of the caller's store, each once. -/
theorem Archive.nodup_streamsAndNames (a : Archive) (source_id : Int) (accepts : String → Bool) :
    ((a.allStreams source_id ++ (a.callerRowStreams source_id).filter
      fun n => !(a.allStreams source_id).contains n).filter accepts).Nodup := by
  refine (List.nodup_append.mpr ⟨OrdMap.keys_nodup _, (OrdMap.keys_nodup _).filter _,
    fun x hx y hy hxy => ?_⟩).filter _
  have hnot := (List.mem_filter.mp hy).2
  rw [Bool.not_eq_true', List.contains_eq_mem, decide_eq_false_iff_not] at hnot
  exact hnot (hxy ▸ hx)

theorem steps_evictStreamsBefore {streams : Option (String → Bool)} (source_id : Int)
    (cutoff_ts : Int64) (accepts : String → Bool) (floor : Option Archive.CallerRowFloor)
    (s : WriterState) (hmsg : msg = .evict source_id cutoff_ts streams floor) :
    Steps env msg (evictStreamsBefore source_id cutoff_ts accepts floor) s fun _ _ => True := by
  unfold evictStreamsBefore
  refine steps_query_bind fun all hall => steps_query_bind fun names hnames => ?_
  obtain rfl := Except.ok.inj hall
  obtain rfl := Except.ok.inj hnames
  have hnodup := s.db.nodup_streamsAndNames source_id accepts
  exact steps_state_bind (.bind (steps_commit (Q := fun _ _ => True)
    (.evictStreams _ _ _ _ ⟨streams, hmsg⟩ hnodup) fun _ _ => trivial)
      fun _ _ _ => steps_state_bind (.pure trivial))

theorem steps_reclaim (s : WriterState) : Steps env msg reclaim s fun _ _ => True :=
  steps_query fun _ _ => trivial

theorem steps_handleEvict (source_id : Int) (cutoff_ts : Int64)
    (streams : Option (String → Bool)) (floor : Option Archive.CallerRowFloor)
    (s : WriterState) :
    Steps env (.evict source_id cutoff_ts streams floor)
      (handleEvict env source_id cutoff_ts streams floor) s fun _ _ => True := by
  unfold handleEvict
  refine .bind (steps_retryDeferredSeals rfl source_id s) fun held s' _ => ?_
  dsimp only
  refine .bind (Q := fun _ _ => True) (steps_attempt ?_ fun _ _ => trivial) fun r s'' _ => ?_
  · split
    · exact steps_evictStreamsBefore _ _ _ _ _ rfl
    · exact steps_evictBefore _ _ _ _ rfl
  · cases r with
    | error e => exact .pure trivial
    | ok evicted =>
        exact .bind (Q := fun _ _ => True)
          (steps_attempt (steps_reclaim s'') fun _ _ => trivial) fun _ _ _ => .pure trivial

/-! ## Sources -/

theorem steps_beside {w : Write} (hw : w.beside) (hasked : w.askedBy msg) (s : WriterState) :
    Steps env msg (commit w) s fun _ _ => True :=
  steps_commit (.beside hw hasked) fun _ _ => trivial

theorem steps_patchSourceMetadata (source_id : Int) (patch : StringMap) (s : WriterState) :
    Steps env msg (patchSourceMetadata source_id patch) s fun _ _ => True := by
  unfold patchSourceMetadata
  exact steps_query_bind fun _ _ => steps_beside rfl (by trivial) s

theorem steps_setSourceIdentity (source_id : Int) (labels metadata : StringMap)
    (s : WriterState) :
    Steps env msg (setSourceIdentity source_id labels metadata) s fun _ _ => True := by
  unfold setSourceIdentity
  exact steps_query_bind fun _ _ => steps_beside rfl (by trivial) s

theorem steps_startHeartbeat (source_id : Int) (s : WriterState) :
    Steps env msg (startHeartbeat env source_id) s fun _ _ => True := by
  unfold startHeartbeat
  exact .bind (Q := fun _ _ => True)
    (steps_attempt (steps_beside rfl (by trivial) s) fun _ _ => trivial) fun _ _ _ => .pure trivial

theorem steps_recordSession (turn : Nat) (source_id : Int) (anchor : Int64)
    (resumed : Option (Option Int64)) (s : WriterState) :
    Steps env msg (recordSession env turn source_id anchor resumed) s fun _ _ => True := by
  unfold recordSession
  refine steps_query_bind fun session _ => steps_query_bind fun metadata _ => ?_
  dsimp only
  cases resumed with
  | none => exact steps_patchSourceMetadata _ _ _
  | some after =>
      dsimp only
      split
      · exact .abort
      · exact steps_patchSourceMetadata _ _ _

theorem steps_addSource (seed : SourceMeta) (uuid : Option String) (s : WriterState) :
    Steps env msg (addSource env seed uuid) s fun _ _ => True := by
  unfold addSource
  extract_lets go
  have hgo : ∀ uuid s', Steps env msg (go uuid) s' fun _ _ => True := by
    intro uuid s'
    refine steps_state_bind (.bind (steps_beside rfl (by trivial) s') fun _ s₁ _ => ?_)
    refine .bind (steps_recordSession _ _ _ _ s₁) fun _ s₂ _ => ?_
    refine .bind (steps_startHeartbeat _ s₂) fun _ s₃ _ => ?_
    cases env.encoder.version with
    | none => exact .pure trivial
    | some version => exact .bind (steps_patchSourceMetadata _ _ s₃) fun _ _ _ => .pure trivial
  cases uuid with
  | some uuid => exact hgo uuid s
  | none => exact steps_query_bind fun uuid _ => hgo uuid s

/-- A resume answers with the newest row that the source had. -/
theorem steps_resumeSource (source_id : Int) (anchor : Int64) (s : WriterState) :
    Steps env msg (resumeSource env source_id anchor) s
      fun r _ => r.last_ts = (s.db.sourceTimeSpan source_id).2 := by
  unfold resumeSource
  refine steps_query_bind fun sources _ => ?_
  split
  · exact .fail trivial
  · rename_i src _
    refine .bind (Q := fun _ s' => s' = s) (.lift (fun _ _ => rfl) fun _ _ => trivial) ?_
    rintro _ s rfl
    refine steps_query_bind fun span hspan => ?_
    have hlast : span.2 = (s.db.sourceTimeSpan source_id).2 :=
      congrArg Prod.snd (Except.ok.inj hspan).symm
    rw [← hlast]
    obtain ⟨first, last⟩ := span
    have hgo : ∀ s', Steps env msg (do
        commit (.markIncomplete source_id)
        recordSession env 0 source_id anchor (some last)
        return { labels := src.identity.labels, last_ts := last : Resumed }) s'
          fun r _ => r.last_ts = last := fun s' =>
      .bind (steps_beside rfl (by trivial) s') fun _ s₁ _ =>
        .bind (steps_recordSession _ _ _ _ s₁) fun _ _ _ => .pure rfl
    cases last with
    | none => exact hgo s
    | some floor =>
        dsimp only
        split
        · exact .bind (Q := fun _ _ => True) (.fail trivial) fun _ s' _ => hgo s'
        · exact hgo s

/-! ## Messages -/

theorem steps_commitData {w : Write} (hw : w.beside) (hasked : w.askedBy msg) (s : WriterState) :
    Steps env msg (commitData w) s fun _ _ => True := by
  unfold commitData
  refine .bind (Q := fun _ _ => True)
    (steps_attempt (steps_retries (steps_beside hw hasked) s) fun _ _ => trivial) fun r s' _ => ?_
  cases r with
  | ok => exact steps_committed trivial
  | error e =>
      dsimp only
      split
      · exact steps_dropped e fun _ => trivial
      · exact .fail trivial

/-- After a resume that succeeded the thread holds the source to the newest row it had. -/
theorem steps_handleResume (source_id : Int) (anchor : Int64) (s : WriterState) :
    Steps env (.resumeSource source_id anchor) (handle env (.resumeSource source_id anchor)) s
      fun reply s' => ∀ r, reply = .resumed (.ok r) →
        ∀ floor ∈ (s.db.sourceTimeSpan source_id).2, s'.mem.floors.get? source_id = some floor := by
  refine .bind (Q := fun r _ => ∀ resumed, r = .ok resumed →
      resumed.last_ts = (s.db.sourceTimeSpan source_id).2) (steps_attempt
        ((steps_resumeSource source_id anchor s).mono (fun _ _ h resumed hr => ?_)
          fun _ _ h => h) fun _ _ _ h => nomatch h) fun r s' hr => ?_
  · obtain rfl := Except.ok.inj hr
    exact h
  cases r with
  | ok resumed =>
      have hlast := hr resumed rfl
      refine .bind (steps_startHeartbeat source_id s') fun _ s'' _ =>
        .bind (Q := fun _ s₃ => ∀ floor ∈ (s.db.sourceTimeSpan source_id).2,
          s₃.mem.floors.get? source_id = some floor) (.update (.resumed rfl rfl rfl rfl ?_) ?_)
            fun _ _ h => .pure fun _ _ => h
      · intro id hid
        dsimp only
        split
        · exact OrdMap.get?_insert_ne _ _ hid
        · rfl
      · intro floor hfloor
        rw [← hlast] at hfloor
        obtain ⟨labels, last_ts⟩ := resumed
        obtain rfl : last_ts = some floor := hfloor
        exact OrdMap.get?_insert_self _ _ _
  | error e => exact .pure fun _ h => nomatch h

/-- **Every message is handled by writer steps alone**, whatever fails and wherever the
process is killed. -/
theorem handle_runs (env : Env) (msg : Msg) (s : WriterState) :
    Steps env msg (handle env msg) s fun _ _ => True := by
  have hdone : ∀ {m : WriterM Unit} {s}, Steps env msg m s (fun _ _ => True) →
      Steps env msg (do m; return Reply.done) s fun _ _ => True :=
    fun hm => .bind hm fun _ _ _ => .pure trivial
  cases msg with
  | addSource seed uuid =>
      refine .bind (Q := fun _ _ => True)
        (steps_attempt (steps_addSource seed uuid s) fun _ _ => trivial) fun r s' _ => ?_
      cases r with
      | ok id => exact steps_remember_bind rfl (fun _ => rfl) (.pure trivial)
      | error e => exact .pure trivial
  | resumeSource source_id anchor =>
      exact (steps_handleResume source_id anchor s).mono (fun _ _ _ => trivial) fun _ _ h => h
  | wal ticks => exact hdone (steps_commitTick ticks s)
  | «seal» source_id batch max_rows => exact hdone (steps_handleSeal rfl source_id batch max_rows s)
  | adoptSegment source_id segment =>
      exact .bind (Q := fun _ _ => True)
        (steps_attempt (steps_adoptRetried rfl s) fun _ _ => trivial)
        fun _ _ _ => .pure trivial
  | evict source_id cutoff streams floor =>
      exact .bind (steps_handleEvict source_id cutoff streams floor s) fun _ _ _ => .pure trivial
  | updateMetadata source_id patch =>
      exact .bind (Q := fun _ _ => True)
        (steps_attempt (steps_retries (steps_patchSourceMetadata source_id patch) s)
          fun _ _ => trivial) fun _ _ _ => .pure trivial
  | setIdentity source_id labels metadata =>
      exact .bind (Q := fun _ _ => True)
        (steps_attempt (steps_retries (steps_setSourceIdentity source_id labels metadata) s)
          fun _ _ => trivial) fun _ _ _ => .pure trivial
  | clockOffset source_id ts offset => exact hdone (steps_commitData rfl (by rfl) s)
  | callerRows source_id stream rows => exact hdone (steps_commitData rfl (by rfl) s)
  | finalize source_id offset =>
      exact .bind (steps_retries (steps_beside rfl (by rfl)) s) fun _ _ _ =>
        steps_remember_bind rfl (fun _ => rfl) (.pure trivial)
  | sync => exact .pure trivial
  | shutdown =>
      refine steps_remembered_bind ?_
      dsimp only
      split
      · exact .bind (steps_reclaim s) fun _ _ _ => .pure trivial
      · exact .pure trivial

/-- The heartbeat's timer makes only writer steps, too. -/
theorem beatTimer_runs (env : Env) (msg : Msg) (s : WriterState) :
    Steps env msg beatTimer s fun _ _ => True := by
  unfold beatTimer
  refine steps_remembered_bind ?_
  split
  · exact .bind (Q := fun _ _ => True)
      (steps_attempt (steps_beside rfl (by trivial) s) fun _ _ => trivial) fun _ _ _ => .pure trivial
  · exact .pure trivial

end Handlers

end Dendro
