import Dendro.Writer.Conserve

/-!
# Runs of the writer

A run is a list of events: messages, beats of the timer, kills and reopenings, each with
the faults that strike while it is handled. Between two of them the world is the file and,
while a thread owns it, what the thread remembers. A thread that fails, is killed or is
shut down leaves the file alone; a reopening starts a thread with caches seeded from it.

The two results at the end are about every run of any length: what a reader sees of a
stream is what the committed transactions owe it, in timestamp order, and the layout of its
segments stands, whatever the encoders answered.
-/

namespace Dendro

open Relation

/-- The file, and the caches of the thread that owns it, if one does. -/
structure World where
  disk : Disk
  mem : Option Caches

/-- What can happen to an archive in the writer's hands. -/
inductive Event where
  | message (env : Env) (msg : Msg) (faults : List (Fault StorageFailure))
  /-- The heartbeat's timer fires. -/
  | beat (faults : List (Fault StorageFailure))
  /-- The process is gone. -/
  | kill
  /-- A new thread opens the file. -/
  | reopen

/-- Whether the thread goes on after a message. -/
def goesOn : Outcome Error Reply → Bool
  | .ok .stopped => false
  | .ok _ => true
  | _ => false

/-- Whether the thread goes on after a beat. -/
def beatsOn : Outcome Error Unit → Bool
  | .ok () => true
  | _ => false

namespace World

/-- What a thread leaves behind. -/
def left (on : Bool) (s : WriterState) : World :=
  { disk := s.disk, mem := if on then some s.mem else none }

/-- A file that was just created, with the thread that created it. -/
def create (layout : IndexLayout) : World :=
  { disk := .create layout, mem := some (.seed (.create layout)) }

def apply (w : World) : Event → World
  | .message env msg faults =>
    match w.mem with
    | none => w
    | some m =>
      let (outcome, s, _) := handle env msg { disk := w.disk, mem := m } faults
      left (goesOn outcome) s
  | .beat faults =>
    match w.mem with
    | none => w
    | some m =>
      let (outcome, s, _) := beatTimer { disk := w.disk, mem := m } faults
      left (beatsOn outcome) s
  | .kill => { w with mem := none }
  | .reopen =>
    match w.mem with
    | none => { w with mem := some (.seed w.disk.db) }
    | some _ => w

/-- A run. -/
def run (w : World) (events : List Event) : World := events.foldl apply w

end World

/-- An environment whose encoder never answers: a beat encodes nothing. -/
def Env.idle : Env where
  encoder := { encode := fun _ _ => .ok none, version := none, encode_after := fun _ _ _ => .ok none }
  parseJson _ := none
  printJson _ := ""
  mint _ := ""
  crate_version := ""
  heartbeat_interval_ns := 0

/-- A thread that just opened a new file. -/
def freshThread : WriterState :=
  { disk := Disk.create .table, mem := Caches.seed (Archive.create .table) }

/-- A thread that just added its first source. -/
def firstSource : WriterState :=
  (handle Env.idle (.addSource { labels := ∅, metadata := ∅, clock_anchor_wall_ns := 0 } none)
    freshThread []).2.1

/-! ## What every run keeps -/

/-- Whatever a thread does in one event, it does by steps. -/
theorem apply_steps (w : World) (event : Event) : (∃ mem, w.apply event = { w with mem } ∧
      ∀ m, mem = some m → w.mem = some m ∨ m = .seed w.disk.db) ∨
    ∃ m env msg s' on, w.mem = some m ∧ w.apply event = World.left on s' ∧
      ReflTransGen (WriterStep env msg) { disk := w.disk, mem := m } s' := by
  obtain ⟨disk, mem⟩ := w
  cases event with
  | message env msg faults =>
      cases mem with
      | none => exact .inl ⟨none, rfl, fun _ h => .inl h⟩
      | some m =>
          exact .inr ⟨m, env, msg, _, _, rfl, rfl, (handle_runs env msg _).steps faults⟩
  | beat faults =>
      cases mem with
      | none => exact .inl ⟨none, rfl, fun _ h => .inl h⟩
      | some m =>
          exact .inr ⟨m, .idle, .sync, _, _, rfl, rfl,
            (beatTimer_runs Env.idle .sync _).steps faults⟩
  | kill => exact .inl ⟨none, rfl, by simp⟩
  | reopen =>
      cases mem with
      | none => exact .inl ⟨some (.seed disk.db), rfl, fun _ h => .inr (Option.some.inj h).symm⟩
      | some m => exact .inl ⟨some m, rfl, fun _ h => .inl h⟩

section

variable {env : Env} {msg : Msg} {s s' : WriterState}

/-- The log is only appended to. -/
theorem WriterStep.log_prefix (h : WriterStep env msg s s') : s.disk.log <+: s'.disk.log := by
  rcases h.record with ⟨hlog, -⟩ | ⟨w, hlog, -⟩
  · exact hlog ▸ List.prefix_rfl
  · rw [hlog]
    exact List.prefix_append _ _

theorem log_prefix_steps (h : ReflTransGen (WriterStep env msg) s s') :
    s.disk.log <+: s'.disk.log := by
  induction h with
  | refl => exact List.prefix_rfl
  | tail _ hlast ih => exact ih.trans hlast.log_prefix

theorem log_prefix_apply (w : World) (e : Event) : w.disk.log <+: (w.apply e).disk.log := by
  rcases apply_steps w e with ⟨mem, happly, -⟩ | ⟨m, env, msg, s', on, -, happly, hsteps⟩
  · exact happly ▸ List.prefix_rfl
  · rw [happly]
    exact log_prefix_steps hsteps

theorem log_prefix_run : ∀ (events : List Event) (w : World),
    w.disk.log <+: (w.run events).disk.log
  | [], _ => List.prefix_rfl
  | e :: events, w => (log_prefix_apply w e).trans (log_prefix_run events (w.apply e))

end

/-- An invariant of a thread, with what it says of the file alone. `ok` is what is asked of
the environments and the messages. -/
structure Invariant (ok : Env → Msg → Prop) (I : Disk → Prop) (T : WriterState → Prop) : Prop where
  /-- What a new thread reads from the file is enough. -/
  seed : ∀ d, I d → T { disk := d, mem := .seed d.db }
  disk : ∀ s, T s → I s.disk
  step : ∀ {env msg s s'}, ok env msg → WriterStep env msg s s' → T s → T s'
  /-- The timer's steps count as those of an idle message. -/
  beat : ok Env.idle .sync

/-- A file and the thread that owns it, if one does, as an invariant has them. -/
structure World.Kept (I : Disk → Prop) (T : WriterState → Prop) (w : World) : Prop where
  disk : I w.disk
  thread : ∀ m, w.mem = some m → T { disk := w.disk, mem := m }

/-- An event that asks of the writer only what `ok` allows. -/
def Event.Asks (ok : Env → Msg → Prop) : Event → Prop
  | .message env msg _ => ok env msg
  | _ => True

section

variable {ok : Env → Msg → Prop} {I : Disk → Prop} {T : WriterState → Prop}

theorem Invariant.steps (h : Invariant ok I T) {env : Env} {msg : Msg} (hok : ok env msg)
    {s s' : WriterState} (hs : ReflTransGen (WriterStep env msg) s s') (ht : T s) : T s' := by
  induction hs with
  | refl => exact ht
  | tail _ hlast ih => exact h.step hok hlast ih

theorem Invariant.apply (h : Invariant ok I T) {w : World} (hw : w.Kept I T) {event : Event}
    (he : event.Asks ok) : (w.apply event).Kept I T := by
  have hleft : ∀ {env msg s s' on}, ok env msg → ReflTransGen (WriterStep env msg) s s' → T s →
      (World.left on s').Kept I T := by
    intro env msg s s' on hok hs ht
    have ht' := h.steps hok hs ht
    refine ⟨h.disk s' ht', fun m hm => ?_⟩
    cases on with
    | false => exact absurd hm (by simp [World.left])
    | true => exact Option.some.inj hm ▸ ht'
  obtain ⟨disk, mem⟩ := w
  cases event with
  | message env msg faults =>
      cases mem with
      | none => exact hw
      | some m => exact hleft he ((handle_runs env msg _).steps faults) (hw.thread m rfl)
  | beat faults =>
      cases mem with
      | none => exact hw
      | some m =>
          exact hleft h.beat ((beatTimer_runs Env.idle .sync _).steps faults) (hw.thread m rfl)
  | kill => exact ⟨hw.disk, fun m hm => absurd hm (by simp [World.apply])⟩
  | reopen =>
      cases mem with
      | none =>
          refine ⟨hw.disk, fun m hm => ?_⟩
          obtain rfl := Option.some.inj hm
          exact h.seed disk hw.disk
      | some m => exact hw

/-- **What every step of a thread keeps holds after every run.** -/
theorem Invariant.run (h : Invariant ok I T) : ∀ {events : List Event} {w : World}, w.Kept I T →
    (∀ e ∈ events, e.Asks ok) → (w.run events).Kept I T
  | [], _, hw, _ => hw
  | _ :: events, _, hw, he => @Invariant.run h events _
      (h.apply hw (he _ (by simp))) fun e' he' => he e' (by simp [he'])

end

/-! ## Reopening -/

theorem mem_sealedStreams {a : Archive} {k : StreamKey} :
    k ∈ a.sealedStreams ↔ ∃ seq c, (a.catalog k).get? seq = some c := by
  have hfun : ∀ ks : List (StreamKey ×ₗ Nat), ks.map (fun k => ((ofLex k).1, ())) =
      (ks.map fun k => (ofLex k).1).filterMap fun k => (some ()).map (k, ·) := by
    intro ks
    simp [List.filterMap_map]
  unfold Archive.sealedStreams
  rw [OrdMap.mem_keys, hfun, OrdMap.get?_ofList_filterMap fun _ => some ()]
  constructor
  · rintro ⟨u, h⟩
    obtain ⟨hk, -⟩ := Option.ite_none_right_eq_some.mp h
    obtain ⟨key, hkey, rfl⟩ := List.mem_map.mp hk
    obtain ⟨c, hc⟩ := OrdMap.mem_keys.mp hkey
    exact ⟨(ofLex key).2, c, (OrdMap.get?_group _ _ _).trans hc⟩
  · rintro ⟨seq, c, hc⟩
    have hkey : toLex (k, seq) ∈ a.segments.keys :=
      OrdMap.mem_keys.mpr ⟨c, (OrdMap.get?_group _ _ _).symm.trans hc⟩
    exact ⟨(), if_pos (List.mem_map.mpr ⟨_, hkey, rfl⟩)⟩

/-- A stream with nothing in its catalog. -/
theorem catalog_empty {a : Archive} {k : StreamKey} (h : k ∉ a.sealedStreams) :
    (a.catalog k).entries = [] := by
  refine List.eq_nil_iff_forall_not_mem.mpr fun e he => h (mem_sealedStreams.mpr ?_)
  exact ⟨e.1, e.2, OrdMap.get?_eq_some.mpr he⟩

/-- **A new thread knows every stream's watermark as it is in the file.** -/
theorem seed_watermarks (a : Archive) (k : StreamKey) :
    (Caches.seed a).watermarks.get? k = a.watermark k := by
  show a.sealedWatermarks.get? k = _
  rw [Archive.sealedWatermarks, OrdMap.get?_ofList_filterMap]
  split
  · rfl
  · rename_i h
    rw [Archive.watermark_eq, Archive.runs, OrdMap.values, catalog_empty h]
    rfl

theorem seed_next_seq (a : Archive) (k : StreamKey) :
    (Caches.seed a).next_seq.get? k = (a.catalog k).keys.max?.map (· + 1) := by
  have hfun : ∀ ks : List StreamKey,
      (ks.filterMap fun k => (a.catalog k).keys.max?.map (k, · + 1)) =
        ks.filterMap fun k => ((a.catalog k).keys.max?.map (· + 1)).map (k, ·) := by
    intro ks
    simp [Option.map_map, Function.comp_def]
  show a.nextSeqs.get? k = _
  rw [Archive.nextSeqs, hfun, OrdMap.get?_ofList_filterMap]
  split
  · rfl
  · rename_i h
    rw [OrdMap.keys, catalog_empty h]
    rfl

/-- A new thread's next `seq` is past every stored one. -/
theorem seed_numbered (a : Archive) (k : StreamKey) :
    ∀ seq ∈ (a.catalog k).keys, seq < (streamState a (.seed a) k).next := by
  intro seq hseq
  show seq < ((Caches.seed a).next_seq.get? k).getD 0
  rw [seed_next_seq]
  rcases hmax : (a.catalog k).keys.max? with _ | top
  · rw [List.max?_eq_none_iff] at hmax
    exact absurd hseq (by simp [hmax])
  · exact Nat.lt_succ_of_le ((List.max?_eq_some_iff.mp hmax).2 seq hseq)

/-- **What a new thread knows of a laid-out stream is enough.** -/
theorem streamInv_seed {a : Archive} {k : StreamKey} (h : Layout (a.runs k)) :
    StreamInv (streamState a (.seed a) k) where
  layout := h
  seq := seed_numbered a k
  known := by
    intro c hc
    show ∃ w, (Caches.seed a).watermarks.get? k = some w ∧ _
    rw [seed_watermarks]
    exact watermark_ge hc

/-! ## What a reader sees -/

/-- What a reader sees of a stream: the rows of its segments in `seq` order, then what
`live_wal` returns. -/
def Archive.readerRows (dec : Decoder) (a : Archive) (source_id : Int) (stream : String) :
    List WalRow :=
  ((a.readSegments source_id stream).flatMap fun s => dec (streamKey source_id stream) s.bytes) ++
    a.liveWal source_id stream

/-- What an eviction at a cutoff removes of what a reader sees of a stream. -/
def Archive.evictedRows (dec : Decoder) (a : Archive) (source_id : Int) (stream : String)
    (cutoff_ts : Int64) : List WalRow :=
  (((a.readSegments source_id stream).filter fun s => decide (s.seg_meta.last_ts < cutoff_ts)).flatMap
      fun s => dec (streamKey source_id stream) s.bytes) ++
    (a.liveWal source_id stream).filter fun r => decide (r.ts < cutoff_ts)

/-- What the transactions that committed owe a reader of a stream: the rows of the ticks and
of the adopted segments, less what each eviction removed. -/
def ledger (dec : Decoder) (source_id : Int) (stream : String) (log : List (Archive × Write)) :
    Multiset WalRow :=
  log.foldl (fun rows e => (e.2.effect (streamKey source_id stream)).owed dec
    (streamKey source_id stream) (e.1.evictedRows dec source_id stream) rows) 0

theorem ledger_append (dec : Decoder) (source_id : Int) (stream : String)
    (log : List (Archive × Write)) (a : Archive) (w : Write) :
    ledger dec source_id stream (log ++ [(a, w)]) =
      (w.effect (streamKey source_id stream)).owed dec (streamKey source_id stream)
        (a.evictedRows dec source_id stream) (ledger dec source_id stream log) := by
  simp [ledger]

section

variable {dec : Decoder} {source_id : Int} {stream : String}

theorem view_eq (a : Archive) (m : Caches) :
    (streamState a m (streamKey source_id stream)).view dec (streamKey source_id stream) =
      a.readerRows dec source_id stream := by
  have hlive := stream_liveRows ⟨⟨a, [], []⟩, m⟩ (streamKey source_id stream)
  have hsealed : sealedRows dec (streamKey source_id stream)
      (a.catalog (streamKey source_id stream)).values =
        (a.readSegments source_id stream).flatMap
          fun s => dec (streamKey source_id stream) s.bytes := by
    simp [sealedRows, Archive.readSegments, OrdMap.values, List.flatMap_map]
  exact congrArg₂ (· ++ ·) hsealed hlive

theorem removed_eq (a : Archive) (m : Caches) :
    (streamState a m (streamKey source_id stream)).removed dec (streamKey source_id stream) =
      a.evictedRows dec source_id stream := by
  funext cutoff_ts
  have hlive := stream_liveRows ⟨⟨a, [], []⟩, m⟩ (streamKey source_id stream)
  have hsealed : sealedRows dec (streamKey source_id stream)
      ((a.catalog (streamKey source_id stream)).values.filter
        fun c => decide (c.last < cutoff_ts)) =
        ((a.readSegments source_id stream).filter fun s =>
          decide (s.seg_meta.last_ts < cutoff_ts)).flatMap
            fun s => dec (streamKey source_id stream) s.bytes := by
    simp [sealedRows, Archive.readSegments, OrdMap.values, List.flatMap_map, List.filter_map,
      Function.comp_def]
  exact congrArg₂ (· ++ List.filter _ ·) hsealed hlive

end

/-! ## Every run -/

/-- What holds of a thread that conserves rows: each stream's layout, true segments, and a
view that is what the ledger owes. -/
structure Conserves (dec : Decoder) (s : WriterState) : Prop where
  inv : ∀ k, StreamInv (s.stream k)
  holds : ∀ k, ∀ c ∈ s.db.runs k, Holds dec k c
  owed : ∀ source_id stream, (s.db.readerRows dec source_id stream : Multiset WalRow) =
    ledger dec source_id stream s.disk.log

theorem Conserves.step {dec : Decoder} {env : Env} {msg : Msg} {s s' : WriterState}
    (hk : KeepsEveryRow dec env.encoder) (hm : msg.Truthful dec) (hs : WriterStep env msg s s')
    (h : Conserves dec s) : Conserves dec s' := by
  have hstep : ∀ k, ∃ e, StreamStep env msg k e (s.stream k) (s'.stream k) := fun k => by
    rcases hs.stream k with ⟨-, hstep⟩ | ⟨w, -, hstep⟩
    · exact ⟨_, hstep⟩
    · exact ⟨_, hstep⟩
  refine ⟨fun k => ?_, fun k => ?_, fun source_id stream => ?_⟩
  · obtain ⟨e, he⟩ := hstep k
    exact (h.inv k).step he
  · obtain ⟨e, he⟩ := hstep k
    exact (view_step he (h.inv k) (h.holds k) hk hm).2
  · have hview := h.owed source_id stream
    rw [← view_eq s.db s.mem] at hview
    rw [← view_eq s'.db s'.mem]
    rcases hs.stream (streamKey source_id stream) with ⟨hlog, hstep⟩ | ⟨w, hlog, hstep⟩
    · rw [(view_step hstep (h.inv _) (h.holds _) hk hm).1, hlog]
      exact hview
    · rw [(view_step hstep (h.inv _) (h.holds _) hk hm).1, hlog, ledger_append, ← hview,
        removed_eq]

theorem Conserves.steps {dec : Decoder} {env : Env} {msg : Msg} {s s' : WriterState}
    (hk : KeepsEveryRow dec env.encoder) (hm : msg.Truthful dec)
    (hs : ReflTransGen (WriterStep env msg) s s') (h : Conserves dec s) : Conserves dec s' := by
  induction hs with
  | refl => exact h
  | tail _ hlast ih => exact ih.step hk hm hlast

/-- A message whose encoder keeps every row and whose segments are truthfully cataloged. -/
def Event.KeepsRows (dec : Decoder) : Event → Prop
  | .message env msg _ => KeepsEveryRow dec env.encoder ∧ msg.Truthful dec
  | _ => True

/-- What holds of a file and of the thread that owns it. -/
structure World.Conserves (dec : Decoder) (w : World) : Prop where
  layout : ∀ k, Layout (w.disk.db.runs k)
  holds : ∀ k, ∀ c ∈ w.disk.db.runs k, Holds dec k c
  owed : ∀ source_id stream, (w.disk.db.readerRows dec source_id stream : Multiset WalRow) =
    ledger dec source_id stream w.disk.log
  thread : ∀ m, w.mem = some m → ∀ k, StreamInv (streamState w.disk.db m k)

theorem World.Conserves.left {dec : Decoder} {s : WriterState} (h : Dendro.Conserves dec s)
    (on : Bool) : (World.left on s).Conserves dec where
  layout k := (h.inv k).layout
  holds := h.holds
  owed := h.owed
  thread := by
    intro m hm k
    cases on with
    | false => exact absurd hm (by simp [World.left])
    | true => exact Option.some.inj hm ▸ h.inv k

theorem World.Conserves.of_thread {dec : Decoder} {w : World} {m : Caches}
    (h : w.Conserves dec) (hm : w.mem = some m) :
    Dendro.Conserves dec { disk := w.disk, mem := m } :=
  ⟨h.thread m hm, h.holds, h.owed⟩

theorem conserves_create (dec : Decoder) (layout : IndexLayout) :
    (World.create layout).Conserves dec := by
  have hlayout : ∀ k, Layout ((Archive.create layout).runs k) := fun k =>
    ⟨fun c hc => absurd hc (List.not_mem_nil), .nil⟩
  refine ⟨hlayout, fun k c hc => absurd hc (List.not_mem_nil), fun source_id stream => rfl,
    fun m hm k => ?_⟩
  obtain rfl := Option.some.inj hm
  exact streamInv_seed (hlayout k)

theorem idle_keeps (dec : Decoder) : KeepsEveryRow dec Env.idle.encoder := by
  intro ctx rows s h
  rcases h with h | ⟨before, h⟩ <;> exact absurd h (by simp [Env.idle])

theorem conserves_apply {dec : Decoder} {w : World} (h : w.Conserves dec) {e : Event}
    (he : e.KeepsRows dec) : (w.apply e).Conserves dec := by
  cases e with
  | message env msg faults =>
      unfold World.apply
      rcases hm : w.mem with _ | m
      · exact h
      · exact .left ((h.of_thread hm).steps he.1 he.2 ((handle_runs env msg _).steps faults)) _
  | beat faults =>
      unfold World.apply
      rcases hm : w.mem with _ | m
      · exact h
      · exact .left ((h.of_thread hm).steps (idle_keeps dec) (show Msg.Truthful dec .sync from trivial)
          ((beatTimer_runs Env.idle .sync _).steps faults)) _
  | kill => exact ⟨h.layout, h.holds, h.owed, fun m hm => absurd hm (by simp [World.apply])⟩
  | reopen =>
      unfold World.apply
      rcases hm : w.mem with _ | m
      · refine ⟨h.layout, h.holds, h.owed, fun m hm k => ?_⟩
        obtain rfl := Option.some.inj hm
        exact streamInv_seed (h.layout k)
      · exact h

theorem conserves_run {dec : Decoder} : ∀ {events : List Event} {w : World},
    w.Conserves dec → (∀ e ∈ events, e.KeepsRows dec) → (w.run events).Conserves dec
  | [], _, h, _ => h
  | e :: events, _, h, he => @conserves_run dec events _
      (conserves_apply h (he e (by simp))) fun e' he' => he e' (by simp [he'])

theorem readerRows_sorted {dec : Decoder} {a : Archive} (hlayout : ∀ k, Layout (a.runs k))
    (hh : ∀ k, ∀ c ∈ a.runs k, Holds dec k c) (source_id : Int) (stream : String) :
    (a.readerRows dec source_id stream).Pairwise fun r r' => r.ts < r'.ts := by
  rw [← view_eq a (.seed a)]
  exact view_sorted (streamInv_seed (hlayout _)) (hh _)

/-- **Rows are conserved.** After every run of the writer whose encoders keep every row and
whose adopted segments are truthfully cataloged, whatever failed and wherever the process
was killed, a reader of a stream sees the rows the committed transactions owe it, each once
and in timestamp order. -/
theorem rows_conserved (dec : Decoder) (layout : IndexLayout) (events : List Event)
    (h : ∀ e ∈ events, e.KeepsRows dec) (source_id : Int) (stream : String) :
    let w := (World.create layout).run events
    (w.disk.db.readerRows dec source_id stream : Multiset WalRow) =
        ledger dec source_id stream w.disk.log ∧
      (w.disk.db.readerRows dec source_id stream).Pairwise fun r r' => r.ts < r'.ts := by
  have hw := conserves_run (conserves_create dec layout) h
  exact ⟨hw.owed source_id stream, readerRows_sorted hw.layout hw.holds source_id stream⟩

/-- An encoder that seals one row and nothing else. -/
def oneRow (r : WalRow) : SegmentEncoder where
  encode _ rows :=
    if rows = [r] then
      .ok (some { bytes := r.row, rows := 1, first_ts := r.ts, last_ts := r.ts, index := none })
    else .ok none
  version := none
  encode_after _ _ _ := .ok none

theorem oneRow_keeps (r : WalRow) : KeepsEveryRow (fun _ _ => [r]) (oneRow r) := by
  intro ctx rows s h
  rcases h with h | ⟨before, h⟩
  · unfold oneRow at h
    dsimp only at h
    split at h
    · rename_i hrows
      injection h with h
      obtain rfl := Option.some.inj h
      exact ⟨hrows.symm, by rw [hrows]; rfl⟩
    · injection h with h
      exact absurd h (by simp)
  · injection h with h
    exact absurd h (by simp)

/-- A row, a seal that is killed between its commit and its prune, and a reopening. -/
def killedSeal (r : WalRow) : List Event :=
  let env := { Env.idle with encoder := oneRow r }
  [.message env (.addSource { labels := ∅, metadata := ∅, clock_anchor_wall_ns := 0 } none) [],
    .message env (.wal [(1, [r])]) [],
    .message env (.seal 1 [r.stream] 10) [.none, .none, .none, .kill],
    .reopen]

theorem rows_conserved_killedSeal :
    let r : WalRow := { stream := "cpu", ts := 5, wall_offset := 0, row := [1] }
    let w := (World.create .table).run (killedSeal r)
    (w.disk.db.readerRows (fun _ _ => [r]) 1 "cpu" : Multiset WalRow) =
        ledger (fun _ _ => [r]) 1 "cpu" w.disk.log ∧
      (w.disk.db.readerRows (fun _ _ => [r]) 1 "cpu").Pairwise fun r r' => r.ts < r'.ts := by
  intro r
  refine rows_conserved (fun _ _ => [r]) .table (killedSeal r) (fun e he => ?_) 1 "cpu"
  simp only [killedSeal, List.mem_cons, List.not_mem_nil, or_false] at he
  rcases he with rfl | rfl | rfl | rfl
  · exact ⟨oneRow_keeps r, trivial⟩
  · exact ⟨oneRow_keeps r, trivial⟩
  · exact ⟨oneRow_keeps r, trivial⟩
  · trivial

end Dendro
