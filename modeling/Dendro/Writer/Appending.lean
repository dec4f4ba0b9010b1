import Dendro.Writer.World

/-!
# Histories that only append

Where rows are only ever added at the end of a stream and none are evicted, what a reader saw of it
once is the start of what it sees later, whatever was sealed, pruned, killed or reopened in between
(`reads_apply`). A stored segment then begins and ends with a row of its own (`Exact`), so a
watermark is the timestamp of a row that a reader sees.
-/

namespace Dendro

open Spans Relation

/-! ## Exact segments -/

/-- A segment that counts its rows, and begins and ends with one of them. -/
structure Exact (dec : Decoder) (k : StreamKey) (c : SegmentCols) : Prop where
  holds : Holds dec k c
  rows : c.seg_meta.rows.toNat = (dec k c.bytes).length
  first : ∃ r ∈ dec k c.bytes, r.ts = c.first
  last : ∃ r ∈ dec k c.bytes, r.ts = c.last

section

variable {dec : Decoder} {k : StreamKey}

/-- An encoder that keeps every row seals exact segments. -/
theorem SegmentOf.exact {encoder : SegmentEncoder} {uuid : Option String} {rows : List WalRow}
    {s : Segment} (hk : KeepsEveryRow dec encoder)
    (h : SegmentOf encoder ⟨(ofLex k).1, uuid, (ofLex k).2⟩ rows s)
    (hsorted : rows.Pairwise fun r r' => r.ts < r'.ts) (layout : IndexLayout) :
    Exact dec k (Archive.storedCols layout s.segMeta s.bytes s.index) := by
  obtain ⟨hdec, hspan⟩ := h.keeps hk
  have hdec : dec k s.bytes = rows := hdec
  obtain ⟨-, -, ⟨first, hfirst, hle⟩, ⟨last, hlast, hge⟩, -⟩ := h.span
  have hcount : s.rows.toNat = rows.length := (hk _ rows s h.encoded.1).2
  refine ⟨⟨?_, ?_⟩, ?_, ⟨first, ?_, le_antisymm hle (hspan first hfirst).1⟩,
    ⟨last, ?_, le_antisymm (hspan last hlast).2 hge⟩⟩
  · show (dec k s.bytes).Pairwise _
    rw [hdec]
    exact hsorted
  · show ∀ r ∈ dec k s.bytes, _
    rw [hdec]
    exact hspan
  · show s.rows.toNat = (dec k s.bytes).length
    rw [hdec, hcount]
  · show first ∈ dec k s.bytes
    rw [hdec]
    exact hfirst
  · show last ∈ dec k s.bytes
    rw [hdec]
    exact hlast

/-- A truthful segment is stored as an exact one. -/
theorem Adopted.Truthful.exact {segment : Adopted} (h : segment.Truthful dec k)
    (hrows : segment.seg_meta.rows ≠ 0) (layout : IndexLayout) :
    Exact dec k (Archive.storedCols layout segment.seg_meta segment.bytes segment.caller_index) := by
  have hne : dec k segment.bytes ≠ [] := by
    intro hnil
    have hcount := h.rows
    rw [hnil, List.length_nil] at hcount
    exact hrows (UInt64.toNat_inj.mp hcount)
  have hhead := List.head?_eq_some_head hne
  have hlast := List.getLast?_eq_some_getLast hne
  exact ⟨h.holds layout, h.rows,
    ⟨_, List.head_mem hne, h.first_ts _ hhead⟩, ⟨_, List.getLast_mem hne, h.last_ts _ hlast⟩⟩

/-- **Every step of a stream keeps its segments exact.** -/
theorem exact_step {env : Env} {msg : Msg} {e : Effect} {s s' : StreamState}
    (hs : StreamStep env msg k e s s') (h : StreamInv s)
    (hx : ∀ c ∈ s.catalog.values, Exact dec k c) (hk : KeepsEveryRow dec env.encoder)
    (hm : msg.Truthful dec) : ∀ c ∈ s'.catalog.values, Exact dec k c := by
  cases hs with
  | same => exact hx
  | rows => exact hx
  | prune => exact hx
  | @cut _ cutoff_ts =>
      intro c hc
      have hvalues := OrdMap.values_filter_value s.catalog fun c => !decide (c.last < cutoff_ts)
      exact hx c (List.mem_filter.mp (hvalues ▸ hc)).1
  | @sealed _ uuid init tail layout hseal =>
      intro c hc
      rw [values_insertAll_parts h.seq] at hc
      rcases List.mem_append.mp hc with hc | hc
      · exact hx c hc
      · obtain ⟨p, hp, rfl⟩ := List.mem_map.mp hc
        obtain ⟨part, hof, hsub⟩ := hseal.mem hp
        exact hof.exact hk ((liveRows_sorted s _).sublist hsub) layout
  | @adopted _ segment layout hmsg hstream hrows =>
      intro c hc
      have htrue : segment.Truthful dec k := by
        rw [hmsg] at hm
        rw [Msg.Truthful, hstream] at hm
        exact hm
      have hvalues : (s.catalog.insert s.next _).values = s.catalog.values ++
          [Archive.storedCols layout segment.seg_meta segment.bytes segment.caller_index] :=
        OrdMap.values_insert_of_lt _ h.seq
      rcases List.mem_append.mp (hvalues ▸ hc) with hc | hc
      · exact hx c hc
      · rw [List.mem_singleton.mp hc]
        exact htrue.exact hrows layout

end

/-! ## Transactions that append -/

/-- The rows an effect adds to what a reader sees. -/
def Effect.news (dec : Decoder) (k : StreamKey) : Effect → List WalRow
  | .rows new => new
  | .adopt segment => dec k segment.bytes
  | _ => []

/-- An effect whose rows come in timestamp order, after the rows a reader sees, and that removes
none of these. -/
structure Effect.InOrder (dec : Decoder) (k : StreamKey) (rows : List WalRow)
    (removed : Int64 → List WalRow) (e : Effect) : Prop where
  sorted : (e.news dec k).Pairwise fun r r' => r.ts < r'.ts
  after : ∀ r ∈ rows, ∀ r' ∈ e.news dec k, r.ts < r'.ts
  keeps : ∀ cutoff_ts, e = .cut cutoff_ts → removed cutoff_ts = []

/-- A transaction that only adds at the ends of streams, and evicts nothing. -/
def Write.InOrder (dec : Decoder) (a : Archive) (w : Write) : Prop :=
  ∀ source_id stream, (w.effect (streamKey source_id stream)).InOrder dec
    (streamKey source_id stream) (a.readerRows dec source_id stream)
    (a.evictedRows dec source_id stream)

/-- **After a step in order a reader sees what it saw, and then what was added.** -/
theorem view_append {env : Env} {msg : Msg} {dec : Decoder} {k : StreamKey} {e : Effect}
    {s s' : StreamState} (hs : StreamStep env msg k e s s') (h : StreamInv s)
    (hh : ∀ c ∈ s.catalog.values, Holds dec k c) (hk : KeepsEveryRow dec env.encoder)
    (hm : msg.Truthful dec) (horder : e.InOrder dec k (s.view dec k) (s.removed dec k)) :
    s'.view dec k = s.view dec k ++ e.news dec k := by
  obtain ⟨hview, hh'⟩ := view_step hs h hh hk hm
  have hperm : (s'.view dec k).Perm (s.view dec k ++ e.news dec k) := by
    rw [← Multiset.coe_eq_coe, hview]
    cases e with
    | none => simp [Effect.owed, Effect.news]
    | rows new => rw [Effect.owed, Effect.news, ← Multiset.coe_add]
    | adopt segment => rw [Effect.owed, Effect.news, ← Multiset.coe_add]
    | cut cutoff_ts =>
        rw [Effect.owed, horder.keeps cutoff_ts rfl]
        simp [Effect.news]
  -- both are in timestamp order, so they are one list
  have hsorted := List.pairwise_append.mpr ⟨view_sorted h hh, horder.sorted, horder.after⟩
  refine hperm.eq_of_pairwise (fun r r' _ _ hlt hlt' => ?_) (view_sorted (h.step hs) hh') hsorted
  exact absurd (lt_trans hlt hlt') (lt_irrefl _)

/-! ## Files -/

/-- A file whose streams are laid out in exact segments. -/
structure Archive.Exact (dec : Decoder) (a : Archive) : Prop where
  layout : ∀ k, Layout (a.runs k)
  runs : ∀ k, ∀ c ∈ a.runs k, Dendro.Exact dec k c

/-- The rows a reader gets out of the segments of a stream. -/
def Archive.sealedRows (dec : Decoder) (a : Archive) (source_id : Int) (stream : String) :
    List WalRow :=
  (a.readSegments source_id stream).flatMap fun s => dec (streamKey source_id stream) s.bytes

section

variable {dec : Decoder} {a : Archive} {source_id : Int} {stream : String}

theorem readerRows_eq : a.readerRows dec source_id stream =
    a.sealedRows dec source_id stream ++ a.liveWal source_id stream := rfl

theorem mem_sealedRows {r : WalRow} : r ∈ a.sealedRows dec source_id stream ↔
    ∃ c ∈ a.runs (streamKey source_id stream), r ∈ dec (streamKey source_id stream) c.bytes := by
  unfold Archive.sealedRows Archive.readSegments Archive.runs OrdMap.values
  simp only [List.mem_flatMap, List.mem_map]
  constructor
  · rintro ⟨_, ⟨e, he, rfl⟩, hr⟩
    exact ⟨e.2, ⟨e, he, rfl⟩, hr⟩
  · rintro ⟨_, ⟨e, he, rfl⟩, hr⟩
    exact ⟨_, ⟨e, he, rfl⟩, hr⟩

/-- A live row is past the watermark. -/
theorem liveWal_past {r : WalRow} (hr : r ∈ a.liveWal source_id stream) {w : Int64}
    (hw : a.watermark (streamKey source_id stream) = some w) : w < r.ts := by
  have hlive := stream_liveRows ⟨⟨a, [], []⟩, .seed a⟩ (streamKey source_id stream)
  have hmem : r ∈ (streamState a (.seed a) (streamKey source_id stream)).liveRows stream :=
    hlive ▸ hr
  obtain ⟨-, -, hpast⟩ := mem_liveRows.mp hmem
  rw [Archive.watermark_eq] at hw
  obtain ⟨⟨c, hc, rfl⟩, -⟩ := newest_eq_some.mp hw
  exact hpast c hc

theorem liveWal_stream {r : WalRow} (hr : r ∈ a.liveWal source_id stream) : r.stream = stream := by
  obtain ⟨e, -, rfl⟩ := List.mem_map.mp hr
  rfl

theorem Archive.Exact.sorted (h : a.Exact dec) (source_id : Int) (stream : String) :
    (a.readerRows dec source_id stream).Pairwise fun r r' => r.ts < r'.ts :=
  readerRows_sorted h.layout (fun k c hc => (h.runs k c hc).holds) source_id stream

/-- A stream without a watermark has no sealed rows. -/
theorem sealedRows_nil (hw : a.watermark (streamKey source_id stream) = none) :
    a.sealedRows dec source_id stream = [] := by
  rw [Archive.watermark_eq, newest_eq_none] at hw
  refine List.eq_nil_iff_forall_not_mem.mpr fun r hr => ?_
  obtain ⟨c, hc, -⟩ := mem_sealedRows.mp hr
  rw [hw] at hc
  exact absurd hc List.not_mem_nil

/-- **A watermark is the timestamp of the newest sealed row.** -/
theorem Archive.Exact.watermark (h : a.Exact dec) {w : Int64}
    (hw : a.watermark (streamKey source_id stream) = some w) :
    (∀ r ∈ a.sealedRows dec source_id stream, r.ts ≤ w) ∧
      ∃ r ∈ a.sealedRows dec source_id stream, r.ts = w := by
  rw [Archive.watermark_eq] at hw
  obtain ⟨⟨c, hc, rfl⟩, hle⟩ := newest_eq_some.mp hw
  refine ⟨fun r hr => ?_, ?_⟩
  · obtain ⟨c', hc', hr⟩ := mem_sealedRows.mp hr
    exact le_trans ((h.runs _ c' hc').holds.2 r hr).2 (hle c' hc')
  · obtain ⟨r, hr, hts⟩ := (h.runs _ c hc).last
    exact ⟨r, mem_sealedRows.mpr ⟨c, hc, hr⟩, hts⟩

end

/-! ## Runs -/

/-- Every transaction that committed only added at the ends of streams. -/
def World.InOrder (dec : Decoder) (w : World) : Prop := ∀ e ∈ w.disk.log, e.2.InOrder dec e.1

/-- What was there is the start of what is there, in the log and for every reader. -/
structure Disk.ReadsOn (dec : Decoder) (d d' : Disk) : Prop where
  log : d.log <+: d'.log
  rows : ∀ source_id stream,
    d.db.readerRows dec source_id stream <+: d'.db.readerRows dec source_id stream

theorem Disk.ReadsOn.refl (dec : Decoder) (d : Disk) : d.ReadsOn dec d :=
  ⟨List.prefix_rfl, fun _ _ => List.prefix_rfl⟩

theorem Disk.ReadsOn.trans {dec : Decoder} {d d' d'' : Disk} (h : d.ReadsOn dec d')
    (h' : d'.ReadsOn dec d'') : d.ReadsOn dec d'' :=
  ⟨h.log.trans h'.log, fun id stream => (h.rows id stream).trans (h'.rows id stream)⟩

section

variable {dec : Decoder} {env : Env} {msg : Msg} {s s' : WriterState}

theorem reads_step (h : Conserves dec s) (hk : KeepsEveryRow dec env.encoder)
    (hm : msg.Truthful dec) (hs : WriterStep env msg s s')
    (horder : ∀ e ∈ s'.disk.log, e.2.InOrder dec e.1) : s.disk.ReadsOn dec s'.disk := by
  refine ⟨hs.log_prefix, fun source_id stream => ?_⟩
  rw [← view_eq s.disk.db s.mem, ← view_eq s'.disk.db s'.mem]
  rcases hs.stream (streamKey source_id stream) with ⟨-, hstep⟩ | ⟨w, hlog, hstep⟩
  · -- nothing was committed, and a step without an effect is one in order
    have happend := view_append hstep (h.inv _) (h.holds _) hk hm ⟨.nil, nofun, nofun⟩
    rw [happend]
    exact List.prefix_append _ _
  · have hin := horder (s.db, w) (by rw [hlog]; simp) source_id stream
    rw [← view_eq s.db s.mem, ← removed_eq s.db s.mem] at hin
    rw [view_append hstep (h.inv _) (h.holds _) hk hm hin]
    exact List.prefix_append _ _

theorem reads_steps (hk : KeepsEveryRow dec env.encoder) (hm : msg.Truthful dec)
    (hs : ReflTransGen (WriterStep env msg) s s') (h : Conserves dec s)
    (horder : ∀ e ∈ s'.disk.log, e.2.InOrder dec e.1) : s.disk.ReadsOn dec s'.disk := by
  induction hs with
  | refl => exact .refl dec _
  | tail hinit hlast ih =>
      have hbefore := ih fun e he => horder e (hlast.log_prefix.subset he)
      exact hbefore.trans (reads_step (h.steps hk hm hinit) hk hm hlast horder)

theorem exact_steps (hk : KeepsEveryRow dec env.encoder) (hm : msg.Truthful dec)
    (hs : ReflTransGen (WriterStep env msg) s s') (h : Conserves dec s)
    (hx : ∀ k, ∀ c ∈ s.db.runs k, Exact dec k c) : ∀ k, ∀ c ∈ s'.db.runs k, Exact dec k c := by
  induction hs with
  | refl => exact hx
  | tail hinit hlast ih =>
      intro k
      have hinv := (h.steps hk hm hinit).inv k
      rcases hlast.stream k with ⟨-, hstep⟩ | ⟨w, -, hstep⟩
      · exact exact_step hstep hinv (ih k) hk hm
      · exact exact_step hstep hinv (ih k) hk hm

end

/-- What one event does to the file, as a run of steps of some message. -/
theorem steps_of_apply {dec : Decoder} {w : World} {e : Event} (he : e.KeepsRows dec) :
    (w.apply e).disk = w.disk ∨ ∃ m env msg s', w.mem = some m ∧ (w.apply e).disk = s'.disk ∧
      KeepsEveryRow dec env.encoder ∧ msg.Truthful dec ∧
      ReflTransGen (WriterStep env msg) { disk := w.disk, mem := m } s' := by
  obtain ⟨disk, mem⟩ := w
  cases e with
  | message env msg faults =>
      cases mem with
      | none => exact .inl rfl
      | some m => exact .inr ⟨m, env, msg, _, rfl, rfl, he.1, he.2, (handle_runs env msg _).steps faults⟩
  | beat faults =>
      cases mem with
      | none => exact .inl rfl
      | some m =>
          exact .inr ⟨m, .idle, .sync, _, rfl, rfl, idle_keeps dec, trivial,
            (beatTimer_runs Env.idle .sync _).steps faults⟩
  | kill => exact .inl rfl
  | reopen =>
      cases mem with
      | none => exact .inl rfl
      | some m => exact .inl rfl

/-- A world that conserves rows, and whose segments are exact. -/
structure World.Appends (dec : Decoder) (w : World) : Prop where
  conserves : w.Conserves dec
  segments : ∀ k, ∀ c ∈ w.disk.db.runs k, Exact dec k c

theorem World.Appends.file {dec : Decoder} {w : World} (h : w.Appends dec) :
    w.disk.db.Exact dec := ⟨h.conserves.layout, h.segments⟩

theorem appends_create (dec : Decoder) (layout : IndexLayout) :
    (World.create layout).Appends dec :=
  ⟨conserves_create dec layout, fun _ _ hc => absurd hc List.not_mem_nil⟩

section

variable {dec : Decoder} {w : World} {e : Event}

theorem World.Appends.apply (h : w.Appends dec) (he : e.KeepsRows dec) :
    (w.apply e).Appends dec := by
  refine ⟨conserves_apply h.conserves he, ?_⟩
  rcases @steps_of_apply dec w e he with heq | ⟨m, env, msg, s', hm, heq, hk, hmsg, hs⟩
  · rw [heq]
    exact h.segments
  · rw [heq]
    exact exact_steps hk hmsg hs (h.conserves.of_thread hm) h.segments

/-- **An event in order reads on.** -/
theorem World.Appends.reads_apply (h : w.Appends dec) (he : e.KeepsRows dec)
    (horder : (w.apply e).InOrder dec) : w.disk.ReadsOn dec (w.apply e).disk := by
  unfold World.InOrder at horder
  rcases @steps_of_apply dec w e he with heq | ⟨m, env, msg, s', hm, heq, hk, hmsg, hs⟩
  · rw [heq]
    exact .refl dec _
  · rw [heq] at horder ⊢
    exact reads_steps hk hmsg hs (h.conserves.of_thread hm) horder

theorem World.Appends.run : ∀ {events : List Event} {w : World}, w.Appends dec →
    (∀ e ∈ events, e.KeepsRows dec) → (w.run events).Appends dec
  | [], _, h, _ => h
  | e :: events, _, h, he => @World.Appends.run events _ (h.apply (he e List.mem_cons_self))
      fun e' he' => he e' (List.mem_cons_of_mem e he')

theorem World.Appends.reads_run {events : List Event} {w : World} (h : w.Appends dec)
    (he : ∀ e ∈ events, e.KeepsRows dec) (horder : (w.run events).InOrder dec) :
    w.disk.ReadsOn dec (w.run events).disk := by
  induction events generalizing w with
  | nil => exact .refl dec _
  | cons e events ih =>
      have hfirst := he e List.mem_cons_self
      have hrest := fun e' he' => he e' (List.mem_cons_of_mem e he')
      have hbefore : (w.apply e).InOrder dec := fun x hx =>
        horder x ((log_prefix_run events (w.apply e)).subset hx)
      exact (h.reads_apply hfirst hbefore).trans (ih (h.apply hfirst) hrest horder)

end

/-- **A history that only appends reads on.** After any run of the writer whose transactions only
add rows at the ends of streams and evict none, whatever was sealed, pruned or adopted, whatever
failed and wherever the process was killed, what a reader saw of a stream at any time before is the
start of what it sees now; and a watermark is the timestamp of the newest row that is sealed. The
encoders keep every row they are given, and the segments adopted hold what they are cataloged
with. -/
theorem reads_on (dec : Decoder) (layout : IndexLayout) (events events' : List Event)
    (h : ∀ e ∈ events ++ events', e.KeepsRows dec)
    (horder : ((World.create layout).run (events ++ events')).InOrder dec)
    (source_id : Int) (stream : String) :
    let w := (World.create layout).run events
    let w' := (World.create layout).run (events ++ events')
    w.disk.db.readerRows dec source_id stream <+: w'.disk.db.readerRows dec source_id stream ∧
      ∀ t, w'.disk.db.watermark (streamKey source_id stream) = some t →
        (∃ r ∈ w'.disk.db.sealedRows dec source_id stream, r.ts = t) ∧
          ∀ r ∈ w'.disk.db.sealedRows dec source_id stream, r.ts ≤ t := by
  have hbefore : ((World.create layout).run events).Appends dec :=
    (appends_create dec layout).run fun e he => h e (List.mem_append_left _ he)
  have hrest : ∀ e ∈ events', e.KeepsRows dec := fun e he => h e (List.mem_append_right _ he)
  have hrun : (World.create layout).run (events ++ events') =
      ((World.create layout).run events).run events' := List.foldl_append
  rw [hrun] at horder
  intro w w'
  have hw' : w' = w.run events' := hrun
  rw [hw']
  refine ⟨(hbefore.reads_run hrest horder).rows source_id stream, fun t ht => ?_⟩
  obtain ⟨hle, hmem⟩ := (hbefore.run hrest).file.watermark ht
  exact ⟨hmem, hle⟩

/-- Whether a transaction adds at most one row, to a file that has none, and evicts nothing. -/
def addsFirst : Archive × Write → Bool
  | (a, .walRows ticks) => a.wal.entries.isEmpty && a.segments.entries.isEmpty &&
      decide ((ticks.flatMap Prod.snd).length ≤ 1)
  | (_, .adopt ..) | (_, .evict ..) | (_, .evictStreams ..) => false
  | _ => true

theorem addsFirst_inOrder {dec : Decoder} {e : Archive × Write} (h : addsFirst e = true) :
    e.2.InOrder dec e.1 := by
  obtain ⟨a, w⟩ := e
  intro source_id stream
  cases w with
  | walRows ticks =>
      simp only [addsFirst, Bool.and_eq_true, List.isEmpty_iff, decide_eq_true_eq] at h
      obtain ⟨⟨hwal, hsegments⟩, hlen⟩ := h
      have hsub : (tickRows ticks (streamKey source_id stream)).Sublist
          (ticks.flatMap Prod.snd) := by
        unfold tickRows
        induction ticks with
        | nil => exact .slnil
        | cons t ticks ih =>
            rw [List.flatMap_cons, List.flatMap_cons]
            have hlen' : (ticks.flatMap Prod.snd).length ≤ 1 := by
              rw [List.flatMap_cons, List.length_append] at hlen
              omega
            exact List.filter_sublist.append (ih hlen')
      have hone : (tickRows ticks (streamKey source_id stream)).length ≤ 1 :=
        le_trans hsub.length_le hlen
      have hnone : a.readerRows dec source_id stream = [] := by
        unfold Archive.readerRows Archive.readSegments Archive.liveWal Archive.live Archive.catalog
          Archive.walOf OrdMap.group OrdMap.filter
        simp [hwal, hsegments]
      refine ⟨?_, fun r hr => ?_, nofun⟩
      · show (tickRows ticks (streamKey source_id stream)).Pairwise _
        rcases hrows : tickRows ticks (streamKey source_id stream) with _ | ⟨r, _ | ⟨r', rs⟩⟩
        · exact .nil
        · exact List.pairwise_singleton _ _
        · rw [hrows] at hone
          simp only [List.length_cons] at hone
          omega
      · rw [hnone] at hr
        exact absurd hr List.not_mem_nil
  | adopt => exact absurd h (by simp [addsFirst])
  | evict => exact absurd h (by simp [addsFirst])
  | evictStreams => exact absurd h (by simp [addsFirst])
  | _ => exact ⟨.nil, nofun, nofun⟩

/-- The row that is sealed, killed over and found again. -/
def killedRow : WalRow := { stream := "cpu", ts := 5, wall_offset := 0, row := [1] }

theorem keeps_killedSeal : ∀ e ∈ killedSeal killedRow, e.KeepsRows (fun _ _ => [killedRow]) := by
  intro e he
  simp only [killedSeal, List.mem_cons, List.not_mem_nil, or_false] at he
  rcases he with rfl | rfl | rfl | rfl
  · exact ⟨oneRow_keeps killedRow, trivial⟩
  · exact ⟨oneRow_keeps killedRow, trivial⟩
  · exact ⟨oneRow_keeps killedRow, trivial⟩
  · trivial

theorem inOrder_killedSeal {dec : Decoder} :
    ((World.create .table).run (killedSeal killedRow)).InOrder dec := by
  have hlog : ((World.create .table).run (killedSeal killedRow)).disk.log.all addsFirst = true := by
    decide +kernel
  intro e he
  exact addsFirst_inOrder (List.all_eq_true.mp hlog e he)

theorem reads_on_killedSeal :
    ((World.create .table).run ((killedSeal killedRow).take 2)).disk.db.readerRows
        (fun _ _ => [killedRow]) 1 "cpu" <+:
      ((World.create .table).run (killedSeal killedRow)).disk.db.readerRows
        (fun _ _ => [killedRow]) 1 "cpu" := by
  have hsplit := List.take_append_drop 2 (killedSeal killedRow)
  have hon := reads_on (fun _ _ => [killedRow]) .table ((killedSeal killedRow).take 2)
    ((killedSeal killedRow).drop 2)
  rw [hsplit] at hon
  exact (hon keeps_killedSeal inOrder_killedSeal 1 "cpu").1

end Dendro
