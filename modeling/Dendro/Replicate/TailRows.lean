import Dendro.Replicate.Connection
import Dendro.Replicate.Rows
import Dendro.Replicate.Tail

/-!
# Which rows a publisher ships

A publisher opened by `catching_up` follows each stream by the timestamp of the newest row it
shipped. While a writer only adds rows at the ends of streams this is enough: every call that
succeeds makes what was shipped, over all calls, what a reader of the file sees from the bound of
the opening on, whatever was sealed, pruned or lost in a crash between the calls
(`published_rows`).
-/

namespace Dendro.Replicate

open Dendro

/-! ## Whole calls -/

/-- What `F` says of each cursor and of the rows shipped of its source, and that no row was
shipped of any other. -/
structure RowLedger (read : String → Bytes → List WalRow)
    (F : SourceCursor → (String → List WalRow) → Prop) (cs : List SourceCursor)
    (sent : List Frame) : Prop where
  known : ∀ c ∈ cs, F c fun stream => streamRows read c.ordinal stream sent
  silent : ∀ o, (∀ c ∈ cs, c.ordinal ≠ o) → ∀ stream, streamRows read o stream sent = []

/-- A cursor after a turn, which `F` held of before it. -/
def RowsTurned (read : String → Bytes → List WalRow) (db : Archive)
    (F : SourceCursor → (String → List WalRow) → Prop) (c' : SourceCursor)
    (rows' : String → List WalRow) : Prop :=
  ∃ c rows, F c rows ∧ c'.source_id = c.source_id ∧
    (∀ stream, c'.walAfter stream = movedTo db c.source_id stream (c.walAfter stream) ∧
      InReach db c.source_id stream (c.walAfter stream)) ∧
    rows' = fun stream => rows stream ++ shipment read db c.source_id stream (c.walAfter stream)

/-- A cursor after the opening of a source. -/
def RowsOpened (read : String → Bytes → List WalRow) (db : Archive) (since : Int64)
    (c : SourceCursor) (rows : String → List WalRow) : Prop :=
  (∀ stream, c.walAfter stream = db.watermark (streamKey c.source_id stream)) ∧
    rows = openedRows read db since c.source_id

/-- How a call met a source: some rows were shipped, and `G` holds of the new cursor and them. -/
def RowsMet (read : String → Bytes → List WalRow)
    (G : SourceCursor → (String → List WalRow) → Prop) (rec : SourceRow) (ordinal : UInt32)
    (b : Batch) (c : SourceCursor) (b' : Batch) : Prop :=
  ∃ rows, Feeds read (.fresh ordinal rec, b) (c, b') rows ∧ G c rows

section

variable {read : String → Bytes → List WalRow} {db : Archive} {since : Int64}
  {F G : SourceCursor → (String → List WalRow) → Prop} {sent : List Frame}
  {cs cs' : List SourceCursor} {b b' : Batch}

theorem RowsTurned.mono {c' : SourceCursor} {rows' : String → List WalRow}
    (h : RowsTurned read db F c' rows') (hFG : ∀ c rows, F c rows → G c rows) :
    RowsTurned read db G c' rows' := by
  obtain ⟨c, rows, hF, hrest⟩ := h
  exact ⟨c, rows, hFG c rows hF, hrest⟩

theorem RowLedger.mono (h : RowLedger read F cs sent)
    (hFG : ∀ c ∈ cs, ∀ rows, F c rows → G c rows) : RowLedger read G cs sent :=
  ⟨fun c hc => hFG c hc _ (h.known c hc), h.silent⟩

/-- What the turns of a call shipped of one source, and of the others. -/
theorem fed_each (h : Prog.Each (fun c b c' b' => Fed read db (c, b) (c', b')) cs b cs' b')
    (hnodup : (cs.map (·.ordinal)).Nodup) : cs'.map (·.ordinal) = cs.map (·.ordinal) ∧
      (∀ o ∉ cs.map (·.ordinal), ∀ stream,
        streamRows read o stream b'.frames = streamRows read o stream b.frames) ∧
      ∀ c' ∈ cs', ∃ c ∈ cs, c'.ordinal = c.ordinal ∧ c'.source_id = c.source_id ∧
        (∀ stream, c'.walAfter stream = movedTo db c.source_id stream (c.walAfter stream) ∧
          InReach db c.source_id stream (c.walAfter stream)) ∧
        ∀ stream, streamRows read c.ordinal stream b'.frames =
          streamRows read c.ordinal stream b.frames ++
            shipment read db c.source_id stream (c.walAfter stream) := by
  obtain ⟨hordinals, hothers, hturned⟩ := each_apart
    (fun o fs stream => streamRows read o stream fs)
    (T := fun c c' v v' => c'.source_id = c.source_id ∧
      (∀ stream, c'.walAfter stream = movedTo db c.source_id stream (c.walAfter stream) ∧
        InReach db c.source_id stream (c.walAfter stream)) ∧
      ∀ stream, v' stream = v stream ++ shipment read db c.source_id stream (c.walAfter stream))
    (fun hone => ⟨hone.feeds.ordinal, fun o ho => funext (hone.feeds.others o ho),
      hone.feeds.source_id, fun stream => ⟨hone.walAfter stream, hone.reach stream⟩,
      hone.feeds.fed⟩) h hnodup
  exact ⟨hordinals, fun o ho => congrFun (hothers o ho), hturned⟩

/-- Every source of the ledger has its turn. -/
theorem RowLedger.each (h : RowLedger read F cs (sent ++ b.frames))
    (hnodup : (cs.map (·.ordinal)).Nodup)
    (heach : Prog.Each (fun c b c' b' => Fed read db (c, b) (c', b')) cs b cs' b') :
    RowLedger read (RowsTurned read db F) cs' (sent ++ b'.frames) := by
  obtain ⟨hordinals, hothers, hturned⟩ := fed_each heach hnodup
  refine ⟨fun c' hc' => ?_, fun o ho stream => ?_⟩
  · obtain ⟨c, hc, hordinal, hid, hmoved, hrows⟩ := hturned c' hc'
    refine ⟨c, _, h.known c hc, hid, hmoved, ?_⟩
    funext stream
    rw [hordinal, streamRows_append, streamRows_append, hrows, List.append_assoc]
  · have hnot : o ∉ cs.map (·.ordinal) := by
      rw [← hordinals, List.mem_map]
      rintro ⟨c', hc', rfl⟩
      exact ho c' hc' rfl
    have hnone : ∀ c ∈ cs, c.ordinal ≠ o := fun c hc heq => hnot (heq ▸ List.mem_map_of_mem hc)
    rw [streamRows_append, hothers o hnot, ← streamRows_append]
    exact h.silent o hnone stream

/-- A source that was met joins the ledger. -/
theorem RowLedger.meets {recs : List SourceRow} {x x' : Polls}
    (hmeets : Meets (RowsMet read F) recs x x') (hlt : ∀ c ∈ x.1, c.ordinal.toNat < x.1.length)
    (h : RowLedger read F x.1 (sent ++ x.2.frames)) :
    RowLedger read F x'.1 (sent ++ x'.2.frames) := by
  have hview : ∀ (o : UInt32) (fs fs' : List Frame),
      (fun stream => streamRows read o stream fs) = (fun stream => streamRows read o stream fs') →
      (fun stream => streamRows read o stream (sent ++ fs)) =
        fun stream => streamRows read o stream (sent ++ fs') := by
    intro o fs fs' heq
    funext stream
    rw [streamRows_append, streamRows_append, congrFun heq stream]
  have hjoin := meets_apart (fun o fs stream => streamRows read o stream fs) (F := F) hview hmeets
    (fun rec _ ordinal b c b' hmet => ?_) hlt h.known fun o ho => funext (h.silent o ho)
  · exact ⟨hjoin.1, fun o ho => congrFun (hjoin.2 o ho)⟩
  · obtain ⟨rows, hfeeds, hF⟩ := hmet
    refine ⟨hfeeds.ordinal, fun o ho => funext (hfeeds.others o ho), fun hnone => ?_⟩
    have hfed : ∀ stream, streamRows read ordinal stream b'.frames =
        streamRows read ordinal stream b.frames ++ rows stream := hfeeds.fed
    have hrows : (fun stream => streamRows read ordinal stream (sent ++ b'.frames)) = rows := by
      funext stream
      rw [streamRows_append, hfed, ← List.append_assoc, ← streamRows_append, congrFun hnone stream]
      rfl
    rw [hrows]
    exact hF

/-- A source is met by opening it, or by opening it and a turn. -/
theorem emits_openSource_rowsMet (rec : SourceRow) (ordinal : UInt32) (b : Batch) :
    Emits (openSource db rec (some since) db.sealedWatermarks) (.fresh ordinal rec, b)
      fun _ p' => RowsMet read (RowsOpened read db since) rec ordinal b p'.1 p'.2 := by
  refine (@emits_openSource_fed read db since rec ordinal b).mono (fun _ p' h => ?_)
    fun _ _ _ => trivial
  have hid : p'.1.source_id = rec.id := h.feeds.source_id
  refine ⟨_, h.feeds, fun stream => ?_, ?_⟩
  · rw [h.walAfter, hid]
    rfl
  · rw [hid]
    rfl

theorem emits_openSource_poll_rowsMet (rec : SourceRow) (ordinal : UInt32) (b : Batch) :
    Emits (do
      openSource db rec (some since) db.sealedWatermarks
      poll db) (.fresh ordinal rec, b) fun _ p' =>
        RowsMet read (RowsTurned read db (RowsOpened read db since)) rec ordinal b p'.1 p'.2 := by
  refine (@emits_openSource_rowsMet read db since rec ordinal b).bind fun _ p₁ h₁ => ?_
  obtain ⟨rows, hfeeds, hopened⟩ := h₁
  refine (@emits_poll_fed read db p₁).mono (fun _ p' h => ?_) fun _ _ _ => trivial
  exact ⟨_, hfeeds.trans h.feeds, p₁.1, rows, hopened, h.feeds.source_id,
    fun stream => ⟨h.walAfter stream, h.reach stream⟩, rfl⟩

variable {p p' : ArchivePublisher} {faults faults' : List (Fault StorageFailure)}
  {frames : List Frame}

/-- **What an opening that succeeded shipped of the rows.** -/
theorem open_rows (h : ArchivePublisher.open_ db (some since)
      (.unopened (some since)) faults = (.ok frames, p, faults')) :
    RowLedger read (RowsOpened read db since) p.sources frames ∧ p.since = since := by
  refine @of_open db p faults faults' frames (RowLedger read (RowsOpened read db since))
    (some since) ?_ h
  refine (emits_openAll fun rec ordinal b => @emits_openSource_rowsMet read db since rec ordinal b).mono
    (fun _ x hmeets => ?_) fun _ _ _ => trivial
  exact @RowLedger.meets read (RowsOpened read db since) [] _ _ _ hmeets
    (fun _ hc => absurd hc List.not_mem_nil)
    ⟨fun _ hc => absurd hc List.not_mem_nil, fun _ _ _ => rfl⟩

/-- **What a `next` that succeeded shipped of the rows**, after what was sent before. -/
theorem next_rows {now : Int64} (hord : Ordered p.sources)
    (hopened : ∀ c rows, RowsOpened read db p.since c rows → F c rows)
    (h : RowLedger read F p.sources sent)
    (hnext : ArchivePublisher.next db now p faults = (.ok frames, p', faults')) :
    RowLedger read (RowsTurned read db F) p'.sources (sent ++ frames) ∧
      p'.since = p.since := by
  have hcollect := @emits_collect db (RowsMet read (RowsTurned read db F))
    (fun c b c' b' => Fed read db (c, b) (c', b')) now p.since
    (fun c b => @emits_pollKnown_fed read db now db.readSources (c, b))
    (fun rec ordinal b => (@emits_openSource_poll_rowsMet read db p.since rec ordinal b).mono
      (fun _ _ h => by
        obtain ⟨rows, hfeeds, hturned⟩ := h
        exact ⟨rows, hfeeds, hturned.mono hopened⟩) fun _ _ _ => trivial)
    (fun _ _ _ _ h => h.feeds.source_id) p.sources
  refine @of_next db p p' faults faults' frames
    (fun cs frames => RowLedger read (RowsTurned read db F) cs (sent ++ frames)) now ?_ hnext
  refine hcollect.mono ?_ fun _ _ _ => trivial
  rintro _ x ⟨cs₁, b₁, heach, hmeets⟩
  have hnodup := ordered_nodup hord
  have hfirst : RowLedger read F p.sources (sent ++ Batch.empty.frames) := by
    rwa [show sent ++ Batch.empty.frames = sent from List.append_nil sent]
  refine RowLedger.meets hmeets (fun c hc => ?_) (hfirst.each hnodup heach)
  obtain ⟨hordinals, -, -⟩ := fed_each heach hnodup
  have hlength : cs₁.length = p.sources.length := by
    have h := congrArg List.length hordinals
    rwa [List.length_map, List.length_map] at h
  have hmem : c.ordinal ∈ p.sources.map (·.ordinal) := hordinals ▸ List.mem_map_of_mem hc
  obtain ⟨d, hd, hdc⟩ := List.mem_map.mp hmem
  rw [hlength, ← hdc]
  exact ordered_lt hord d hd

end

/-! ## Keeping up with a writer -/

/-- What was shipped of every stream of a source is what a reader saw of it before, up to the
stream's cursor and from the bound on. -/
def ShippedUpTo (read : String → Bytes → List WalRow) (since : Int64) (db : Archive)
    (c : SourceCursor) (rows : String → List WalRow) : Prop :=
  ∀ stream, ∃ seen, seen <+: db.readerRows (byStream read) c.source_id stream ∧
    Reached since seen (c.walAfter stream) (rows stream)

/-- What was shipped of every stream of a source is what a reader sees of it, from the bound on. -/
def ShippedWhole (read : String → Bytes → List WalRow) (since : Int64) (db : Archive)
    (c : SourceCursor) (rows : String → List WalRow) : Prop :=
  ∀ stream, CaughtUp (db.readerRows (byStream read) c.source_id stream) (c.walAfter stream) ∧
    ∃ skipped, db.readerRows (byStream read) c.source_id stream = skipped ++ rows stream ∧
      ∀ r ∈ skipped, r.ts < since

section

variable {read : String → Bytes → List WalRow} {since : Int64} {db : Archive} {c : SourceCursor}
  {rows : String → List WalRow}

theorem ShippedWhole.upTo (h : ShippedWhole read since db c rows) :
    ShippedUpTo read since db c rows := by
  intro stream
  obtain ⟨hcaught, skipped, hsplit, hskipped⟩ := h stream
  exact ⟨_, List.prefix_rfl, hcaught.reached hsplit hskipped⟩

theorem ShippedUpTo.readsOn {d d' : Disk} (h : ShippedUpTo read since d.db c rows)
    (hon : d.ReadsOn (byStream read) d') : ShippedUpTo read since d'.db c rows := by
  intro stream
  obtain ⟨seen, hseen, hreached⟩ := h stream
  exact ⟨seen, hseen.trans (hon.rows c.source_id stream), hreached⟩

/-- A source that was opened is shipped up to its watermarks. -/
theorem RowsOpened.upTo (hexact : db.Exact (byStream read)) (h : RowsOpened read db since c rows) :
    ShippedUpTo read since db c rows := by
  obtain ⟨hwal, hrows⟩ := h
  intro stream
  rw [hrows, hwal]
  exact ⟨_, List.prefix_rfl, reached_open hexact⟩

/-- **A turn ships what a source that was followed is missing.** -/
theorem RowsTurned.whole (hexact : db.Exact (byStream read))
    (h : RowsTurned read db (ShippedUpTo read since db) c rows) :
    ShippedWhole read since db c rows := by
  obtain ⟨c₀, rows₀, hupTo, hid, hmoved, hrows⟩ := h
  intro stream
  obtain ⟨seen, hseen, hreached⟩ := hupTo stream
  obtain ⟨hwal, hreach⟩ := hmoved stream
  have hall := hreached.turn hexact hseen hreach
  have hcursor := caughtUp_turn hreached.cursor hexact hseen hreach
  rw [hrows, hid, hwal]
  exact ⟨hcursor, hall⟩

end

/-- A writer, and a publisher that was opened on its file by `catching_up`. The batches are what the
publisher returned so far; the events of the writer come between its calls, none of which
failed. -/
inductive Tailing (read : String → Bytes → List WalRow) (layout : IndexLayout) (since : Int64) :
    List (List Frame) → World → ArchivePublisher → Prop where
  | opened {events : List Event} {p : ArchivePublisher} {frames : List Frame}
      {faults faults' : List (Fault StorageFailure)} :
      (∀ e ∈ events, e.KeepsRows (byStream read)) →
      ArchivePublisher.open_ ((World.create layout).run events).disk.db (some since)
        (.unopened (some since)) faults = (.ok frames, p, faults') →
      Tailing read layout since [frames] ((World.create layout).run events) p
  | wrote {batches : List (List Frame)} {w : World} {p : ArchivePublisher} {e : Event} :
      Tailing read layout since batches w p → e.KeepsRows (byStream read) →
      Tailing read layout since batches (w.apply e) p
  | polled {batches : List (List Frame)} {w : World} {now : Int64} {p p' : ArchivePublisher}
      {frames : List Frame} {faults faults' : List (Fault StorageFailure)} :
      Tailing read layout since batches w p →
      ArchivePublisher.next w.disk.db now p faults = (.ok frames, p', faults') →
      Tailing read layout since (batches ++ [frames]) w p'

/-- Between two calls: what was shipped is what a reader saw before, up to the cursors. -/
structure Abreast (read : String → Bytes → List WalRow) (since : Int64)
    (batches : List (List Frame)) (w : World) (p : ArchivePublisher) : Prop where
  appends : w.Appends (byStream read)
  bound : p.since = since
  ordered : Ordered p.sources
  ledger : RowLedger read (ShippedUpTo read since w.disk.db) p.sources batches.flatten

section

variable {read : String → Bytes → List WalRow} {layout : IndexLayout} {since : Int64}
  {batches : List (List Frame)} {w : World} {p p' : ArchivePublisher} {now : Int64}
  {frames : List Frame} {faults faults' : List (Fault StorageFailure)}

/-- **A call completes what was shipped.** -/
theorem Abreast.next (h : Abreast read since batches w p)
    (hnext : ArchivePublisher.next w.disk.db now p faults = (.ok frames, p', faults')) :
    RowLedger read (ShippedWhole read since w.disk.db) p'.sources (batches ++ [frames]).flatten ∧
      Abreast read since (batches ++ [frames]) w p' := by
  have hexact := h.appends.file
  have hopened : ∀ c rows, RowsOpened read w.disk.db p.since c rows →
      ShippedUpTo read since w.disk.db c rows := by
    intro c rows hopened
    rw [h.bound] at hopened
    exact hopened.upTo hexact
  obtain ⟨hledger, hsince⟩ := next_rows h.ordered hopened h.ledger hnext
  have hwhole := hledger.mono fun _ _ _ h => h.whole hexact
  have hsent : (batches ++ [frames]).flatten = batches.flatten ++ frames := by
    rw [List.flatten_append, List.flatten_singleton]
  rw [hsent]
  refine ⟨hwhole, h.appends, hsince.trans h.bound, (next_ok h.ordered hnext).1.ordered, ?_⟩
  rw [hsent]
  exact hwhole.mono fun _ _ _ h => h.upTo

/-- **An event of the writer leaves what was shipped a part of what a reader sees.** -/
theorem Abreast.wrote {e : Event} (h : Abreast read since batches w p)
    (he : e.KeepsRows (byStream read)) (horder : (w.apply e).InOrder (byStream read)) :
    Abreast read since batches (w.apply e) p := by
  have hon := h.appends.reads_apply he horder
  exact ⟨h.appends.apply he, h.bound, h.ordered, h.ledger.mono fun _ _ _ h => h.readsOn hon⟩

theorem Tailing.abreast (h : Tailing read layout since batches w p) :
    w.InOrder (byStream read) → Abreast read since batches w p := by
  induction h with
  | @opened events p frames faults faults' hkeeps hopen =>
      intro _
      have happends := (appends_create (byStream read) layout).run hkeeps
      obtain ⟨hledger, hsince⟩ := @open_rows read _ _ _ _ _ _ hopen
      refine ⟨happends, hsince, (open_ok hopen).1.ordered, ?_⟩
      rw [List.flatten_singleton]
      exact hledger.mono fun _ _ _ h => h.upTo happends.file
  | @wrote batches w p e _ he ih =>
      intro horder
      have hbefore : w.InOrder (byStream read) := fun x hx =>
        horder x ((log_prefix_apply w e).subset hx)
      exact (ih hbefore).wrote he horder
  | polled _ hnext ih =>
      intro horder
      exact ((ih horder).next hnext).2

theorem Tailing.wroteAll : ∀ {events : List Event} {w : World}, Tailing read layout since batches w p →
    (∀ e ∈ events, e.KeepsRows (byStream read)) → Tailing read layout since batches (w.run events) p
  | [], _, h, _ => h
  | e :: events, _, h, he => @Tailing.wroteAll events _ (h.wrote (he e List.mem_cons_self))
      fun e' he' => he e' (List.mem_cons_of_mem e he')

/-- The batches of a publisher that tails are those of a connection. -/
theorem Tailing.published (h : Tailing read layout since batches w p) :
    ∃ db, Published (some since) batches db p := by
  induction h with
  | opened _ hopen => exact ⟨_, .opened hopen⟩
  | wrote _ _ ih => exact ih
  | polled _ hnext ih =>
      obtain ⟨_, hpublished⟩ := ih
      exact ⟨_, hpublished.polled hnext⟩

end

/-- **Every row is shipped once.** A publisher that is catching up from `since`, and a writer of its
archive that only adds rows at the ends of streams and evicts none: after every call that succeeds
the publisher knows every source of the file, and what it shipped of a stream, over all its calls,
is what a reader of the file sees of it, row for row, but for some of the first rows, all from
before `since`. Nothing was shipped under any other ordinal. This holds whatever was sealed, pruned
or adopted between the calls, whatever failed in the writer and wherever it was killed, as long as
its encoders keep every row and the segments it adopts hold what they are cataloged with. -/
theorem published_rows (read : String → Bytes → List WalRow) (layout : IndexLayout) (since : Int64)
    {batches : List (List Frame)} {w : World} {p p' : ArchivePublisher} {now : Int64}
    {frames : List Frame} {faults faults' : List (Fault StorageFailure)}
    (h : Tailing read layout since batches w p) (horder : w.InOrder (byStream read))
    (hnext : ArchivePublisher.next w.disk.db now p faults = (.ok frames, p', faults')) :
    (∀ id ∈ w.disk.db.sources.keys, ∃ c ∈ p'.sources, c.source_id = id) ∧
      (∀ c ∈ p'.sources, ∀ stream, ∃ skipped,
        w.disk.db.readerRows (byStream read) c.source_id stream =
          skipped ++ streamRows read c.ordinal stream (batches ++ [frames]).flatten ∧
        ∀ r ∈ skipped, r.ts < since) ∧
      ∀ o, (∀ c ∈ p'.sources, c.ordinal ≠ o) → ∀ stream,
        streamRows read o stream (batches ++ [frames]).flatten = [] := by
  obtain ⟨hledger, -⟩ := (h.abreast horder).next hnext
  obtain ⟨db, hpublished⟩ := h.published
  have hconnected := published_connected (hpublished.polled hnext)
  refine ⟨fun id hid => ?_, fun c hc stream => (hledger.known c hc stream).2, hledger.silent⟩
  rw [← map_readSources, List.mem_map] at hid
  obtain ⟨rec, hrec, rfl⟩ := hid
  exact List.mem_map.mp (hconnected.complete rec hrec)

/-- A call that succeeds is one more batch. -/
theorem Tailing.next_of_isOk {read : String → Bytes → List WalRow} {layout : IndexLayout}
    {since : Int64} {batches : List (List Frame)} {w : World} {p : ArchivePublisher} {now : Int64}
    {faults : List (Fault StorageFailure)} (h : Tailing read layout since batches w p)
    (hok : (ArchivePublisher.next w.disk.db now p faults).1.isOk = true) :
    ∃ frames p' faults', ArchivePublisher.next w.disk.db now p faults = (.ok frames, p', faults') ∧
      p' = (ArchivePublisher.next w.disk.db now p faults).2.1 ∧
      Tailing read layout since (batches ++ [frames]) w p' := by
  rcases hnext : ArchivePublisher.next w.disk.db now p faults with ⟨frames | e | -, p', faults'⟩
  · exact ⟨frames, p', faults', rfl, rfl, h.polled hnext⟩
  · rw [hnext] at hok
    exact absurd hok (by simp [Outcome.isOk])
  · rw [hnext] at hok
    exact absurd hok (by simp [Outcome.isOk])

/-- A file that was just created, and a publisher that was opened on it. -/
def justOpened : ArchivePublisher :=
  (ArchivePublisher.open_ (World.create .table).disk.db (some Int64.minValue)
    (.unopened (some Int64.minValue)) []).2.1

theorem tailing_justOpened (read : String → Bytes → List WalRow) :
    Tailing read .table Int64.minValue [[]] (World.create .table) justOpened :=
  @Tailing.opened read .table Int64.minValue [] justOpened [] [] [] nofun rfl

theorem tailing_killedSeal : Tailing (fun _ _ => [killedRow]) .table Int64.minValue [[]]
    ((World.create .table).run ((killedSeal killedRow).take 2)) justOpened :=
  (tailing_justOpened _).wroteAll fun e he => keeps_killedSeal e (List.mem_of_mem_take he)

theorem run_killedSeal : ((World.create .table).run ((killedSeal killedRow).take 2)).run
    ((killedSeal killedRow).drop 2) = (World.create .table).run (killedSeal killedRow) := by
  unfold World.run
  rw [← List.foldl_append, List.take_append_drop]

/-- A row that is shipped while it is live, and then sealed by a writer that is killed before it
prunes the row. -/
theorem published_rows_killedSeal : ∃ batches p frames p' faults',
    ArchivePublisher.next ((World.create .table).run (killedSeal killedRow)).disk.db 0 p [] =
        (.ok frames, p', faults') ∧
      ∃ c ∈ p'.sources, c.source_id = 1 ∧ streamRows (fun _ _ => [killedRow]) c.ordinal "cpu"
        (batches ++ [frames]).flatten = [killedRow] := by
  -- the row is shipped before it is sealed, and a call follows the reopening
  obtain ⟨frames, p, _, -, hp, htail⟩ := @Tailing.next_of_isOk _ _ _ _ _ _ 0 [] tailing_killedSeal
    (by decide +kernel)
  have hrest := @Tailing.wroteAll _ _ _ _ _ ((killedSeal killedRow).drop 2) _ htail fun e he =>
    keeps_killedSeal e (List.mem_of_mem_drop he)
  rw [run_killedSeal] at hrest
  obtain ⟨frames', p', faults', hnext, -, -⟩ := @Tailing.next_of_isOk _ _ _ _ _ _ 0 [] hrest
    (by rw [hp]; decide +kernel)
  obtain ⟨hknown, hrows, -⟩ := published_rows _ _ _ hrest inOrder_killedSeal hnext
  obtain ⟨c, hc, hid⟩ := hknown 1 (by decide +kernel)
  refine ⟨[[]] ++ [frames], p, frames', p', faults', hnext, c, hc, hid, ?_⟩
  obtain ⟨skipped, hsplit, hskipped⟩ := hrows c hc "cpu"
  have hnone : skipped = [] := List.eq_nil_iff_forall_not_mem.mpr fun r hr =>
    absurd (hskipped r hr) (not_lt.mpr (Int64.minValue_le r.ts))
  rw [hnone, List.nil_append, hid] at hsplit
  rw [← hsplit]
  decide +kernel

end Dendro.Replicate
