import Dendro.Archive.Verify
import Dendro.Writer.World

/-!
# What verify finds in a writer's archive

A row may be in a segment and in the WAL at once: the seal's prune comes after its commit, and
a kill or a failure can fall between the two. Such a row is shadowed, so no read path returns
it twice, and its segment returns it once.

The walk of `verify` counts it as a row that no read path can reach. Of an archive that the
writer left behind this is all it ever finds (`alarms_are_false`), and it finds nothing once
every stream's last seal was followed by its prune (`verify_raises_no_alarm`).
-/

namespace Dendro

open Spans

/-! ## Shadowed rows are sealed rows -/

section

variable {env : Env} {msg : Msg} {k : StreamKey} {s s' : StreamState} {dec : Decoder}

/-- Every row of the WAL is live or in a segment. -/
def StreamState.Readable (dec : Decoder) (k : StreamKey) (s : StreamState) : Prop :=
  ∀ e ∈ s.wal.entries, beyond s.watermark e.1 = true ∨
    Archive.toWalRow (ofLex k).2 e.1 e.2 ∈ sealedRows dec k s.catalog.values

/-- A row that is live before its segments grow is live after it, or in a new segment. -/
theorem readable_extend {catalog : OrdMap Nat SegmentCols} {new : List SegmentCols} {n : Nat}
    {known : Option Int64} (hvalues : catalog.values = s.catalog.values ++ new)
    (h : s.Readable dec k) (hnew : ∀ e ∈ s.wal.entries, beyond s.watermark e.1 = true →
      (∀ c ∈ new, c.last < e.1) ∨ Archive.toWalRow (ofLex k).2 e.1 e.2 ∈ sealedRows dec k new) :
    ({ s with catalog, next := n, known } : StreamState).Readable dec k := by
  intro e he
  show beyond (newest SegmentCols.last catalog.values) e.1 = true ∨ _ ∈ sealedRows dec k catalog.values
  rw [hvalues, sealedRows_append, List.mem_append]
  rcases h e he with hlive | hsealed
  · rcases hnew e he hlive with hpast | hin
    · refine .inl (beyond_newest.mpr fun c hc => ?_)
      rcases List.mem_append.mp hc with hc | hc
      · exact beyond_newest.mp hlive c hc
      · exact hpast c hc
    · exact .inr (.inr hin)
  · exact .inr (.inl hsealed)

/-- **Every step of a stream keeps its WAL rows readable.** -/
theorem readable_step {e : Effect} (hs : StreamStep env msg k e s s') (hinv : StreamInv s)
    (hh : ∀ c ∈ s.catalog.values, Holds dec k c) (hk : KeepsEveryRow dec env.encoder)
    (h : s.Readable dec k) : s'.Readable dec k := by
  cases hs with
  | same => exact h
  | @rows _ rows wal hrows hwal =>
      intro x hx
      rcases List.mem_append.mp (hwal.subset hx) with hnew | hold
      · obtain ⟨r, hr, rfl⟩ := List.mem_map.mp hnew
        exact .inl (beyond_newest.mpr (hinv.beyond (hrows r hr).2))
      · exact h x hold
  | prune => exact fun x hx => h x (List.mem_filter.mp hx).1
  | @cut _ cutoff_ts =>
      intro x hx
      obtain ⟨hx, hkept⟩ := List.mem_filter.mp hx
      have hle : cutoff_ts ≤ x.1 := by simpa using hkept
      have hvalues := OrdMap.values_filter_value s.catalog fun c => !decide (c.last < cutoff_ts)
      show beyond (newest SegmentCols.last _) x.1 = true ∨ _ ∈ sealedRows dec k _
      rw [hvalues, beyond_newest_filter hle]
      refine (h x hx).imp_right fun hsealed => ?_
      obtain ⟨c, hc, hrow⟩ := List.mem_flatMap.mp hsealed
      -- the segment reaches the row, and the row is not before the cutoff
      have hreach : x.1 ≤ c.last := ((hh c hc).2 _ hrow).2
      have hnot : ¬c.last < cutoff_ts := not_lt.mpr (hle.trans hreach)
      exact List.mem_flatMap.mpr ⟨c, List.mem_filter.mpr ⟨hc, by simpa using hnot⟩, hrow⟩
  | @sealed _ uuid init tail layout hseal =>
      obtain ⟨hrows, -⟩ := @seal_takes_live env k _ dec uuid (init ++ [tail]) layout hk (by simp) hseal
      refine readable_extend (values_insertAll_parts hinv.seq layout (init ++ [tail])) h
        fun x hx hlive => .inr ?_
      rw [hrows]
      exact mem_liveRows.mpr ⟨rfl, hx, beyond_newest.mp hlive⟩
  | @adopted _ segment layout hmsg hstream hrows hspan hpast hlive =>
      refine readable_extend (OrdMap.values_insert_of_lt _ hinv.seq) h fun x hx hb => .inl ?_
      intro c hc
      rw [List.mem_singleton.mp hc]
      refine hlive x.1 (List.mem_map.mpr ⟨x, ?_, rfl⟩)
      exact List.mem_filter.mpr ⟨hx, hb⟩

end

/-! ## Seals that wait for their prune -/

/-- The streams whose last committed seal waits for its prune. -/
def Write.waits (a : Archive) (w : Write) (ks : List StreamKey) : List StreamKey :=
  match w with
  | .seal source_id _ encoded _ => ks ++ encoded.map fun e => streamKey source_id e.stream
  | .pruneWal source_id stream upto_ts =>
    ks.filter fun k => !(k = streamKey source_id stream && a.watermark k = some upto_ts)
  | _ => ks

/-- The streams that wait for a prune after some transactions. -/
def waiting (log : List (Archive × Write)) : List StreamKey :=
  log.foldl (fun ks e => e.2.waits e.1 ks) []

theorem waiting_append (log : List (Archive × Write)) (a : Archive) (w : Write) :
    waiting (log ++ [(a, w)]) = w.waits a (waiting log) := by
  rw [waiting, List.foldl_append]
  rfl

section

variable {env : Env} {msg : Msg} {k : StreamKey} {s s' : WriterState}

/-- A stream that waits for no prune has only live rows. -/
def Settled (d : Disk) (k : StreamKey) : Prop := k ∉ waiting d.log → Archive.AllLive d.db k

theorem Archive.AllLive.of_same {a a' : Archive} (h : Archive.AllLive a k)
    (hs : Archive.Same a a' k) : Archive.AllLive a' k := by
  intro ts hts
  rw [hs.wal] at hts
  have hlive := h ts hts
  rwa [Archive.isLive_eq, Archive.watermark, hs.catalog, ← Archive.watermark, ← Archive.isLive_eq]

/-- A transaction that leaves the list and the stream alone. -/
theorem settled_run {w : Write} (h : Settled s.disk k) (hw : ∀ ks, w.waits s.db ks = ks)
    (hlive : ∀ db, w.apply s.db = .ok db → Archive.AllLive s.db k → Archive.AllLive db k) :
    Settled (s.run w).disk k := by
  rcases ha : w.apply s.db with e | db
  · rw [run_of_error ha]
    exact h
  · rw [run_of_ok ha]
    intro hnot
    rw [waiting_append, hw] at hnot
    exact hlive db ha (h hnot)

theorem allLive_cut {a a' : Archive} {cutoff_ts : Int64} (hcut : Archive.CutAt a a' k cutoff_ts)
    (h : Archive.AllLive a k) : Archive.AllLive a' k := by
  intro ts hts
  rw [hcut.wal] at hts
  obtain ⟨c, hc⟩ := OrdMap.mem_keys.mp hts
  obtain ⟨hc, hkept⟩ := OrdMap.get?_filter_eq_some.mp hc
  have hle : cutoff_ts ≤ ts := by simpa using hkept
  have hlive := h ts (OrdMap.mem_keys.mpr ⟨c, hc⟩)
  rw [Archive.isLive_iff] at hlive ⊢
  intro seg hseg
  rw [Archive.runs, hcut.catalog, OrdMap.values_filter_value _ fun c : SegmentCols =>
    !decide (c.last < cutoff_ts)] at hseg
  exact hlive seg (List.mem_filter.mp hseg).1

/-- A prune up to the watermark leaves only live rows. -/
theorem allLive_prune {source_id : Int} {stream : String} {w : Int64}
    (hw : s.db.watermark (streamKey source_id stream) = some w) :
    Archive.AllLive (s.db.pruneWal source_id stream w) (streamKey source_id stream) := by
  intro ts hts
  rw [Archive.pruneWal_wal] at hts
  obtain ⟨c, hc⟩ := OrdMap.mem_keys.mp hts
  have hkept : w < ts := by simpa using (OrdMap.get?_filter_eq_some.mp hc).2
  have hsame : (s.db.pruneWal source_id stream w).watermark (streamKey source_id stream) = some w := hw
  rw [Archive.isLive_eq, hsame]
  exact beyond_some.mpr hkept

/-- **Every step keeps the streams settled.** -/
theorem settled_step (hs : WriterStep env msg s s') (hinv : StreamInv (s.stream k))
    (h : Settled s.disk k) : Settled s'.disk k := by
  cases hs with
  | memory => exact h
  | resumed => exact h
  | @beside w hw =>
      refine settled_run h (fun ks => ?_) fun db hdb hlive => hlive.of_same (w.beside_same hw hdb k)
      cases w <;> first | rfl | exact absurd hw (by simp [Write.beside])
  | @walRows asked ticks _ _ _ hlive =>
      refine settled_run h (fun _ => rfl) fun db hdb hall ts hts => ?_
      have happ := Archive.appended_insertWalRowsBatch hdb
      have hcat : db.catalog k = s.db.catalog k := by rw [happ.frame]; rfl
      have hwater : db.isLive k ts = s.db.isLive k ts := by
        rw [Archive.isLive, Archive.isLive, Archive.watermark, hcat, ← Archive.watermark]
      rw [hwater]
      obtain ⟨e, he, rfl⟩ := List.mem_map.mp hts
      rcases List.mem_append.mp ((happ.wal k).subset he) with hnew | hold
      · -- a row that was admitted is past what the thread knows
        obtain ⟨r, hr, rfl⟩ := List.mem_map.mp hnew
        obtain ⟨t, ht, hr⟩ := List.mem_flatMap.mp hr
        obtain ⟨hrt, hk⟩ := List.mem_filter.mp hr
        obtain rfl : streamKey t.1 r.stream = k := by simpa using hk
        have hpast : beyond (s.stream (streamKey t.1 r.stream)).known r.ts = true :=
          beyond_of_not_shadows (hlive t ht r hrt)
        exact Archive.isLive_iff.mpr (hinv.beyond hpast)
      · exact hall e.1 (List.mem_map.mpr ⟨e, hold, rfl⟩)
  | @prune source_id stream upto_ts w hw hle =>
      intro hnot
      have hdb : (Write.pruneWal source_id stream upto_ts).apply s.db = .ok _ := rfl
      rw [run_of_ok hdb] at hnot ⊢
      rw [waiting_append, Write.waits, List.mem_filter, not_and] at hnot
      by_cases hk : streamKey source_id stream = k
      · subst hk
        by_cases hupto : s.db.watermark (streamKey source_id stream) = some upto_ts
        · exact allLive_prune hupto
        · have hlive := h fun hmem => hnot hmem (by simp [hupto])
          intro ts hts
          rw [Archive.pruneWal_wal] at hts
          obtain ⟨c, hc⟩ := OrdMap.mem_keys.mp hts
          exact hlive ts (OrdMap.mem_keys.mpr ⟨c, (OrdMap.get?_filter_eq_some.mp hc).1⟩)
      · refine (h fun hmem => hnot hmem ?_).of_same (Archive.pruneWal_same hk)
        simp [Ne.symm hk]
  | evict source_id cutoff_ts floor names =>
      refine settled_run h (fun _ => rfl) fun db hdb hlive => ?_
      obtain rfl := Except.ok.inj hdb
      by_cases hk : (ofLex k).1 = source_id
      · exact allLive_cut (Archive.evict_cut hk) hlive
      · exact hlive.of_same (Archive.evict_same hk)
  | evictStreams source_id cutoff_ts floor streams =>
      refine settled_run h (fun _ => rfl) fun db hdb hlive => ?_
      obtain rfl := Except.ok.inj hdb
      by_cases hk : k ∈ streams.map (streamKey source_id)
      · exact allLive_cut (Archive.evictStreams_cut.1 hk) hlive
      · exact hlive.of_same (Archive.evictStreams_cut.2 hk)
  | @sealed source_id batch encoded parts observation db _ plan _ hdb =>
      intro hnot
      rw [run_of_ok hdb] at hnot ⊢
      rw [waiting_append, Write.waits, List.mem_append, not_or] at hnot
      obtain ⟨b, hsealed, hsame⟩ := seal_apply_ok hdb
      -- a stream that none of the segments is of
      have hnil : Archive.entries s.db.layout source_id encoded k = [] := by
        refine List.map_eq_nil_iff.mpr (List.filter_eq_nil_iff.mpr fun e he hk => hnot.2 ?_)
        exact of_decide_eq_true hk ▸ List.mem_map_of_mem he
      have hcat : b.catalog k = s.db.catalog k := by rw [hsealed.catalog, hnil]; rfl
      have hwal : b.walOf k = s.db.walOf k := by rw [hsealed.frame]; rfl
      exact (h hnot.1).of_same (Archive.Same.trans ⟨hcat, hwal⟩ (hsame k))
  | sealRefused _ plan he =>
      rw [run_of_error he]
      exact h
  | @adopted source_id segment db hmsg plan hdb =>
      intro hnot
      have hlive : Archive.AllLive s.db k := by
        refine h fun hmem => hnot ?_
        rw [run_of_ok hdb, waiting_append]
        exact hmem
      rw [run_of_ok hdb]
      have hframe := (Archive.insertSegment_ok hdb).2
      have hwal : db.walOf k = s.db.walOf k := by rw [hframe]; rfl
      by_cases hk : streamKey source_id segment.stream = k
      · subst hk
        intro ts hts
        have hts' : ts ∈ (s.db.live (streamKey source_id segment.stream)).keys := by
          rw [hwal] at hts
          obtain ⟨c, hc⟩ := OrdMap.mem_keys.mp hts
          exact OrdMap.mem_keys.mpr ⟨c, OrdMap.get?_filter_eq_some.mpr ⟨hc, hlive ts hts⟩⟩
        have hpast := plan.lt_live hts'
        rw [hwal] at hts
        have hold := Archive.isLive_iff.mp (hlive ts hts)
        refine Archive.isLive_iff.mpr fun c hc => ?_
        have hcat : db.catalog (streamKey source_id segment.stream) = _ :=
          (congrArg (fun a : Archive => a.catalog _) hframe).trans (OrdMap.group_insert_self _ _ _ _)
        rw [Archive.runs, hcat] at hc
        obtain ⟨x, hx, rfl⟩ := List.mem_map.mp hc
        rcases OrdMap.mem_insert.mp hx with rfl | ⟨-, hx⟩
        · exact hpast
        · exact hold x.2 (List.mem_map.mpr ⟨x, hx, rfl⟩)
      · refine hlive.of_same ⟨?_, hwal⟩
        exact (congrArg (fun a : Archive => a.catalog k) hframe).trans
          (OrdMap.group_insert_ne _ _ _ (Ne.symm hk))
  | adoptRefused hmsg plan he =>
      rw [run_of_error he]
      exact h

end

/-! ## Every run -/

/-- A thread that leaves every stream in order and settled. -/
structure Tidy (s : WriterState) : Prop where
  inv : ∀ k, StreamInv (s.stream k)
  settled : ∀ k, Settled s.disk k

theorem tidy_invariant : Invariant (fun _ _ => True)
    (fun d => ∀ k, Layout (d.db.runs k) ∧ Settled d k) Tidy where
  seed d hd := ⟨fun k => streamInv_seed (hd k).1, fun k => (hd k).2⟩
  disk s hs k := ⟨(hs.inv k).layout, hs.settled k⟩
  beat := trivial
  step := by
    intro env msg s s' _ hstep h
    refine ⟨fun k => ?_, fun k => settled_step hstep (h.inv k) (h.settled k)⟩
    rcases hstep.stream k with ⟨-, hk⟩ | ⟨w, -, hk⟩
    · exact (h.inv k).step hk
    · exact (h.inv k).step hk

/-- What a file holds whose encoders kept every row. -/
structure Kept (dec : Decoder) (d : Disk) (k : StreamKey) : Prop where
  layout : Layout (d.db.runs k)
  holds : ∀ c ∈ d.db.runs k, Holds dec k c
  readable : (streamState d.db (.seed d.db) k).Readable dec k

theorem kept_invariant (dec : Decoder) :
    Invariant (fun env msg => KeepsEveryRow dec env.encoder ∧ msg.Truthful dec)
      (fun d => ∀ k, Kept dec d k)
      (fun s => ∀ k, StreamInv (s.stream k) ∧ Kept dec s.disk k) where
  seed d hd k := ⟨streamInv_seed (hd k).layout, hd k⟩
  disk s hs k := (hs k).2
  beat := ⟨idle_keeps dec, trivial⟩
  step := by
    rintro env msg s s' ⟨hk, hm⟩ hstep h k
    obtain ⟨hinv, hkept⟩ := h k
    have hstream : ∃ e, StreamStep env msg k e (s.stream k) (s'.stream k) := by
      rcases hstep.stream k with ⟨-, hs⟩ | ⟨w, -, hs⟩
      · exact ⟨_, hs⟩
      · exact ⟨_, hs⟩
    obtain ⟨e, hs⟩ := hstream
    have hinv' := hinv.step hs
    have hread : (s'.stream k).Readable dec k := readable_step hs hinv hkept.holds hk hkept.readable
    exact ⟨hinv', hinv'.layout, (view_step hs hinv hkept.holds hk hm).2, hread⟩

/-- A stream that the archive does not list has no rows. -/
theorem allLive_of_not_mem {a : Archive} {source_id : Int} {stream : String}
    (h : stream ∉ a.allStreams source_id) : Archive.AllLive a (streamKey source_id stream) := by
  intro ts hts
  obtain ⟨c, hc⟩ := OrdMap.mem_keys.mp hts
  exact absurd hc ((Archive.of_not_mem_allStreams h).2 ts c)

/-- **The walk finds nothing iff every row is past its stream's newest segment.** -/
theorem catalogWalk_sound_iff {a : Archive} (h : ∀ k, Layout (a.runs k)) :
    a.catalogWalk.problems = [] ↔
      ∀ source_id ∈ a.sources.keys, ∀ stream, Archive.AllLive a (streamKey source_id stream) := by
  have hstream : ∀ source_id stream, a.walkStream source_id stream = [] ↔
      Archive.AllLive a (streamKey source_id stream) := by
    intro source_id stream
    rw [Archive.walkStream_eq (h _)]
    have hiff := @Archive.liveWalSpan_lt_iff a source_id stream
    by_cases hlt : (a.liveWalSpan source_id stream).rows < a.totalWalRows source_id stream
    · rw [if_pos hlt]
      exact iff_of_false (by simp) (hiff.mp hlt)
    · rw [if_neg hlt]
      exact iff_of_true rfl (not_not.mp fun hno => hlt (hiff.mpr hno))
  have hsource : ∀ source_id, source_id ∈ a.sources.keys ↔ ∃ src ∈ a.readSources, src.id = source_id := by
    intro source_id
    unfold Archive.readSources OrdMap.keys
    simp
  constructor
  · intro hnone source_id hid stream
    by_cases hlisted : stream ∈ a.allStreams source_id
    · obtain ⟨src, hsrc, rfl⟩ := (hsource source_id).mp hid
      refine (hstream src.id stream).mp (List.flatMap_eq_nil_iff.mp hnone (src.id, stream) ?_)
      exact List.mem_flatMap.mpr ⟨src, hsrc, List.mem_map.mpr ⟨stream, hlisted, rfl⟩⟩
    · exact allLive_of_not_mem hlisted
  · intro hall
    refine List.flatMap_eq_nil_iff.mpr fun s hs => ?_
    obtain ⟨src, hsrc, hs⟩ := List.mem_flatMap.mp hs
    obtain ⟨stream, -, rfl⟩ := List.mem_map.mp hs
    exact (hstream src.id stream).mpr (hall src.id ((hsource src.id).mpr ⟨src, hsrc, rfl⟩) stream)

/-- In laid-out streams the walk finds only rows that it takes for unreadable. -/
theorem catalogWalk_problem {a : Archive} (h : ∀ k, Layout (a.runs k)) {p : Problem}
    (hp : p ∈ a.catalogWalk.problems) :
    ∃ source_id stream rows, p = .unreadableWalRows source_id stream rows := by
  obtain ⟨s, -, hp⟩ := List.mem_flatMap.mp hp
  rw [Archive.walkStream_eq (h _)] at hp
  split at hp
  · exact ⟨s.1, s.2, _, List.mem_singleton.mp hp⟩
  · exact absurd hp List.not_mem_nil

/-- **When verify raises an alarm.** In every state the writer can leave behind, the walk
finds nothing unless some stream's last committed seal still waits for its prune; it finds
nothing just when every row is past its stream's newest segment; and if the encoders kept
every row, a row that it takes for unreadable is one that a reader gets. -/
theorem verify_raises_no_alarm (layout : IndexLayout) (events : List Event) :
    let w := (World.create layout).run events
    (waiting w.disk.log = [] → w.disk.db.catalogWalk.problems = []) ∧
    (w.disk.db.catalogWalk.problems = [] ↔ ∀ source_id ∈ w.disk.db.sources.keys, ∀ stream,
      Archive.AllLive w.disk.db (streamKey source_id stream)) ∧
    ∀ p ∈ w.disk.db.catalogWalk.problems, ∃ source_id stream rows,
      p = .unreadableWalRows source_id stream rows ∧
      ∀ dec, (∀ e ∈ events, e.KeepsRows dec) → ∀ r ∈ w.disk.db.readWal source_id stream,
        r ∈ w.disk.db.readerRows dec source_id stream := by
  intro w
  have hlayout : ∀ k, Layout ((Archive.create layout).runs k) := fun k =>
    ⟨fun c hc => absurd hc (List.not_mem_nil), .nil⟩
  have hempty : ∀ k, (Archive.create layout).walOf k = ∅ := fun k => rfl
  have htidy : w.Kept (fun d => ∀ k, Layout (d.db.runs k) ∧ Settled d k) Tidy := by
    have hcreate : ∀ k, Layout ((Archive.create layout).runs k) ∧ Settled (.create layout) k :=
      fun k => ⟨hlayout k, fun _ ts hts => absurd hts List.not_mem_nil⟩
    refine tidy_invariant.run ⟨hcreate, fun m hm => ?_⟩ fun e _ => by cases e <;> trivial
    obtain rfl := Option.some.inj hm
    exact tidy_invariant.seed _ hcreate
  have hlaid : ∀ k, Layout (w.disk.db.runs k) := fun k => (htidy.disk k).1
  refine ⟨fun hwaiting => ?_, catalogWalk_sound_iff hlaid, fun p hp => ?_⟩
  · refine (catalogWalk_sound_iff hlaid).mpr fun source_id _ stream => ?_
    exact (htidy.disk _).2 (by rw [hwaiting]; exact List.not_mem_nil)
  · obtain ⟨source_id, stream, rows, rfl⟩ := catalogWalk_problem hlaid hp
    refine ⟨source_id, stream, rows, rfl, fun dec hkeeps r hr => ?_⟩
    have hkept : w.Kept (fun d => ∀ k, Kept dec d k)
        (fun s => ∀ k, StreamInv (s.stream k) ∧ Kept dec s.disk k) := by
      have hcreate : ∀ k, Kept dec (.create layout) k := fun k =>
        ⟨hlayout k, fun c hc => absurd hc List.not_mem_nil, fun e he => absurd he List.not_mem_nil⟩
      refine (kept_invariant dec).run ⟨hcreate, fun m hm => ?_⟩ fun e he => ?_
      · obtain rfl := Option.some.inj hm
        exact (kept_invariant dec).seed _ hcreate
      · have := hkeeps e he
        cases e with
        | message => exact this
        | _ => trivial
    obtain ⟨e, he, rfl⟩ := List.mem_map.mp hr
    rw [← view_eq w.disk.db (.seed w.disk.db)]
    rcases (hkept.disk (streamKey source_id stream)).readable e he with hlive | hsealed
    · refine List.mem_append.mpr (.inr (List.mem_map.mpr ⟨e, List.mem_filter.mpr ⟨he, hlive⟩, rfl⟩))
    · exact List.mem_append.mpr (.inl hsealed)

/-- A seal killed before its prune, and a later seal of the reopened archive that is pruned. -/
def killedThenPruned (r later : WalRow) : List Event :=
  killedSeal r ++ [.message Env.idle (.wal [(1, [later])]) [],
    .message { Env.idle with encoder := oneRow later } (.seal 1 [r.stream] 10) []]

theorem verify_raises_no_alarm_killedSeal :
    let r : WalRow := { stream := "cpu", ts := 5, wall_offset := 0, row := [1] }
    ((World.create .table).run (killedThenPruned r { r with ts := 6 })).disk.db.catalogWalk.problems =
        [] ∧
      r ∈ ((World.create .table).run (killedSeal r)).disk.db.readerRows (fun _ _ => [r]) 1 "cpu" := by
  intro r
  have hwaiting : waiting ((World.create .table).run
      (killedThenPruned r { r with ts := 6 })).disk.log = [] := by decide +kernel
  have halarm : Problem.unreadableWalRows 1 "cpu" 1 ∈
      ((World.create .table).run (killedSeal r)).disk.db.catalogWalk.problems := by decide +kernel
  have hrow : r ∈ ((World.create .table).run (killedSeal r)).disk.db.readWal 1 "cpu" := by
    decide +kernel
  have hkeeps : ∀ e ∈ killedSeal r, e.KeepsRows (fun _ _ => [r]) := by
    intro e he
    simp only [killedSeal, List.mem_cons, List.not_mem_nil, or_false] at he
    rcases he with rfl | rfl | rfl | rfl
    · exact ⟨oneRow_keeps r, trivial⟩
    · exact ⟨oneRow_keeps r, trivial⟩
    · exact ⟨oneRow_keeps r, trivial⟩
    · trivial
  obtain ⟨hquiet, -, -⟩ := verify_raises_no_alarm .table (killedThenPruned r { r with ts := 6 })
  obtain ⟨-, -, hread⟩ := verify_raises_no_alarm .table (killedSeal r)
  obtain ⟨source_id, stream, rows, hp, hread⟩ := hread _ halarm
  obtain ⟨rfl, rfl, rfl⟩ := Problem.unreadableWalRows.inj hp
  exact ⟨hquiet hwaiting, hread (fun _ _ => [r]) hkeeps r hrow⟩

/-- A seal killed before its prune, and a reopening: the walk reports the row that the segment
holds. -/
theorem sealed_row_alarmed :
    let r : WalRow := { stream := "cpu", ts := 5, wall_offset := 0, row := [1] }
    let a := ((World.create .table).run (killedSeal r)).disk.db
    a.catalogWalk.problems = [.unreadableWalRows 1 "cpu" 1] ∧ a.readWal 1 "cpu" = [r] ∧
      a.readerRows (fun _ _ => [r]) 1 "cpu" = [r] := by
  decide

end Dendro
