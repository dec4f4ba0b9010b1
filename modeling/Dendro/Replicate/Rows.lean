import Dendro.Lib.Deltas
import Dendro.Replicate.Shipping
import Dendro.Writer.Appending

/-!
# What a call ships of the rows

The rows among a call's frames, stream by stream: those of the segments, as a decoder reads their
bytes, and those of the `rows` frames. A turn ships of each stream its segments, if nothing of it
was shipped before, and then the live rows past its cursor; where a stream was sealed past its
cursor the turn gives up instead (`emits_poll_fed`).

The cursor of a stream is the timestamp of a row that a reader saw, and what was shipped is what it
saw up to there, but for rows from before the bound of the opening (`Reached`). As long as rows are
only added at the end of a stream, a turn makes this good for all that a reader sees now
(`Reached.turn`).
-/

namespace Dendro.Replicate

open Dendro

/-- A decoder that reads the segments of a stream alike in every source. -/
def byStream (read : String → Bytes → List WalRow) : Decoder := fun k bytes => read (ofLex k).2 bytes

/-- The rows of one stream of the source `o` that a frame carries. -/
def Frame.rowsOf (read : String → Bytes → List WalRow) (o : UInt32) (stream : String) :
    Frame → List WalRow
  | .segment source name _ bytes _ => if source = o ∧ name = stream then read stream bytes else []
  | .rows source _ _ live => if source = o then live.filter fun r => r.stream = stream else []
  | _ => []

/-- The rows of one stream of the source `o` that some frames carry. -/
def streamRows (read : String → Bytes → List WalRow) (o : UInt32) (stream : String)
    (fs : List Frame) : List WalRow := fs.flatMap (Frame.rowsOf read o stream)

/-- How far a stream was shipped. -/
def SourceCursor.walAfter (c : SourceCursor) (stream : String) : Option Int64 :=
  (c.entry stream).wal_after

section

variable {read : String → Bytes → List WalRow} {o : UInt32} {stream : String}

theorem streamRows_append (fs fs' : List Frame) : streamRows read o stream (fs ++ fs') =
    streamRows read o stream fs ++ streamRows read o stream fs' := List.flatMap_append

/-- A frame of another source carries no row of this one. -/
theorem rowsOf_other {f : Frame} (h : f.source ≠ o) : f.rowsOf read o stream = [] := by
  cases f with
  | segment => exact if_neg fun h' => h h'.1
  | rows => exact if_neg h
  | _ => rfl

theorem streamRows_eq_nil {fs : List Frame} (h : ∀ f ∈ fs, f.rowsOf read o stream = []) :
    streamRows read o stream fs = [] := List.flatMap_eq_nil_iff.mpr h

end

/-! ## Parts of a turn -/

/-- What a part of a call for one source shipped of its rows. -/
structure Feeds (read : String → Bytes → List WalRow) (p p' : Poll)
    (rows : String → List WalRow) : Prop where
  ordinal : p'.1.ordinal = p.1.ordinal
  source_id : p'.1.source_id = p.1.source_id
  fed : ∀ stream, streamRows read p.1.ordinal stream p'.2.frames =
    streamRows read p.1.ordinal stream p.2.frames ++ rows stream
  others : ∀ o, o ≠ p.1.ordinal → ∀ stream,
    streamRows read o stream p'.2.frames = streamRows read o stream p.2.frames

section

variable {read : String → Bytes → List WalRow} {p p' p'' : Poll}
  {rows rows' : String → List WalRow}

theorem Feeds.refl (p : Poll) : Feeds read p p fun _ => [] where
  ordinal := rfl
  source_id := rfl
  fed _ := (List.append_nil _).symm
  others _ _ _ := rfl

theorem Feeds.trans (h : Feeds read p p' rows) (h' : Feeds read p' p'' rows') :
    Feeds read p p'' fun stream => rows stream ++ rows' stream where
  ordinal := h'.ordinal.trans h.ordinal
  source_id := h'.source_id.trans h.source_id
  fed stream := by
    have hfed := h'.fed stream
    rw [h.ordinal] at hfed
    rw [hfed, h.fed, List.append_assoc]
  others o ho stream := by
    have hothers := h'.others o (by rwa [h.ordinal]) stream
    rw [hothers, h.others o ho stream]

theorem Feeds.congr (h : Feeds read p p' rows) (heq : ∀ stream, rows' stream = rows stream) :
    Feeds read p p' rows' := by
  rw [funext heq]
  exact h

/-- Frames of the source were pushed. -/
theorem Feeds.push {c : SourceCursor} {fs : List Frame} {b : Batch}
    (hordinal : c.ordinal = p.1.ordinal) (hid : c.source_id = p.1.source_id)
    (hb : b.frames = p.2.frames ++ fs) (hfs : ∀ f ∈ fs, f.source = p.1.ordinal) :
    Feeds read p (c, b) fun stream => streamRows read p.1.ordinal stream fs where
  ordinal := hordinal
  source_id := hid
  fed stream := by
    rw [hb]
    exact streamRows_append _ _
  others o ho stream := by
    have hnone : streamRows read o stream fs = [] := streamRows_eq_nil fun f hf =>
      rowsOf_other fun h => ho (h.symm.trans (hfs f hf))
    rw [hb, streamRows_append, hnone, List.append_nil]

/-- A part of a call that ships no row, and moves no stream's cursor. -/
structure Idle (read : String → Bytes → List WalRow) (p p' : Poll) : Prop where
  feeds : Feeds read p p' fun _ => []
  walAfter : ∀ stream, p'.1.walAfter stream = p.1.walAfter stream

theorem Idle.refl (p : Poll) : Idle read p p := ⟨.refl p, fun _ => rfl⟩

theorem Idle.trans (h : Idle read p p') (h' : Idle read p' p'') : Idle read p p'' :=
  ⟨h.feeds.trans h'.feeds, fun stream => (h'.walAfter stream).trans (h.walAfter stream)⟩

theorem Idle.push {c : SourceCursor} {fs : List Frame} {b : Batch}
    (hordinal : c.ordinal = p.1.ordinal) (hid : c.source_id = p.1.source_id)
    (hwal : ∀ stream, c.walAfter stream = p.1.walAfter stream)
    (hb : b.frames = p.2.frames ++ fs)
    (hfs : ∀ f ∈ fs, f.source = p.1.ordinal ∧
      ∀ stream, f.rowsOf read p.1.ordinal stream = []) : Idle read p (c, b) := by
  have hfeeds := @Feeds.push read p c fs b hordinal hid hb fun f hf => (hfs f hf).1
  exact ⟨hfeeds.congr fun stream => (streamRows_eq_nil fun f hf => (hfs f hf).2 stream).symm, hwal⟩

theorem walAfter_setEntry (c : SourceCursor) (stream name : String) (e : StreamCursor) :
    (c.setEntry stream e).walAfter name = if name = stream then e.wal_after else c.walAfter name := by
  unfold SourceCursor.walAfter
  rw [entry_setEntry]
  split
  · rfl
  · rfl

theorem walAfter_advance (c : SourceCursor) (stream name : String) (after : Option Int64) :
    (c.advance stream after).walAfter name = if name = stream then after else c.walAfter name :=
  walAfter_setEntry _ _ _ _

/-- Only the entry of a stream was changed, and not how far it was shipped. -/
theorem Idle.setEntry {stream : String} {e : StreamCursor}
    (he : e.wal_after = p.1.walAfter stream) : Idle read p (p.1.setEntry stream e, p.2) := by
  refine .push rfl rfl (fun name => ?_) (List.append_nil _).symm nofun
  rw [walAfter_setEntry]
  split
  · rename_i hname
    rw [he, hname]
  · rfl

theorem Idle.enter (stream : String) (p : Poll) : Idle read p (p.1.enter stream, p.2) :=
  .setEntry rfl

theorem Idle.foldl {α : Type} {g : Poll → α → Poll} (hg : ∀ p a, Idle read p (g p a)) :
    ∀ (as : List α) (p : Poll), Idle read p (as.foldl g p)
  | [], p => .refl p
  | a :: as, p => (hg p a).trans (Idle.foldl hg as (g p a))

theorem idle_pushEntry (stream : String) (p : Poll) (row : CallerRow) :
    Idle read p (pushEntry stream p row) := by
  refine .push rfl rfl (fun _ => rfl) rfl fun f hf => ?_
  rw [List.mem_singleton.mp hf]
  exact ⟨rfl, fun _ => rfl⟩

theorem idle_emitRows (stream : String) (r : Resume) (rows : List CallerRow) (p : Poll) :
    Idle read p (emitRows stream r rows p) := by
  have hentries : Idle read p ((r.unsent rows).foldl (pushEntry stream) p) :=
    Idle.foldl (fun p row => idle_pushEntry stream p row) _ p
  rw [emitRows_eq]
  generalize (r.unsent rows).foldl (pushEntry stream) p = p₁ at hentries
  rcases (rows.foldl Resume.pass r).position with _ | at_
  · exact hentries
  · exact hentries.trans (.setEntry rfl)

theorem keeps_emitIndex_idle {db : Archive} {p₀ : Poll} (start : Int64) (stream : String)
    (h : Idle read p₀ p) : Prog.Keeps (emitIndex db start stream) p (Idle read p₀) := by
  unfold emitIndex
  have hentered := h.trans (.enter stream p)
  refine .update_bind (.state_bind ?_)
  exact keeps_ask hentered (.update (hentered.trans (idle_emitRows stream _ _ _)))

theorem idle_pushOffset (p : Poll) (offset : Int64 × Int64) : Idle read p (pushOffset p offset) := by
  unfold pushOffset
  dsimp only
  split
  · exact .refl p
  · refine .push rfl rfl (fun _ => rfl) rfl fun f hf => ?_
    rw [List.mem_singleton.mp hf]
    exact ⟨rfl, fun _ => rfl⟩

theorem idle_openOffset (since : Int64) (p : Poll) (offset : Int64 × Int64) :
    Idle read p (openOffset (some since) p offset) := by
  unfold openOffset
  dsimp only
  split
  · exact .refl p
  · refine .push rfl rfl (fun _ => rfl) rfl fun f hf => ?_
    rw [List.mem_singleton.mp hf]
    exact ⟨rfl, fun _ => rfl⟩

theorem idle_introduced (rec : SourceRow) (p : Poll) : Idle read p (p.introduced rec) := by
  refine .push rfl rfl (fun _ => rfl) rfl fun f hf => ?_
  rw [List.mem_singleton.mp hf]
  exact ⟨rfl, fun _ => rfl⟩

theorem keeps_updateIdentity_idle (now : Int64) (rec : SourceRow) :
    Prog.Keeps (updateIdentity now rec) p (Idle read p) := by
  have htell : ∀ ts, Prog.Keeps (Prog.update fun p : Poll =>
      ({ p.1 with labels := rec.identity.labels, metadata := rec.identity.metadata },
        { p.2 with polled_at := some ts }.push
          [.sourceUpdate p.1.ordinal ts rec.identity.labels rec.identity.metadata]) :
        PublishM Poll Unit)
      p (Idle read p) := by
    intro ts
    refine .update (.push rfl rfl (fun _ => rfl) rfl fun f hf => ?_)
    rw [List.mem_singleton.mp hf]
    exact ⟨rfl, fun _ => rfl⟩
  unfold updateIdentity
  refine .state_bind ?_
  obtain ⟨c, b⟩ := p
  dsimp only
  split
  · split
    · exact htell _
    · exact keeps_ask (.refl _) (htell now)
  · exact fun _ => .refl _

end

/-! ## The streams of a turn -/

/-- The segments of a stream that are due: all of them, if nothing of it was shipped. -/
def dueSegments (db : Archive) (source_id : Int) (stream : String) (after : Option Int64) :
    List SegmentRow :=
  if after.isNone then db.segmentsOverlapping source_id stream Int64.minValue Int64.maxValue else []

/-- How far a stream is shipped with the segments that are due. -/
def caughtUp (db : Archive) (source_id : Int) (stream : String) (after : Option Int64) :
    Option Int64 := after.or (db.watermark (streamKey source_id stream))

/-- The live rows of a stream past its cursor. -/
def unsentRows (db : Archive) (source_id : Int) (stream : String) (after : Option Int64) :
    List WalRow :=
  (db.liveWal source_id stream).filter fun r => !(caughtUp db source_id stream after).any (r.ts ≤ ·)

/-- The rows of the segments that are due. -/
def dueRows (read : String → Bytes → List WalRow) (db : Archive) (source_id : Int)
    (stream : String) (after : Option Int64) : List WalRow :=
  (dueSegments db source_id stream after).flatMap fun s => read stream s.bytes

/-- How far a turn ships a stream. -/
def movedTo (db : Archive) (source_id : Int) (stream : String) (after : Option Int64) :
    Option Int64 :=
  newestShipped (caughtUp db source_id stream after) (unsentRows db source_id stream after)

/-- Nothing of the stream was sealed past its cursor. -/
def InReach (db : Archive) (source_id : Int) (stream : String) (after : Option Int64) : Prop :=
  ∀ w a, db.watermark (streamKey source_id stream) = some w → after = some a → w ≤ a

section

variable {read : String → Bytes → List WalRow} {db : Archive} {source_id : Int} {stream : String}

/-- A whole window holds every segment. -/
theorem segmentsOverlapping_all : db.segmentsOverlapping source_id stream Int64.minValue
    Int64.maxValue = db.readSegments source_id stream := by
  refine List.filter_eq_self.mpr fun s _ => ?_
  simp [Int64.le_maxValue, Int64.minValue_le]

theorem readSegments_nil (hw : db.watermark (streamKey source_id stream) = none) :
    db.readSegments source_id stream = [] := by
  rw [Archive.watermark_eq, Spans.newest_eq_none] at hw
  unfold Archive.readSegments
  rw [List.map_eq_nil_iff]
  exact List.map_eq_nil_iff.mp hw

theorem dueSegments_none (hw : db.watermark (streamKey source_id stream) = none)
    (after : Option Int64) : dueSegments db source_id stream after = [] := by
  unfold dueSegments
  rw [segmentsOverlapping_all, readSegments_nil hw]
  exact ite_self _

/-- A stream that is not listed has nothing to ship. -/
theorem unlisted (h : stream ∉ db.allStreams source_id) :
    db.watermark (streamKey source_id stream) = none ∧ db.liveWal source_id stream = [] := by
  obtain ⟨hseg, hwal⟩ := Archive.of_not_mem_allStreams h
  constructor
  · rw [Archive.watermark_eq, Spans.newest_eq_none]
    refine List.eq_nil_iff_forall_not_mem.mpr fun c hc => ?_
    obtain ⟨seq, hget⟩ := Archive.mem_runs.mp hc
    exact hseg seq c hget
  · unfold Archive.liveWal Archive.live
    rw [List.map_eq_nil_iff, OrdMap.entries_filter, List.filter_eq_nil_iff]
    rintro ⟨ts, c⟩ he
    exact absurd (OrdMap.get?_eq_some.mpr he) (hwal ts c)

theorem liveWal_sorted (db : Archive) (source_id : Int) (stream : String) :
    (db.liveWal source_id stream).Pairwise fun r r' => r.ts < r'.ts :=
  List.pairwise_map.mpr ((db.live (streamKey source_id stream)).sorted.imp fun h => h)

end

/-- What a turn does with one stream. -/
structure StreamFed (read : String → Bytes → List WalRow) (db : Archive) (stream : String)
    (p : Poll) (rows rows' : List WalRow) (p' : Poll) : Prop where
  returned : rows' = rows ++ unsentRows db p.1.source_id stream (p.1.walAfter stream)
  feeds : Feeds read p p' fun name =>
    if name = stream then dueRows read db p.1.source_id stream (p.1.walAfter stream) else []
  walAfter : ∀ name, p'.1.walAfter name =
    if name = stream then movedTo db p.1.source_id stream (p.1.walAfter stream)
    else p.1.walAfter name
  reach : InReach db p.1.source_id stream (p.1.walAfter stream)

section

variable {read : String → Bytes → List WalRow} {db : Archive} {p : Poll}

/-- The live part of a turn's stream. -/
theorem emits_pollLive (watermark : Option Int64) (rows : List WalRow) (stream : String) :
    Emits (pollLive db watermark rows stream) p fun rows' p' =>
      let after := p.1.walAfter stream
      let unsent := (db.liveWal p.1.source_id stream).filter fun r => !after.any (r.ts ≤ ·)
      (∀ w a, watermark = some w → after = some a → w ≤ a) ∧ rows' = rows ++ unsent ∧
        p' = (p.1.advance stream (newestShipped after unsent), p.2) := by
  have hship : ∀ after : Option Int64, Emits (shipLive db p.1.source_id rows stream after) p
      fun rows' p' =>
        let unsent := (db.liveWal p.1.source_id stream).filter fun r => !after.any (r.ts ≤ ·)
        rows' = rows ++ unsent ∧
          p' = (p.1.advance stream (newestShipped after unsent), p.2) := by
    intro after
    unfold shipLive
    refine emits_ask.bind ?_
    rintro _ _ ⟨rfl, rfl⟩
    refine Prog.Runs.bind (Q := fun _ p' => p' = _) (.update trivial rfl) ?_
    rintro _ _ rfl
    exact .pure ⟨rfl, rfl⟩
  unfold pollLive
  refine emits_state.bind ?_
  intro q q' h
  rw [h.1, h.2]
  dsimp only
  change Emits _ _ fun rows' p' =>
    (∀ w a, watermark = some w → (p.1.entry stream).wal_after = some a → w ≤ a) ∧ _
  split
  · rename_i w a hafter
    split
    · exact Prog.Runs.bind (Q := fun _ _ => False) (.fail trivial) fun _ _ h => h.elim
    · rename_i hle
      refine (hship _).mono (fun rows' p' h => ⟨?_, ?_⟩) fun _ _ h => h
      · intro w' a' hw ha
        rw [hafter] at ha
        rw [← Option.some.inj hw, ← Option.some.inj ha]
        exact not_lt.mp hle
      · exact h
  · rename_i hnone
    refine (hship _).mono (fun rows' p' h => ⟨?_, h⟩) fun _ _ h => h
    intro w a hw ha
    exact absurd ha (hnone w a hw)

/-- **What a turn ships of one stream.** -/
theorem emits_pollStream (rows : List WalRow) (stream : String) :
    Emits (pollStream db db.sealedWatermarks rows stream) p (StreamFed read db stream p rows) := by
  have hwm : ∀ k, db.sealedWatermarks.get? k = db.watermark k := seed_watermarks db
  have hentered := @Idle.enter read stream p
  -- what is left once the segments that are due went out
  have hlive : ∀ p₁ : Poll, p₁.1.source_id = p.1.source_id →
      (Feeds read p p₁ fun name => if name = stream then
        dueRows read db p.1.source_id stream (p.1.walAfter stream) else []) →
      (∀ name, p₁.1.walAfter name = if name = stream then
        caughtUp db p.1.source_id stream (p.1.walAfter stream) else p.1.walAfter name) →
      Emits (pollLive db (db.watermark (streamKey p.1.source_id stream)) rows stream) p₁
        (StreamFed read db stream p rows) := by
    intro p₁ hid hfeeds hwal
    refine (emits_pollLive _ rows stream).mono (fun rows' p' h => ?_) fun _ _ _ => trivial
    dsimp only at h
    rw [hid, hwal stream, if_pos rfl] at h
    obtain ⟨hreach, hrows, rfl⟩ := h
    refine ⟨hrows, ⟨hfeeds.ordinal, hfeeds.source_id, hfeeds.fed, hfeeds.others⟩,
      fun name => ?_, fun w a hw ha => ?_⟩
    · rw [walAfter_advance]
      split
      · rfl
      · rename_i hne
        rw [hwal name, if_neg hne]
    · refine hreach w a hw ?_
      unfold caughtUp
      rw [ha]
      rfl
  unfold pollStream
  refine Prog.Runs.bind (Q := fun _ p' => p' = (p.1.enter stream, p.2)) (.update trivial rfl) ?_
  intro _ q hq
  rw [hq]
  refine emits_state.bind ?_
  intro q q' h
  rw [h.1, h.2]
  dsimp only
  have hafter : ((p.1.enter stream).entry stream).wal_after = p.1.walAfter stream :=
    hentered.walAfter stream
  have hid : (p.1.enter stream).source_id = p.1.source_id := rfl
  rw [hwm, hid, hafter]
  split
  · rename_i w hw hnone
    refine emits_ask.bind ?_
    intro segments q h
    rw [h.1, h.2]
    refine Prog.Runs.bind (Q := fun _ p' => p' = ((p.1.enter stream).advance stream (some w),
      (pushSegments stream (db.segmentsOverlapping p.1.source_id stream Int64.minValue
        Int64.maxValue) (p.1.enter stream, p.2)).2)) (.update trivial rfl) ?_
    intro _ q hq
    rw [hq]
    refine hlive _ rfl ?_ fun name => ?_
    · have hpush := @Feeds.push read (p.1.enter stream, p.2)
        ((p.1.enter stream).advance stream (some w))
        ((db.segmentsOverlapping p.1.source_id stream Int64.minValue Int64.maxValue).map fun s =>
          .segment (p.1.enter stream).ordinal stream s.seg_meta s.bytes s.caller_index)
        (pushSegments stream (db.segmentsOverlapping p.1.source_id stream Int64.minValue
          Int64.maxValue) (p.1.enter stream, p.2)).2 rfl rfl rfl fun f hf => by
            obtain ⟨s, -, rfl⟩ := List.mem_map.mp hf
            rfl
      refine (hentered.feeds.trans hpush).congr fun name => ?_
      rw [hnone, List.nil_append]
      unfold dueRows dueSegments streamRows
      rw [List.flatMap_map]
      by_cases hname : name = stream
      · subst hname
        have hord : (p.1.enter name).ordinal = p.1.ordinal := rfl
        simp [Frame.rowsOf, hord]
      · simp [Frame.rowsOf, hname, Ne.symm hname]
    · rw [walAfter_advance]
      split
      · rw [hnone, caughtUp, Option.none_or, hw]
      · exact hentered.walAfter name
  · rename_i hnot
    -- nothing is due: something was shipped, or nothing is sealed
    have hdue : dueSegments db p.1.source_id stream (p.1.walAfter stream) = [] ∧
        caughtUp db p.1.source_id stream (p.1.walAfter stream) = p.1.walAfter stream := by
      rcases hcur : p.1.walAfter stream with _ | a
      · rcases hw : db.watermark (streamKey p.1.source_id stream) with _ | w
        · exact ⟨dueSegments_none hw _, by rw [caughtUp, hw]; rfl⟩
        · exact absurd hcur (hnot w hw)
      · exact ⟨rfl, rfl⟩
    refine hlive _ rfl (hentered.feeds.congr fun name => ?_) fun name => ?_
    · unfold dueRows
      rw [hdue.1]
      exact ite_self _
    · rw [hdue.2]
      split
      · rename_i hname
        rw [hname]
        exact hentered.walAfter stream
      · exact hentered.walAfter name

/-- What a turn does with some of its streams. -/
structure StreamsFed (read : String → Bytes → List WalRow) (db : Archive) (streams : List String)
    (p : Poll) (rows rows' : List WalRow) (p' : Poll) : Prop where
  returned : ∀ name, (rows'.filter fun r => r.stream = name) =
    (rows.filter fun r => r.stream = name) ++
      if name ∈ streams then unsentRows db p.1.source_id name (p.1.walAfter name) else []
  feeds : Feeds read p p' fun name =>
    if name ∈ streams then dueRows read db p.1.source_id name (p.1.walAfter name) else []
  walAfter : ∀ name, p'.1.walAfter name =
    if name ∈ streams then movedTo db p.1.source_id name (p.1.walAfter name)
    else p.1.walAfter name
  reach : ∀ name ∈ streams, InReach db p.1.source_id name (p.1.walAfter name)

theorem unsentRows_stream (db : Archive) (source_id : Int) (stream name : String)
    (after : Option Int64) : ((unsentRows db source_id stream after).filter fun r =>
      r.stream = name) = if name = stream then unsentRows db source_id stream after else [] := by
  have hall : ∀ r ∈ unsentRows db source_id stream after, r.stream = stream := fun r hr =>
    liveWal_stream (List.mem_filter.mp hr).1
  split
  · rename_i hname
    exact List.filter_eq_self.mpr fun r hr => by simpa [hname] using hall r hr
  · rename_i hname
    refine List.filter_eq_nil_iff.mpr fun r hr => ?_
    rw [hall r hr]
    simpa using Ne.symm hname

theorem StreamsFed.cons {streams : List String} {stream : String} {rows rows₁ rows' : List WalRow}
    {p₁ p' : Poll} (hnew : stream ∉ streams) (h : StreamFed read db stream p rows rows₁ p₁)
    (h' : StreamsFed read db streams p₁ rows₁ rows' p') :
    StreamsFed read db (stream :: streams) p rows rows' p' := by
  have hid := h.feeds.source_id
  have hsame : ∀ name ∈ streams, p₁.1.walAfter name = p.1.walAfter name := by
    intro name hname
    have hne : name ≠ stream := by
      rintro rfl
      exact hnew hname
    rw [h.walAfter, if_neg hne]
  refine ⟨fun name => ?_, (h.feeds.trans h'.feeds).congr fun name => ?_, fun name => ?_,
    fun name hname => ?_⟩
  · rw [h'.returned, h.returned, List.filter_append, unsentRows_stream, hid]
    by_cases hname : name = stream
    · subst hname
      simp [hnew]
    · by_cases hmem : name ∈ streams
      · simp [hname, hmem, hsame name hmem]
      · simp [hname, hmem]
  · rw [hid]
    by_cases hname : name = stream
    · subst hname
      simp [hnew]
    · by_cases hmem : name ∈ streams
      · simp [hname, hmem, hsame name hmem]
      · simp [hname, hmem]
  · rw [h'.walAfter, hid]
    by_cases hname : name = stream
    · subst hname
      simp [hnew, h.walAfter]
    · by_cases hmem : name ∈ streams
      · simp [hname, hmem, hsame name hmem]
      · simp [hname, hmem, h.walAfter]
  · rcases List.mem_cons.mp hname with rfl | hname
    · exact h.reach
    · have hreach := h'.reach name hname
      rw [hid, hsame name hname] at hreach
      exact hreach

theorem emits_pollStreams : ∀ {streams : List String} (rows : List WalRow) (p : Poll),
    streams.Nodup → Emits (Prog.foldEach (pollStream db db.sealedWatermarks) rows streams) p
      (StreamsFed read db streams p rows)
  | [], rows, p, _ => by
      refine .pure ⟨fun name => ?_, (Feeds.refl p).congr fun name => ?_, fun name => ?_, nofun⟩
      · simp
      · simp
      · simp
  | stream :: streams, rows, p, hnodup => by
      obtain ⟨hnew, hnodup⟩ := List.nodup_cons.mp hnodup
      refine (@emits_pollStream read db p rows stream).bind fun rows₁ p₁ h₁ => ?_
      exact (emits_pollStreams rows₁ p₁ hnodup).mono (fun _ _ h => .cons hnew h₁ h)
        fun _ _ _ => trivial

end

/-! ## Turns -/

/-- What a turn ships of a stream. -/
def shipment (read : String → Bytes → List WalRow) (db : Archive) (source_id : Int)
    (stream : String) (after : Option Int64) : List WalRow :=
  dueRows read db source_id stream after ++ unsentRows db source_id stream after

/-- A turn of one source, over all its streams. -/
structure Fed (read : String → Bytes → List WalRow) (db : Archive) (p p' : Poll) : Prop where
  feeds : Feeds read p p' fun name => shipment read db p.1.source_id name (p.1.walAfter name)
  walAfter : ∀ name, p'.1.walAfter name = movedTo db p.1.source_id name (p.1.walAfter name)
  reach : ∀ name, InReach db p.1.source_id name (p.1.walAfter name)

section

variable {read : String → Bytes → List WalRow} {db : Archive} {p p' p'' : Poll}

/-- A part before a turn that ships no row and moves no cursor. -/
theorem Idle.fed (h : Idle read p p') (h' : Fed read db p' p'') : Fed read db p p'' := by
  have hid := h.feeds.source_id
  refine ⟨(h.feeds.trans h'.feeds).congr fun name => ?_, fun name => ?_, fun name => ?_⟩
  · rw [hid, h.walAfter, List.nil_append]
  · rw [h'.walAfter, hid, h.walAfter]
  · have hreach := h'.reach name
    rw [hid, h.walAfter] at hreach
    exact hreach

theorem nodup_allStreams (db : Archive) (source_id : Int) : (db.allStreams source_id).Nodup :=
  OrdMap.keys_nodup _

/-- The `rows` frame ends the turn with the live rows of every stream. -/
theorem StreamsFed.push {rows : List WalRow}
    (h : StreamsFed read db (db.allStreams p.1.source_id) p [] rows p') :
    Fed read db p (pushRows rows p') := by
  have hsorted : ∀ name, (sortRows rows).filter (fun r => r.stream = name) =
      unsentRows db p.1.source_id name (p.1.walAfter name) := by
    intro name
    have hfilter := List.insertionSort_filter (fun r : WalRow => toLex (r.ts, r.stream))
      (fun r => decide (r.stream = name)) rows
    have hrows := h.returned name
    rw [List.filter_nil, List.nil_append] at hrows
    have hunlisted : (if name ∈ db.allStreams p.1.source_id then
        unsentRows db p.1.source_id name (p.1.walAfter name) else []) =
        unsentRows db p.1.source_id name (p.1.walAfter name) := by
      split
      · rfl
      · rename_i hnot
        unfold unsentRows
        rw [(unlisted hnot).2]
        rfl
    rw [hunlisted] at hrows
    rw [hrows] at hfilter
    unfold sortRows
    rw [hfilter]
    refine List.Pairwise.insertionSort_eq ?_
    refine ((liveWal_sorted db p.1.source_id name).sublist List.filter_sublist).imp fun hlt => ?_
    exact Prod.Lex.toLex_le_toLex.mpr (.inl hlt)
  have hord := h.feeds.ordinal
  have hpush := @Feeds.push read p' { p'.1 with seq := p'.1.seq + 1 }
    [.rows p'.1.ordinal p'.1.seq p'.1.index_state (sortRows rows)]
    (p'.2.push [.rows p'.1.ordinal p'.1.seq p'.1.index_state (sortRows rows)]) rfl rfl rfl
    fun f hf => by
      rw [List.mem_singleton.mp hf]
      rfl
  refine ⟨(h.feeds.trans hpush).congr fun name => ?_, fun name => ?_, fun name => ?_⟩
  · have hlive : streamRows read p'.1.ordinal name
        [.rows p'.1.ordinal p'.1.seq p'.1.index_state (sortRows rows)] =
        unsentRows db p.1.source_id name (p.1.walAfter name) := by
      rw [← hsorted name]
      simp [streamRows, Frame.rowsOf]
    rw [hlive, shipment]
    split
    · rfl
    · rename_i hnot
      rw [dueRows, dueSegments_none (unlisted hnot).1]
      rfl
  · have hwal : (pushRows rows p').1.walAfter name = p'.1.walAfter name := rfl
    rw [hwal, h.walAfter]
    split
    · rfl
    · rename_i hnot
      unfold movedTo unsentRows caughtUp
      rw [(unlisted hnot).1, (unlisted hnot).2, Option.or_none]
      rfl
  · by_cases hlisted : name ∈ db.allStreams p.1.source_id
    · exact h.reach name hlisted
    · intro w a hw
      rw [(unlisted hlisted).1] at hw
      exact absurd hw (by simp)

/-- **What a turn ships of the rows of its source.** -/
theorem emits_poll_fed (p : Poll) : Emits (poll db) p fun _ p' => Fed read db p p' := by
  unfold poll
  refine emits_state.bind ?_
  intro q q' h
  rw [h.1, h.2]
  dsimp only
  refine emits_ask.bind ?_
  intro names q h
  rw [h.1, h.2]
  -- the entries and the observations carry no row, and leave every stream where it was
  refine Prog.Runs.bind (emits_of_keeps (.forEach (fun name _ _ h' =>
    keeps_emitIndex_idle Int64.minValue name h') (@Idle.refl read p))) ?_
  intro _ p₁ h₁
  refine emits_ask.bind ?_
  intro offsets q h
  rw [h.1, h.2]
  have h₂ := h₁.trans (Idle.foldl idle_pushOffset (db.readClockOffsets p.1.source_id) p₁)
  refine Prog.Runs.bind (Q := fun _ p' => Idle read p p') (.update trivial h₂) ?_
  intro _ p₂ h₂
  refine emits_ask.bind ?_
  intro watermarks q h
  rw [h.1, h.2]
  refine emits_ask.bind ?_
  intro streams q h
  rw [h.1, h.2, ← h₂.feeds.source_id]
  refine (@emits_pollStreams read db _ [] p₂ (nodup_allStreams db p₂.1.source_id)).bind ?_
  intro rows p₃ h₃
  exact .update trivial (h₂.fed h₃.push)

/-- A turn of a source the publisher knows. -/
theorem emits_pollKnown_fed (now : Int64) (records : List SourceRow) (p : Poll) :
    Emits (pollKnown db now records) p fun _ p' => Fed read db p p' := by
  have hpoll : ∀ p₁, Idle read p p₁ → Emits (poll db) p₁ fun _ p' => Fed read db p p' :=
    fun p₁ h₁ => (emits_poll_fed p₁).mono (fun _ _ h => h₁.fed h) fun _ _ _ => trivial
  unfold pollKnown
  refine emits_state.bind ?_
  intro q q' h
  rw [h.1, h.2]
  obtain ⟨c, b⟩ := p
  dsimp only
  split
  · rename_i rec _
    exact (emits_of_keeps (keeps_updateIdentity_idle now rec)).bind fun _ p₁ h₁ => hpoll p₁ h₁
  · exact hpoll (c, b) (.refl _)

/-! ## Openings -/

/-- The rows of the segments of a stream that end at a bound or past it. -/
def openedRows (read : String → Bytes → List WalRow) (db : Archive) (since : Int64)
    (source_id : Int) (stream : String) : List WalRow :=
  (db.segmentsOverlapping source_id stream since Int64.maxValue).flatMap fun s => read stream s.bytes

/-- The opening of a source: its segments from the bound on are shipped. -/
structure OpenFed (read : String → Bytes → List WalRow) (db : Archive) (since : Int64)
    (p p' : Poll) : Prop where
  feeds : Feeds read p p' fun name => openedRows read db since p.1.source_id name
  walAfter : ∀ name, p'.1.walAfter name = db.watermark (streamKey p.1.source_id name)

/-- The same of some of its streams. -/
structure StreamsOpened (read : String → Bytes → List WalRow) (db : Archive) (since : Int64)
    (streams : List String) (p p' : Poll) : Prop where
  feeds : Feeds read p p' fun name =>
    if name ∈ streams then openedRows read db since p.1.source_id name else []
  walAfter : ∀ name, p'.1.walAfter name =
    if name ∈ streams then db.watermark (streamKey p.1.source_id name) else p.1.walAfter name

variable {since : Int64}

theorem openedRows_nil {source_id : Int} {stream : String}
    (hw : db.watermark (streamKey source_id stream) = none) :
    openedRows read db since source_id stream = [] := by
  unfold openedRows Archive.segmentsOverlapping
  rw [readSegments_nil hw]
  rfl

theorem StreamsOpened.nil (p : Poll) : StreamsOpened read db since [] p p := by
  refine ⟨(Feeds.refl p).congr fun name => ?_, fun name => ?_⟩
  · simp
  · simp

theorem StreamsOpened.cons {streams : List String} {stream : String} (hnew : stream ∉ streams)
    (h : StreamsOpened read db since [stream] p p') (h' : StreamsOpened read db since streams p' p'') :
    StreamsOpened read db since (stream :: streams) p p'' := by
  have hid := h.feeds.source_id
  refine ⟨(h.feeds.trans h'.feeds).congr fun name => ?_, fun name => ?_⟩
  · rw [hid]
    by_cases hname : name = stream
    · subst hname
      simp [hnew]
    · by_cases hmem : name ∈ streams
      · simp [hname, hmem]
      · simp [hname, hmem]
  · rw [h'.walAfter, h.walAfter, hid]
    by_cases hname : name = stream
    · subst hname
      simp [hnew]
    · by_cases hmem : name ∈ streams
      · simp [hname, hmem]
      · simp [hname, hmem]

theorem emits_openStream (stream : String) (p : Poll) :
    Emits (openStream db (some since) db.sealedWatermarks stream) p fun _ p' =>
      StreamsOpened read db since [stream] p p' := by
  have hwm : ∀ k, db.sealedWatermarks.get? k = db.watermark k := seed_watermarks db
  have hentered := @Idle.enter read stream p
  unfold openStream
  refine Prog.Runs.bind (Q := fun _ p' => p' = (p.1.enter stream, p.2)) (.update trivial rfl) ?_
  intro _ q hq
  rw [hq]
  refine emits_state.bind ?_
  intro q q' h
  rw [h.1, h.2]
  dsimp only
  refine emits_ask.bind ?_
  intro segments q h
  rw [h.1, h.2, hwm]
  refine .update trivial ⟨?_, fun name => ?_⟩
  · have hpush := @Feeds.push read (p.1.enter stream, p.2)
      ((p.1.enter stream).advance stream (db.watermark (streamKey p.1.source_id stream)))
      ((db.segmentsOverlapping p.1.source_id stream since Int64.maxValue).map fun s =>
        .segment (p.1.enter stream).ordinal stream s.seg_meta s.bytes s.caller_index)
      (pushSegments stream (db.segmentsOverlapping p.1.source_id stream since
        Int64.maxValue) (p.1.enter stream, p.2)).2 rfl rfl rfl fun f hf => by
          obtain ⟨s, -, rfl⟩ := List.mem_map.mp hf
          rfl
    refine (hentered.feeds.trans hpush).congr fun name => ?_
    rw [List.nil_append]
    unfold streamRows openedRows
    rw [List.flatMap_map]
    by_cases hname : name = stream
    · subst hname
      have hord : (p.1.enter name).ordinal = p.1.ordinal := rfl
      simp [Frame.rowsOf, hord]
    · simp [Frame.rowsOf, hname, Ne.symm hname]
  · have hadvance := walAfter_advance (p.1.enter stream) stream name
      (db.watermark (streamKey p.1.source_id stream))
    refine hadvance.trans ?_
    by_cases hname : name = stream
    · simp [hname]
    · simp only [hname, if_false, List.mem_singleton]
      exact hentered.walAfter name

theorem emits_openStreams : ∀ {streams : List String} (p : Poll), streams.Nodup →
    Emits (Prog.forEach (openStream db (some since) db.sealedWatermarks) streams) p
      fun _ p' => StreamsOpened read db since streams p p'
  | [], p, _ => .pure (.nil p)
  | stream :: streams, p, hnodup => by
      obtain ⟨hnew, hnodup⟩ := List.nodup_cons.mp hnodup
      refine (@emits_openStream read db since stream p).bind fun _ p₁ h₁ => ?_
      exact (emits_openStreams p₁ hnodup).mono (fun _ _ h => .cons hnew h₁ h) fun _ _ _ => trivial

/-- **What the opening of a source ships of its rows.** -/
theorem emits_openSource_fed (rec : SourceRow) (ordinal : UInt32) (b : Batch) :
    Emits (openSource db rec (some since) db.sealedWatermarks) (.fresh ordinal rec, b)
      fun _ p' => OpenFed read db since (.fresh ordinal rec, b) p' := by
  unfold openSource
  refine Prog.Runs.bind (Q := fun _ p' => Idle read (.fresh ordinal rec, b) p')
    (.update trivial (idle_introduced rec _)) ?_
  intro _ p₁ h₁
  refine emits_ask.bind ?_
  intro names q h
  rw [h.1, h.2]
  refine Prog.Runs.bind (emits_of_keeps (.forEach (fun name _ _ h' =>
    keeps_emitIndex_idle _ name h') h₁)) ?_
  intro _ p₂ h₂
  refine emits_ask.bind ?_
  intro streams q h
  have hid : p₂.1.source_id = rec.id := h₂.feeds.source_id
  rw [h.1, h.2, ← hid]
  refine (@emits_openStreams read db since _ p₂ (nodup_allStreams db p₂.1.source_id)).bind ?_
  intro _ p₃ h₃
  have hopened : OpenFed read db since (.fresh ordinal rec, b) p₃ := by
    have hsame : (SourceCursor.fresh ordinal rec).source_id = p₂.1.source_id := hid.symm
    refine ⟨(h₂.feeds.trans h₃.feeds).congr fun name => ?_, fun name => ?_⟩
    · rw [hsame, List.nil_append]
      split
      · rfl
      · rename_i hnot
        exact openedRows_nil (unlisted hnot).1
    · rw [hsame, h₃.walAfter]
      split
      · rfl
      · rename_i hnot
        rw [h₂.walAfter, (unlisted hnot).1]
        rfl
  refine emits_ask.bind ?_
  intro offsets q h
  rw [h.1, h.2]
  have hoffsets := @Idle.foldl read _ _ (idle_openOffset since)
    (db.readClockOffsets p₂.1.source_id) p₃
  refine .update trivial ⟨(hopened.feeds.trans hoffsets.feeds).congr fun name => ?_,
    fun name => (hoffsets.walAfter name).trans (hopened.walAfter name)⟩
  exact (List.append_nil _).symm

end

/-! ## What was shipped so far -/

/-- What was shipped of a stream is what a reader saw of it up to the stream's cursor, but for some
rows from before a bound. -/
structure Reached (since : Int64) (seen : List WalRow) (after : Option Int64)
    (shipped : List WalRow) : Prop where
  shipped : ∃ skipped, (seen.filter fun r => after.any (r.ts ≤ ·)) = skipped ++ shipped ∧
    ∀ r ∈ skipped, r.ts < since
  cursor : ∀ a, after = some a → ∃ r ∈ seen, r.ts = a

/-- A cursor that is at or past every row that is seen, and at one of them. -/
structure CaughtUp (seen : List WalRow) (after : Option Int64) : Prop where
  cursor : ∀ a, after = some a → ∃ r ∈ seen, r.ts = a
  past : ∀ r ∈ seen, after.any (r.ts ≤ ·) = true

/-- The cursor after some more rows were shipped is the newest of it and their timestamps. -/
theorem newestShipped_eq_some : ∀ {rows : List WalRow} {after : Option Int64} {n : Int64},
    newestShipped after rows = some n →
      (after = some n ∨ ∃ r ∈ rows, r.ts = n) ∧ (∀ a, after = some a → a ≤ n) ∧
        ∀ r ∈ rows, r.ts ≤ n
  | [], after, n, h => by
      refine ⟨.inl h, fun a ha => ?_, nofun⟩
      have hafter : after = some n := h
      rw [ha] at hafter
      rw [Option.some.inj hafter]
  | r :: rows, after, n, h => by
      obtain ⟨hfrom, hle, hrows⟩ := @newestShipped_eq_some rows _ n h
      have hfirst := hle _ rfl
      rcases after with _ | a
      · refine ⟨.inr ?_, nofun, fun r' hr' => ?_⟩
        · rcases hfrom with hfrom | ⟨r', hr', hts⟩
          · exact ⟨r, List.mem_cons_self, Option.some.inj hfrom⟩
          · exact ⟨r', List.mem_cons_of_mem r hr', hts⟩
        · rcases List.mem_cons.mp hr' with rfl | hr'
          · exact hfirst
          · exact hrows r' hr'
      · obtain ⟨hafter, hts⟩ := max_le_iff.mp hfirst
        refine ⟨?_, fun a' ha' => ?_, fun r' hr' => ?_⟩
        · rcases hfrom with hfrom | ⟨r', hr', hts⟩
          · rcases max_choice a r.ts with hmax | hmax
            · exact .inl (by rw [← hmax]; exact hfrom)
            · exact .inr ⟨r, List.mem_cons_self, by rw [← hmax]; exact Option.some.inj hfrom⟩
          · exact .inr ⟨r', List.mem_cons_of_mem r hr', hts⟩
        · rw [← Option.some.inj ha']
          exact hafter
        · rcases List.mem_cons.mp hr' with rfl | hr'
          · exact hts
          · exact hrows r' hr'

/-- There is a cursor once there is one, or a row. -/
theorem newestShipped_eq_none : ∀ {rows : List WalRow} {after : Option Int64},
    newestShipped after rows = none → after = none ∧ rows = []
  | [], _, h => ⟨h, rfl⟩
  | _ :: rows, _, h => absurd (@newestShipped_eq_none rows _ h).1 (by simp)

/-- Rows in timestamp order, split after a timestamp. -/
theorem filter_upTo_append (a : Int64) : ∀ {rows : List WalRow},
    rows.Pairwise (fun r r' => r.ts < r'.ts) →
      (rows.filter fun r => r.ts ≤ a) ++ (rows.filter fun r => !decide (r.ts ≤ a)) = rows
  | [], _ => rfl
  | r :: rows, h => by
      obtain ⟨hfirst, hrest⟩ := List.pairwise_cons.mp h
      by_cases hr : r.ts ≤ a
      · rw [List.filter_cons_of_pos (by simpa using hr), List.filter_cons_of_neg (by simpa using hr),
          List.cons_append, filter_upTo_append a hrest]
      · -- what comes later is past it too
        have hlater : ∀ r' ∈ rows, ¬ r'.ts ≤ a := fun r' hr' hle =>
          hr (le_trans (le_of_lt (hfirst r' hr')) hle)
        rw [List.filter_cons_of_neg (by simpa using hr), List.filter_cons_of_pos (by simpa using hr),
          List.filter_eq_nil_iff.mpr fun r' hr' => by simpa using hlater r' hr',
          List.filter_eq_self.mpr fun r' hr' => by simpa using hlater r' hr', List.nil_append]

section

variable {read : String → Bytes → List WalRow} {db : Archive} {source_id : Int} {stream : String}
  {seen shipped : List WalRow} {after : Option Int64} {since : Int64}

/-- What a cursor that caught up has shipped is all that is seen. -/
theorem CaughtUp.reached (h : CaughtUp seen after) {skipped : List WalRow}
    (hsplit : seen = skipped ++ shipped) (hskipped : ∀ r ∈ skipped, r.ts < since) :
    Reached since seen after shipped := by
  refine ⟨⟨skipped, ?_, hskipped⟩, h.cursor⟩
  rw [List.filter_eq_self.mpr h.past]
  exact hsplit

/-- An opening leaves out the segments that end before its bound. -/
theorem openedRows_split (h : db.Exact (byStream read)) (since : Int64) (source_id : Int)
    (stream : String) : ∃ skipped, db.sealedRows (byStream read) source_id stream =
      skipped ++ openedRows read db since source_id stream ∧ ∀ r ∈ skipped, r.ts < since := by
  have hlaid := (h.layout (streamKey source_id stream)).laid
  have hordered : (db.readSegments source_id stream).Pairwise fun s s' =>
      s.seg_meta.last_ts ≤ s'.seg_meta.last_ts := by
    have hruns : (db.runs (streamKey source_id stream)).Pairwise fun c c' => c.last ≤ c'.last :=
      hlaid.ordered.imp_of_mem fun {c c'} _ hc' hlt =>
        le_of_lt (lt_of_lt_of_le hlt (hlaid.span c' hc'))
    unfold Archive.runs OrdMap.values at hruns
    rw [List.pairwise_map] at hruns
    exact List.pairwise_map.mpr hruns
  have hsplit := List.filter_split_of_pairwise since hordered
  have hopened : db.segmentsOverlapping source_id stream since Int64.maxValue =
      (db.readSegments source_id stream).filter fun s => !decide (s.seg_meta.last_ts < since) :=
    List.filter_congr fun s _ => by
      rw [← decide_not, decide_eq_decide, not_lt]
      exact and_iff_left (Int64.le_maxValue _)
  refine ⟨((db.readSegments source_id stream).filter fun s => s.seg_meta.last_ts < since).flatMap
    fun s => read stream s.bytes, ?_, fun r hr => ?_⟩
  · unfold Archive.sealedRows openedRows
    rw [hopened, ← List.flatMap_append, ← hsplit]
    rfl
  · obtain ⟨s, hs, hr⟩ := List.mem_flatMap.mp hr
    obtain ⟨hmem, hlt⟩ := List.mem_filter.mp hs
    obtain ⟨e, he, rfl⟩ := List.mem_map.mp hmem
    have hholds := (h.runs (streamKey source_id stream) e.2 (List.mem_map_of_mem he)).holds
    exact lt_of_le_of_lt (hholds.2 r hr).2 (by simpa using hlt)

/-- **The opening of a source ships its streams up to their watermarks**, from the bound on. -/
theorem reached_open (h : db.Exact (byStream read)) :
    Reached since (db.readerRows (byStream read) source_id stream)
      (db.watermark (streamKey source_id stream)) (openedRows read db since source_id stream) := by
  rcases hw : db.watermark (streamKey source_id stream) with _ | w
  · refine ⟨⟨[], ?_, nofun⟩, nofun⟩
    rw [openedRows_nil hw]
    exact List.filter_eq_nil_iff.mpr fun r _ => by simp
  · obtain ⟨hle, r, hr, hts⟩ := h.watermark hw
    obtain ⟨skipped, hsplit, hskipped⟩ := openedRows_split h since source_id stream
    refine ⟨⟨skipped, ?_, hskipped⟩,
      fun a ha => ⟨r, List.mem_append_left _ hr, by rw [hts, Option.some.inj ha]⟩⟩
    rw [readerRows_eq, List.filter_append, List.filter_eq_self.mpr fun r hr => by simpa using hle r hr,
      List.filter_eq_nil_iff.mpr fun r hr => by simpa using liveWal_past hr hw, List.append_nil, hsplit]

/-- The segments of a stream of which nothing was shipped are due. -/
theorem dueRows_first (read : String → Bytes → List WalRow) (db : Archive) (source_id : Int)
    (stream : String) : dueRows read db source_id stream none =
      db.sealedRows (byStream read) source_id stream := by
  have hall : dueSegments db source_id stream none = db.readSegments source_id stream :=
    segmentsOverlapping_all
  rw [dueRows, hall]
  rfl

/-- A turn ships all of a stream of which nothing was shipped. -/
theorem shipment_first (read : String → Bytes → List WalRow) (db : Archive) (source_id : Int)
    (stream : String) : shipment read db source_id stream none =
      db.readerRows (byStream read) source_id stream := by
  have hall : unsentRows db source_id stream none = db.liveWal source_id stream := by
    refine List.filter_eq_self.mpr fun r hr => ?_
    rcases hw : db.watermark (streamKey source_id stream) with _ | w
    · simp [caughtUp, hw]
    · have hpast := liveWal_past hr hw
      simpa [caughtUp, hw] using hpast
  rw [shipment, dueRows_first, hall]
  rfl

/-- **What a turn ships completes what was shipped.** Where rows were only added at the end of a
stream, and nothing of it was sealed past its cursor, a turn makes what was shipped all that a
reader sees, but for rows from before the bound. -/
theorem Reached.turn (h : Reached since seen after shipped) (hexact : db.Exact (byStream read))
    (hseen : seen <+: db.readerRows (byStream read) source_id stream)
    (hreach : InReach db source_id stream after) : ∃ skipped,
      db.readerRows (byStream read) source_id stream =
        skipped ++ (shipped ++ shipment read db source_id stream after) ∧
      ∀ r ∈ skipped, r.ts < since := by
  obtain ⟨skipped, hsplit, hskipped⟩ := h.shipped
  refine ⟨skipped, ?_, hskipped⟩
  rcases after with _ | a
  · have hnone : (seen.filter fun r => (none : Option Int64).any (r.ts ≤ ·)) = [] :=
      List.filter_eq_nil_iff.mpr fun r _ => by simp
    rw [hnone] at hsplit
    rw [← List.append_assoc, ← hsplit, List.nil_append, shipment_first]
  · have hsorted := hexact.sorted source_id stream
    obtain ⟨last, hlast, hts⟩ := h.cursor a rfl
    obtain ⟨new, hnew⟩ := hseen
    -- what was added is past the cursor
    have hadded : ∀ r ∈ new, ¬ r.ts ≤ a := by
      intro r hr
      rw [← hnew] at hsorted
      have hlt := (List.pairwise_append.mp hsorted).2.2 last hlast r hr
      rw [hts] at hlt
      exact not_le.mpr hlt
    -- what is sealed is not
    have hsealed : ∀ r ∈ db.sealedRows (byStream read) source_id stream, r.ts ≤ a := by
      intro r hr
      rcases hw : db.watermark (streamKey source_id stream) with _ | w
      · rw [sealedRows_nil hw] at hr
        exact absurd hr List.not_mem_nil
      · exact le_trans ((hexact.watermark hw).1 r hr) (hreach w a hw rfl)
    have hold : skipped ++ shipped = (db.readerRows (byStream read) source_id stream).filter fun r =>
        r.ts ≤ a := by
      have hnone : (new.filter fun r => r.ts ≤ a) = [] :=
        List.filter_eq_nil_iff.mpr fun r hr => by simpa using hadded r hr
      rw [← hsplit, ← hnew, List.filter_append, hnone, List.append_nil]
      rfl
    have hrest : shipment read db source_id stream (some a) =
        (db.readerRows (byStream read) source_id stream).filter fun r => !decide (r.ts ≤ a) := by
      have hnone : ((db.sealedRows (byStream read) source_id stream).filter fun r =>
          !decide (r.ts ≤ a)) = [] :=
        List.filter_eq_nil_iff.mpr fun r hr => by simpa using hsealed r hr
      rw [readerRows_eq, List.filter_append, hnone, List.nil_append]
      rfl
    rw [← List.append_assoc, hold, hrest]
    exact (filter_upTo_append a hsorted).symm

/-- **After a turn a stream's cursor is the newest row that a reader sees.** -/
theorem caughtUp_turn (h : ∀ a, after = some a → ∃ r ∈ seen, r.ts = a)
    (hexact : db.Exact (byStream read))
    (hseen : seen <+: db.readerRows (byStream read) source_id stream)
    (hreach : InReach db source_id stream after) :
    CaughtUp (db.readerRows (byStream read) source_id stream) (movedTo db source_id stream after) := by
  have hcaught : ∀ w, caughtUp db source_id stream after = some w →
      (∃ r ∈ db.readerRows (byStream read) source_id stream, r.ts = w) ∧
        ∀ r ∈ db.sealedRows (byStream read) source_id stream, r.ts ≤ w := by
    intro w hw
    unfold caughtUp at hw
    rcases after with _ | a
    · rw [Option.none_or] at hw
      obtain ⟨hle, r, hr, hts⟩ := hexact.watermark hw
      exact ⟨⟨r, List.mem_append_left _ hr, hts⟩, hle⟩
    · rw [Option.some_or] at hw
      obtain ⟨r, hr, hts⟩ := h a rfl
      refine ⟨⟨r, hseen.subset hr, by rw [hts, Option.some.inj hw]⟩, fun r hr => ?_⟩
      rcases hwm : db.watermark (streamKey source_id stream) with _ | w'
      · rw [sealedRows_nil hwm] at hr
        exact absurd hr List.not_mem_nil
      · rw [← Option.some.inj hw]
        exact le_trans ((hexact.watermark hwm).1 r hr) (hreach w' a hwm rfl)
  refine ⟨fun n hn => ?_, fun r hr => ?_⟩
  · rcases (newestShipped_eq_some hn).1 with hfrom | ⟨r, hr, hts⟩
    · exact (hcaught n hfrom).1
    · exact ⟨r, List.mem_append_right _ (List.mem_filter.mp hr).1, hts⟩
  · rcases hn : movedTo db source_id stream after with _ | n
    · -- nothing is sealed, and nothing is live
      obtain ⟨hnone, hlive⟩ := newestShipped_eq_none hn
      have hwm : db.watermark (streamKey source_id stream) = none := by
        unfold caughtUp at hnone
        exact (Option.or_eq_none_iff.mp hnone).2
      rw [readerRows_eq, sealedRows_nil hwm, List.nil_append] at hr
      have hunsent := List.filter_eq_nil_iff.mp hlive r hr
      rw [hnone] at hunsent
      exact absurd rfl hunsent
    · obtain ⟨-, hle, hrows⟩ := newestShipped_eq_some hn
      suffices r.ts ≤ n by simpa using this
      rw [readerRows_eq] at hr
      rcases List.mem_append.mp hr with hr | hr
      · rcases hw : caughtUp db source_id stream after with _ | w
        · unfold caughtUp at hw
          rw [sealedRows_nil (Option.or_eq_none_iff.mp hw).2] at hr
          exact absurd hr List.not_mem_nil
        · exact le_trans ((hcaught w hw).2 r hr) (hle w hw)
      · by_cases hpast : (caughtUp db source_id stream after).any (r.ts ≤ ·)
        · rcases hw : caughtUp db source_id stream after with _ | w
          · rw [hw] at hpast
            exact absurd hpast (by simp)
          · rw [hw] at hpast
            exact le_trans (by simpa using hpast) (hle w hw)
        · exact hrows r (List.mem_filter.mpr ⟨hr, by simpa using hpast⟩)

end

end Dendro.Replicate
