import Dendro.Writer.FaultFree

/-!
# What a retention pass removes

A pass over some streams and a pass over a whole source delete with different statements. Both
are given here in closed form, as one filter of each table, and everything about them follows:
what a reader of each stream sees afterwards, what they report, and that they agree where the
predicate accepts everything.
-/

namespace Dendro

open WriterM

namespace Archive

/-! ## The pass in closed form -/

/-- The rows that a pass over the streams of `reach` takes: those before the cutoff. -/
def taken (reach : StreamKey → Bool) (cutoff_ts : Int64) (k : StreamKey) (ts : Int64) : Bool :=
  reach k && decide (ts < cutoff_ts)

/-- Every table of the pass, filtered. -/
structure PassOver (a a' : Archive) (reach : StreamKey → Bool) (cutoff_ts : Int64) : Prop where
  layout : a'.layout = a.layout
  segments : a'.segments = a.segments.filter fun k s => !taken reach cutoff_ts (ofLex k).1 s.last
  indexes : a'.segment_indexes = a.segment_indexes.filter fun k _ =>
    match a.segments.get? k with
    | some s => !taken reach cutoff_ts (ofLex k).1 s.last
    | none => true
  wal : a'.wal = a.wal.filter fun k _ => !taken reach cutoff_ts (ofLex k).1 (ofLex k).2
  caller_rows : a'.caller_rows = a.caller_rows.filter fun e => !taken reach cutoff_ts e.1 e.2.ts

/-- The pass over every stream of a source that a predicate accepts. -/
def acceptedReach (source_id : Int) (accepts : String → Bool) (k : StreamKey) : Bool :=
  decide ((ofLex k).1 = source_id) && accepts (ofLex k).2

section PassOver

variable {a b c : Archive} {reach reach' : StreamKey → Bool} {cutoff_ts : Int64}

theorem taken_congr {k : StreamKey} (h : reach k = reach' k) (cutoff_ts ts : Int64) :
    taken reach cutoff_ts k ts = taken reach' cutoff_ts k ts := by
  unfold taken
  rw [h]

theorem taken_or (reach reach' : StreamKey → Bool) (cutoff_ts : Int64) (k : StreamKey)
    (ts : Int64) : (!taken (fun k => reach k || reach' k) cutoff_ts k ts) =
      (!taken reach cutoff_ts k ts && !taken reach' cutoff_ts k ts) := by
  unfold taken
  rw [Bool.and_or_distrib_right, Bool.not_or]

theorem passOver_none (a : Archive) (cutoff_ts : Int64) :
    PassOver a a (fun _ => false) cutoff_ts := by
  refine ⟨rfl, ?_, ?_, ?_, ?_⟩
  · exact (OrdMap.filter_eq_self fun k s _ => rfl).symm
  · refine (OrdMap.filter_eq_self fun k s _ => ?_).symm
    cases a.segments.get? k <;> rfl
  · exact (OrdMap.filter_eq_self fun k s _ => rfl).symm
  · exact (List.filter_eq_self.mpr fun e _ => rfl).symm

theorem PassOver.trans (h : PassOver a b reach cutoff_ts) (h' : PassOver b c reach' cutoff_ts) :
    PassOver a c (fun k => reach k || reach' k) cutoff_ts := by
  refine ⟨h'.layout.trans h.layout, ?_, ?_, ?_, ?_⟩
  · rw [h'.segments, h.segments, OrdMap.filter_filter]
    exact OrdMap.filter_congr fun k s _ => (taken_or _ _ _ _ _).symm
  · rw [h'.indexes, h.indexes, OrdMap.filter_filter, h.segments]
    refine OrdMap.filter_congr fun k _ _ => ?_
    rw [OrdMap.get?_filter]
    rcases a.segments.get? k with _ | s
    · rfl
    · dsimp only
      rw [taken_or, Option.filter_some]
      cases taken reach cutoff_ts (ofLex k).1 s.last with
      | false => rfl
      | true => rfl
  · rw [h'.wal, h.wal, OrdMap.filter_filter]
    exact OrdMap.filter_congr fun k _ _ => (taken_or _ _ _ _ _).symm
  · rw [h'.caller_rows, h.caller_rows, List.filter_filter]
    refine List.filter_congr fun e _ => ?_
    rw [taken_or, Bool.and_comm]

/-- The streams that something is stored of. -/
structure SameReach (a : Archive) (reach reach' : StreamKey → Bool) : Prop where
  segments : ∀ k ∈ a.segments.keys, reach (ofLex k).1 = reach' (ofLex k).1
  wal : ∀ k ∈ a.wal.keys, reach (ofLex k).1 = reach' (ofLex k).1
  caller_rows : ∀ e ∈ a.caller_rows, reach e.1 = reach' e.1

/-- Only streams that something is stored of matter. -/
theorem PassOver.congr (h : PassOver a b reach cutoff_ts) (hreach : SameReach a reach reach') :
    PassOver a b reach' cutoff_ts := by
  refine ⟨h.layout, ?_, ?_, ?_, ?_⟩
  · rw [h.segments]
    refine OrdMap.filter_congr fun k s hk => ?_
    rw [taken_congr (hreach.segments k (OrdMap.mem_keys.mpr ⟨s, hk⟩))]
  · rw [h.indexes]
    refine OrdMap.filter_congr fun k _ _ => ?_
    rcases hs : a.segments.get? k with _ | s
    · rfl
    · dsimp only
      rw [taken_congr (hreach.segments k (OrdMap.mem_keys.mpr ⟨s, hs⟩))]
  · rw [h.wal]
    refine OrdMap.filter_congr fun k s hk => ?_
    rw [taken_congr (hreach.wal k (OrdMap.mem_keys.mpr ⟨s, hk⟩))]
  · rw [h.caller_rows]
    refine List.filter_congr fun e he => ?_
    rw [taken_congr (hreach.caller_rows e he)]

/-- Two passes over the same streams leave the same tables. -/
theorem PassOver.unique (h : PassOver a b reach cutoff_ts) (h' : PassOver a c reach cutoff_ts) :
    b.segments = c.segments ∧ b.segment_indexes = c.segment_indexes ∧ b.wal = c.wal ∧
      b.caller_rows = c.caller_rows :=
  ⟨h.segments.trans h'.segments.symm, h.indexes.trans h'.indexes.symm, h.wal.trans h'.wal.symm,
    h.caller_rows.trans h'.caller_rows.symm⟩

end PassOver

/-! ## The two statements of a pass -/

section Passes

variable (source_id : Int) (cutoff_ts : Int64) (a : Archive)

/-- One stream of a pass without a floor. -/
theorem passOver_evictStream (stream : String) :
    PassOver a (evictCallerRows source_id cutoff_ts none (evictStream source_id cutoff_ts a stream)
      stream) (fun k => decide (k = streamKey source_id stream)) cutoff_ts := by
  simp only [evictCallerRows, evictStream, deleteWal, deleteSegments, callerRowCut]
  refine ⟨rfl, rfl, rfl, rfl, ?_⟩
  dsimp only
  refine List.filter_congr fun e _ => ?_
  unfold taken
  rfl

/-- A pass over some streams, by their names. -/
theorem passOver_streams (streams : List String) :
    PassOver a (a.evictStreams source_id cutoff_ts none streams)
      (fun k => decide (k ∈ streams.map (streamKey source_id))) cutoff_ts := by
  have hfold : ∀ (streams : List String) (a : Archive), PassOver a
      (streams.foldl (fun a stream => evictCallerRows source_id cutoff_ts none
        (evictStream source_id cutoff_ts a stream) stream) a)
      (fun k => decide (k ∈ streams.map (streamKey source_id))) cutoff_ts := by
    intro streams
    induction streams with
    | nil => exact fun a => (passOver_none a cutoff_ts).congr ⟨by simp, by simp, by simp⟩
    | cons stream streams ih =>
        intro a
        have htrans := (passOver_evictStream source_id cutoff_ts a stream).trans (ih _)
        exact htrans.congr ⟨by simp, by simp, by simp⟩
  obtain ⟨hlayout, hsegments, hindexes, hwal, hcaller⟩ := hfold streams a
  exact ⟨hlayout, hsegments, hindexes, hwal, hcaller⟩

/-- **A pass over a whole source, in closed form.** -/
theorem passOver_evict : PassOver a (a.evict source_id cutoff_ts none [])
    (acceptedReach source_id fun _ => true) cutoff_ts := by
  have hreach : ∀ k, acceptedReach source_id (fun _ => true) k =
      decide ((ofLex k).1 = source_id) := fun k => Bool.and_true _
  have htaken : ∀ k ts, taken (acceptedReach source_id fun _ => true) cutoff_ts k ts =
      (decide ((ofLex k).1 = source_id) && decide (ts < cutoff_ts)) := fun k ts => by
    unfold taken
    rw [hreach]
  simp only [evict, deleteWal, deleteSegments, evictClockOffsets]
  refine ⟨rfl, ?_, ?_, ?_, ?_⟩ <;> dsimp only
  · exact OrdMap.filter_congr fun k s _ => by rw [htaken]
  · refine OrdMap.filter_congr fun k _ _ => ?_
    cases a.segments.get? k with
    | none => rfl
    | some s =>
        dsimp only
        rw [htaken]
  · exact OrdMap.filter_congr fun k _ _ => by rw [htaken]
  · refine List.filter_congr fun e _ => ?_
    rw [htaken]

end Passes

/-! ## The streams a predicate accepts -/

section Accepted

variable (a : Archive) (source_id : Int) (accepts : String → Bool)

/-- What a pass lists: the streams, and the names of the caller's store that are not streams,
that the predicate accepts. -/
def acceptedStreams : List String :=
  (a.allStreams source_id ++ (a.callerRowStreams source_id).filter fun n =>
    !(a.allStreams source_id).contains n).filter accepts

theorem acceptedStreams_nodup : (a.acceptedStreams source_id accepts).Nodup := by
  have hnames : ((a.callerRowStreams source_id).filter fun n =>
      !(a.allStreams source_id).contains n).Nodup := (OrdMap.keys_nodup _).filter _
  refine List.Nodup.filter _ (List.Nodup.append (OrdMap.keys_nodup _) hnames fun n hn hn' => ?_)
  have hnew := (List.mem_filter.mp hn').2
  rw [Bool.not_eq_true', List.contains_eq_mem, decide_eq_false_iff_not] at hnew
  exact hnew hn

variable {a source_id accepts}

/-- A name that the pass does not list, though the predicate accepts it, is of nothing. -/
theorem mem_acceptedStreams {stream : String} (h : stream ∈ a.allStreams source_id ∨
    stream ∈ a.callerRowStreams source_id) :
    stream ∈ a.acceptedStreams source_id accepts ↔ accepts stream = true := by
  unfold acceptedStreams
  rw [List.mem_filter, List.mem_append, List.mem_filter]
  constructor
  · exact And.right
  · intro haccepts
    refine ⟨?_, haccepts⟩
    by_cases hall : stream ∈ a.allStreams source_id
    · exact .inl hall
    · exact .inr ⟨h.resolve_left hall, by simpa using hall⟩

/-- The pass reaches what it lists. -/
theorem sameReach_accepted : SameReach a
    (fun k => decide (k ∈ (a.acceptedStreams source_id accepts).map (streamKey source_id)))
    (acceptedReach source_id accepts) := by
  have hkey : ∀ k : StreamKey, ((ofLex k).1 = source_id → (ofLex k).2 ∈ a.allStreams source_id ∨
      (ofLex k).2 ∈ a.callerRowStreams source_id) →
      decide (k ∈ (a.acceptedStreams source_id accepts).map (streamKey source_id)) =
        acceptedReach source_id accepts k := by
    intro k hlisted
    unfold acceptedReach
    by_cases hk : (ofLex k).1 = source_id
    · have hmem : (ofLex k).2 ∈ a.acceptedStreams source_id accepts ↔ accepts (ofLex k).2 = true :=
        mem_acceptedStreams (hlisted hk)
      have hmap : k ∈ (a.acceptedStreams source_id accepts).map (streamKey source_id) ↔
          (ofLex k).2 ∈ a.acceptedStreams source_id accepts := by
        refine ⟨fun h => ?_, fun h => List.mem_map.mpr ⟨_, h, by rw [← hk]; rfl⟩⟩
        obtain ⟨stream, hstream, rfl⟩ := List.mem_map.mp h
        exact hstream
      rw [Bool.eq_iff_iff, decide_eq_true_eq, hmap, hmem, decide_eq_true hk, Bool.true_and]
    · have hnot : k ∉ (a.acceptedStreams source_id accepts).map (streamKey source_id) := by
        intro h
        obtain ⟨stream, -, rfl⟩ := List.mem_map.mp h
        exact hk rfl
      rw [decide_eq_false hnot, decide_eq_false hk]
      rfl
  refine ⟨fun k hk => hkey _ fun hid => .inl ?_, fun k hk => hkey _ fun hid => .inl ?_,
    fun e he => hkey _ fun hid => .inr ?_⟩
  · refine mem_distinct.mpr (List.mem_append.mpr (.inl ?_))
    exact List.mem_filterMap.mpr ⟨_, List.mem_map.mpr ⟨k, hk, rfl⟩, if_pos hid⟩
  · refine mem_distinct.mpr (List.mem_append.mpr (.inr ?_))
    exact List.mem_filterMap.mpr ⟨_, List.mem_map.mpr ⟨k, hk, rfl⟩, if_pos hid⟩
  · exact mem_distinct.mpr (List.mem_filterMap.mpr ⟨e, he, if_pos hid⟩)

/-- **A pass over the streams a predicate accepts, in closed form.** -/
theorem passOver_evictStreams (cutoff_ts : Int64) :
    PassOver a (a.evictStreams source_id cutoff_ts none (a.acceptedStreams source_id accepts))
      (acceptedReach source_id accepts) cutoff_ts :=
  (passOver_streams source_id cutoff_ts a _).congr sameReach_accepted

end Accepted

/-! ## What a pass leaves of a stream -/

section Streams

variable {a b : Archive} {reach : StreamKey → Bool} {cutoff_ts : Int64}
  {source_id : Int} {stream : String}

theorem PassOver.catalog (h : PassOver a b reach cutoff_ts) (k : StreamKey) :
    b.catalog k = (a.catalog k).filter fun _ s => !taken reach cutoff_ts k s.last := by
  unfold Archive.catalog
  rw [h.segments, OrdMap.group_filter]
  rfl

theorem PassOver.walOf (h : PassOver a b reach cutoff_ts) (k : StreamKey) :
    b.walOf k = (a.walOf k).filter fun ts _ => !taken reach cutoff_ts k ts := by
  unfold Archive.walOf
  rw [h.wal, OrdMap.group_filter]
  rfl

/-- A segment that stays keeps its index. -/
theorem PassOver.segmentIndex (h : PassOver a b reach cutoff_ts) {k : StreamKey} {seq : Nat}
    {s : SegmentCols} (hs : (b.catalog k).get? seq = some s) :
    b.segmentIndex k seq s = a.segmentIndex k seq s := by
  rw [h.catalog] at hs
  obtain ⟨ha, hkept⟩ := OrdMap.get?_filter_eq_some.mp hs
  have hrow : a.segments.get? (toLex (k, seq)) = some s := (OrdMap.get?_group _ _ _).symm.trans ha
  unfold Archive.segmentIndex
  rw [h.layout]
  cases a.layout with
  | table =>
      dsimp only
      rw [h.indexes, OrdMap.get?_filter, hrow]
      rcases a.segment_indexes.get? (toLex (k, seq)) with _ | index
      · rfl
      · rw [Option.filter_some]
        exact if_pos hkept
  | column => rfl
  | absent => rfl

/-- The segments that a pass leaves of a stream. -/
theorem PassOver.readSegments (h : PassOver a b reach cutoff_ts) :
    b.readSegments source_id stream = (a.readSegments source_id stream).filter fun s =>
      !taken reach cutoff_ts (streamKey source_id stream) s.seg_meta.last_ts := by
  unfold Archive.readSegments
  dsimp only
  rw [List.filter_map, h.catalog]
  refine List.map_congr_left fun e he => ?_
  have hget : (b.catalog (streamKey source_id stream)).get? e.1 = some e.2 := by
    rw [h.catalog]
    exact OrdMap.get?_eq_some.mpr he
  rw [h.segmentIndex hget]

theorem PassOver.readWal (h : PassOver a b reach cutoff_ts) :
    b.readWal source_id stream = (a.readWal source_id stream).filter fun r =>
      !taken reach cutoff_ts (streamKey source_id stream) r.ts := by
  unfold Archive.readWal
  rw [List.filter_map, h.walOf]
  rfl

/-- A pass lowers no watermark below a row that it leaves. -/
theorem PassOver.isLive (h : PassOver a b reach cutoff_ts) {k : StreamKey} {ts : Int64}
    (hkept : taken reach cutoff_ts k ts = false) : b.isLive k ts = a.isLive k ts := by
  rw [Bool.eq_iff_iff, isLive_iff, isLive_iff]
  constructor
  · intro hb s hs
    obtain ⟨seq, hseq⟩ := mem_runs.mp hs
    cases htaken : taken reach cutoff_ts k s.last with
    | false =>
        refine hb s (mem_runs.mpr ⟨seq, ?_⟩)
        rw [h.catalog]
        exact OrdMap.get?_filter_eq_some.mpr ⟨hseq, by rw [htaken]; rfl⟩
    | true =>
        -- the segment goes, so it ends before the cutoff, and the row is at or past it
        obtain ⟨hreach, hlast⟩ := Bool.and_eq_true_iff.mp htaken
        unfold taken at hkept
        rw [hreach, Bool.true_and, decide_eq_false_iff_not, not_lt] at hkept
        exact lt_of_lt_of_le (of_decide_eq_true hlast) hkept
  · intro ha s hs
    obtain ⟨seq, hseq⟩ := mem_runs.mp hs
    rw [h.catalog] at hseq
    exact ha s (mem_runs.mpr ⟨seq, (OrdMap.get?_filter_eq_some.mp hseq).1⟩)

/-- **The live rows that a pass leaves are the live rows it did not take.** -/
theorem PassOver.liveWal (h : PassOver a b reach cutoff_ts) :
    b.liveWal source_id stream = (a.liveWal source_id stream).filter fun r =>
      !taken reach cutoff_ts (streamKey source_id stream) r.ts := by
  have hlive : b.live (streamKey source_id stream) = (a.live (streamKey source_id stream)).filter
      fun ts _ => !taken reach cutoff_ts (streamKey source_id stream) ts := by
    unfold Archive.live
    rw [h.walOf, OrdMap.filter_filter, OrdMap.filter_filter]
    refine OrdMap.filter_congr fun ts _ _ => ?_
    cases htaken : taken reach cutoff_ts (streamKey source_id stream) ts with
    | false => rw [h.isLive htaken, Bool.and_comm]
    | true => rw [Bool.not_true, Bool.false_and, Bool.and_false]
  unfold Archive.liveWal
  rw [List.filter_map, hlive]
  rfl

/-! ### A stream that the pass does not reach -/

variable (h : PassOver a b reach cutoff_ts) (hreach : reach (streamKey source_id stream) = false)
include h hreach

theorem PassOver.readSegments_same :
    b.readSegments source_id stream = a.readSegments source_id stream := by
  rw [h.readSegments, List.filter_eq_self]
  intro s _
  unfold taken
  rw [hreach]
  rfl

theorem PassOver.readWal_same : b.readWal source_id stream = a.readWal source_id stream := by
  rw [h.readWal, List.filter_eq_self]
  intro r _
  unfold taken
  rw [hreach]
  rfl

theorem PassOver.readCallerRows_same (start end_ : Int64) :
    b.readCallerRows source_id stream start end_ = a.readCallerRows source_id stream start end_ := by
  unfold Archive.readCallerRows
  rw [h.caller_rows, List.filter_filter]
  congr 2
  refine List.filter_congr fun e _ => ?_
  by_cases he : e.1 = streamKey source_id stream
  · unfold taken
    rw [he, hreach, Bool.false_and, Bool.not_false, Bool.and_true]
  · simp [he]

end Streams

/-! ## What a pass reports -/

section Counts

variable {a b : Archive} {source_id : Int} {accepts : String → Bool} {cutoff_ts : Int64}

/-- The WAL rows that were live before a pass and are gone after it. -/
def liveDeleted (a b : Archive) : Nat :=
  (a.wal.keys.filter fun k => a.isLive (ofLex k).1 (ofLex k).2 && (b.wal.get? k).isNone).length

/-- The rows a pass takes are those that are gone. -/
theorem liveDeleted_eq {reach : StreamKey → Bool} (h : PassOver a b reach cutoff_ts) :
    liveDeleted a b = a.wal.keys.countP fun k => reach (ofLex k).1 &&
      (a.isLive (ofLex k).1 (ofLex k).2 && decide ((ofLex k).2 < cutoff_ts)) := by
  unfold liveDeleted
  rw [← List.countP_eq_length_filter]
  refine List.countP_congr fun k hk => ?_
  obtain ⟨row, hrow⟩ := OrdMap.mem_keys.mp hk
  have hgone : (b.wal.get? k).isNone = taken reach cutoff_ts (ofLex k).1 (ofLex k).2 := by
    rw [h.wal, OrdMap.get?_filter, hrow, Option.filter_some]
    cases taken reach cutoff_ts (ofLex k).1 (ofLex k).2 <;> rfl
  rw [hgone]
  unfold taken
  rw [Bool.and_left_comm]

/-- What a pass over a whole source counts. -/
theorem liveBefore_eq : a.liveBefore source_id cutoff_ts = a.wal.keys.countP fun k =>
    acceptedReach source_id (fun _ => true) (ofLex k).1 &&
      (a.isLive (ofLex k).1 (ofLex k).2 && decide ((ofLex k).2 < cutoff_ts)) := by
  unfold liveBefore
  rw [← List.countP_eq_length_filter]
  refine List.countP_congr fun k _ => ?_
  unfold acceptedReach
  rw [Bool.and_true, Bool.and_assoc, Bool.and_comm (a.isLive _ _)]

/-- What a pass over some streams counts, stream by stream. -/
theorem liveBeforeIn_eq : a.liveBeforeIn source_id cutoff_ts (a.acceptedStreams source_id accepts) =
    a.wal.keys.countP fun k => acceptedReach source_id accepts (ofLex k).1 &&
      (a.isLive (ofLex k).1 (ofLex k).2 && decide ((ofLex k).2 < cutoff_ts)) := by
  have hstream : ∀ stream, ((a.live (streamKey source_id stream)).keys.filter
      (· < cutoff_ts)).length = (a.wal.group (streamKey source_id stream)).keys.countP fun ts =>
        a.isLive (streamKey source_id stream) ts && decide (ts < cutoff_ts) := by
    intro stream
    unfold live walOf OrdMap.keys
    rw [← List.countP_eq_length_filter, OrdMap.entries_filter, List.countP_map, List.countP_map,
      List.countP_filter]
    refine List.countP_congr fun e _ => ?_
    simp only [Function.comp_apply, Bool.and_comm]
  have hnodup : ((a.acceptedStreams source_id accepts).map (streamKey source_id)).Nodup :=
    (acceptedStreams_nodup a source_id accepts).map fun n n' h => by simpa using h
  have hreach : ∀ k ∈ a.wal.keys, (acceptedReach source_id accepts (ofLex k).1 = true ↔
      (ofLex k).1 ∈ (a.acceptedStreams source_id accepts).map (streamKey source_id)) := by
    intro k hk
    rw [← sameReach_accepted.wal k hk]
    exact decide_eq_true_iff
  have hsum := OrdMap.sum_countP_group a.wal
    (fun k ts => a.isLive k ts && decide (ts < cutoff_ts)) hnodup hreach
  rw [List.map_map] at hsum
  unfold liveBeforeIn
  rw [List.map_congr_left fun stream _ => hstream stream]
  exact hsum

end Counts

end Archive

/-! ## The pass as the thread runs it -/

section Runs

variable {source_id : Int} {cutoff_ts : Int64} {accepts : String → Bool} {s : WriterState}

theorem goes_evictBefore : Prog.Goes (evictBefore source_id cutoff_ts none) s
    (fun counts s' => s.db.PassOver s'.db (Archive.acceptedReach source_id fun _ => true) cutoff_ts ∧
      counts = s.db.evictedCounts s'.db (s.db.liveBefore source_id cutoff_ts))
    fun _ _ => False := by
  unfold evictBefore
  refine Prog.Goes.bind (.pure (Q := fun names t => names = [] ∧ s = t) ⟨rfl, rfl⟩) ?_
  rintro _ s ⟨rfl, rfl⟩
  refine .bind (.state (Q := fun t t' => s = t ∧ s = t') ⟨rfl, rfl⟩) ?_
  rintro _ _ ⟨rfl, rfl⟩
  refine (goes_commit_ok (w := .evict source_id cutoff_ts none []) rfl).bind fun _ s' h => ?_
  refine .bind (.state (Q := fun t t' => t = s' ∧ t' = s') ⟨rfl, rfl⟩) ?_
  rintro _ _ ⟨rfl, rfl⟩
  refine .pure ⟨?_, rfl⟩
  rw [h.1]
  exact Archive.passOver_evict source_id cutoff_ts _

theorem goes_evictStreamsBefore : Prog.Goes (evictStreamsBefore source_id cutoff_ts accepts none) s
    (fun counts s' => s.db.PassOver s'.db (Archive.acceptedReach source_id accepts) cutoff_ts ∧
      counts = s.db.evictedCounts s'.db
        (s.db.liveBeforeIn source_id cutoff_ts (s.db.acceptedStreams source_id accepts)))
    fun _ _ => False := by
  unfold evictStreamsBefore
  refine Prog.Goes.bind (goes_query (f := fun a => .ok (a.allStreams source_id)) rfl) ?_
  rintro _ _ ⟨rfl, rfl⟩
  refine .bind (goes_query (f := fun a => .ok (a.callerRowStreams source_id)) rfl) ?_
  rintro _ s ⟨rfl, rfl⟩
  refine .bind (.state (Q := fun t t' => s = t ∧ s = t') ⟨rfl, rfl⟩) ?_
  rintro _ _ ⟨rfl, rfl⟩
  refine (goes_commit_ok (w := .evictStreams source_id cutoff_ts none
    (s.db.acceptedStreams source_id accepts)) rfl).bind fun _ s' h => ?_
  refine .bind (.state (Q := fun t t' => t = s' ∧ t' = s') ⟨rfl, rfl⟩) ?_
  rintro _ _ ⟨rfl, rfl⟩
  refine .pure ⟨?_, rfl⟩
  rw [h.1]
  exact Archive.passOver_evictStreams cutoff_ts

/-- A run in which nothing fails and nothing is refused returns. -/
theorem goes_returns {α : Type} {m : WriterM α} {Q : α → WriterState → Prop}
    (h : Prog.Goes m s Q fun _ _ => False) : ∃ r s', m s [] = (.ok r, s', []) ∧ Q r s' :=
  h.resolve_right fun ⟨_, _, _, hE⟩ => hE

/-- **Eviction resurrects nothing and stays in scope.** A pass over the streams a predicate
accepts leaves of each the live rows and the segments from the cutoff on, touches no other
stream, and reports as live the rows that were live and are gone; and where the predicate
accepts everything it does and reports what the pass over the source does. -/
theorem evictStreamsBefore_stays_in_scope (source_id : Int) (cutoff_ts : Int64)
    (accepts : String → Bool) (s : WriterState) :
    ∃ counts s', evictStreamsBefore source_id cutoff_ts accepts none s [] = (.ok counts, s', []) ∧
      (∀ stream, accepts stream = true →
        s'.db.liveWal source_id stream =
          (s.db.liveWal source_id stream).filter (fun r => cutoff_ts ≤ r.ts) ∧
        s'.db.readSegments source_id stream =
          (s.db.readSegments source_id stream).filter (fun g => cutoff_ts ≤ g.seg_meta.last_ts)) ∧
      (∀ id stream, ¬(id = source_id ∧ accepts stream = true) →
        s'.db.readSegments id stream = s.db.readSegments id stream ∧
        s'.db.readWal id stream = s.db.readWal id stream ∧
        ∀ start end_, s'.db.readCallerRows id stream start end_ =
          s.db.readCallerRows id stream start end_) ∧
      counts.live_rows = Archive.liveDeleted s.db s'.db ∧
      ((∀ stream, accepts stream = true) →
        ∃ s'', evictBefore source_id cutoff_ts none s [] = (.ok counts, s'', []) ∧
          s''.db.segments = s'.db.segments ∧ s''.db.segment_indexes = s'.db.segment_indexes ∧
          s''.db.wal = s'.db.wal ∧ s''.db.caller_rows = s'.db.caller_rows) := by
  obtain ⟨counts, s', hrun, hpass, hcounts⟩ := goes_returns
    (@goes_evictStreamsBefore source_id cutoff_ts accepts s)
  have hlive : s.db.liveBeforeIn source_id cutoff_ts (s.db.acceptedStreams source_id accepts) =
      Archive.liveDeleted s.db s'.db := by
    rw [Archive.liveBeforeIn_eq, Archive.liveDeleted_eq hpass]
  refine ⟨counts, s', hrun, fun stream haccepts => ?_, fun id stream hother => ?_, ?_, fun hall => ?_⟩
  · have hkept : ∀ ts, (!Archive.taken (Archive.acceptedReach source_id accepts) cutoff_ts
        (streamKey source_id stream) ts) = decide (cutoff_ts ≤ ts) := by
      intro ts
      have hreach : Archive.acceptedReach source_id accepts (streamKey source_id stream) = true := by
        simpa [Archive.acceptedReach] using haccepts
      unfold Archive.taken
      rw [hreach, Bool.true_and, ← decide_not]
      exact decide_eq_decide.mpr not_lt
    rw [hpass.liveWal, hpass.readSegments]
    simp only [hkept, and_self]
  · have hreach : Archive.acceptedReach source_id accepts (streamKey id stream) = false := by
      unfold Archive.acceptedReach
      rw [← Bool.not_eq_true, Bool.and_eq_true, decide_eq_true_eq]
      exact hother
    exact ⟨hpass.readSegments_same hreach, hpass.readWal_same hreach,
      hpass.readCallerRows_same hreach⟩
  · rw [hcounts, ← hlive]
    rfl
  · obtain rfl : accepts = fun _ => true := funext hall
    obtain ⟨counts', s'', hrun', hpass', hcounts'⟩ := goes_returns
      (@goes_evictBefore source_id cutoff_ts s)
    obtain ⟨hsegments, hindexes, hwal, hcaller⟩ := hpass'.unique hpass
    have hsame : counts' = counts := by
      have hlive' : s.db.liveBefore source_id cutoff_ts = Archive.liveDeleted s.db s'.db := by
        rw [Archive.liveBefore_eq, Archive.liveDeleted_eq hpass]
      rw [hcounts', hcounts, hlive, hlive']
      unfold Archive.evictedCounts
      rw [hsegments, hwal, hcaller]
    exact ⟨s'', hsame ▸ hrun', hsegments, hindexes, hwal, hcaller⟩

end Runs

end Dendro
