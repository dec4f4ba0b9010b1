import Dendro.Writer.Steps

/-!
# The writer, seen from one stream

Streams do not share rows, `seq`s or watermarks, so a step of the writer is, for each
stream, one of a few changes of that stream's own state: its catalog and its WAL in the
file, and the two numbers the thread keeps for it. `StreamStep` lists them, and
`WriterStep.stream` is the simulation: whatever the writer does, every stream makes one of
these steps.

What a step means for the rows a reader is owed is its `Effect`, read off the transaction.
-/

namespace Dendro

open Spans

/-- What the file and the thread hold of one stream. -/
structure StreamState where
  catalog : OrdMap Nat SegmentCols
  wal : OrdMap Int64 WalCols
  /-- The thread's next `seq`. -/
  next : Nat
  /-- What the thread takes for the newest sealed row. -/
  known : Option Int64

namespace StreamState

/-- The newest row of any segment. -/
def watermark (s : StreamState) : Option Int64 := newest SegmentCols.last s.catalog.values

/-- The rows past every segment. -/
def live (s : StreamState) : OrdMap Int64 WalCols :=
  s.wal.filter fun ts _ => beyond s.watermark ts

/-- The live rows as a reader of a stream gets them. -/
def liveRows (s : StreamState) (stream : String) : List WalRow :=
  s.live.entries.map fun e => Archive.toWalRow stream e.1 e.2

end StreamState

/-- The part of an archive and of a thread's caches that belongs to one stream. -/
def streamState (a : Archive) (m : Caches) (k : StreamKey) : StreamState where
  catalog := a.catalog k
  wal := a.walOf k
  next := (m.next_seq.get? k).getD 0
  known := m.watermarks.get? k

/-- The part of the writer's state that belongs to one stream. -/
abbrev WriterState.stream (s : WriterState) (k : StreamKey) : StreamState :=
  streamState s.db s.mem k

/-- What a transaction means for the rows a reader of a stream is owed. -/
inductive Effect where
  | none
  | rows (rows : List WalRow)
  | adopt (segment : Adopted)
  /-- Everything that ends before the cutoff goes. -/
  | cut (cutoff_ts : Int64)

/-- The effect of a transaction on one stream. -/
def Write.effect (k : StreamKey) : Write → Effect
  | .walRows ticks => .rows (tickRows ticks k)
  | .adopt source_id segment _ =>
    if streamKey source_id segment.stream = k then .adopt segment else .none
  | .evict source_id cutoff_ts _ _ => if (ofLex k).1 = source_id then .cut cutoff_ts else .none
  | .evictStreams source_id cutoff_ts _ streams =>
    if k ∈ streams.map (streamKey source_id) then .cut cutoff_ts else .none
  | _ => .none

/-- The catalog entries of a seal's parts. -/
def partEntries (layout : IndexLayout) (seq : Nat) (parts : List Segment) :
    List (Nat × SegmentCols) :=
  (parts.zipIdx seq).map fun p => (p.2, Archive.storedCols layout p.1.segMeta p.1.bytes p.1.index)

/-- What the writer can do to one stream while it handles a message. -/
inductive StreamStep (env : Env) (msg : Msg) (k : StreamKey) :
    Effect → StreamState → StreamState → Prop where
  | same {s : StreamState} : StreamStep env msg k .none s s
  | rows {s : StreamState} {rows : List WalRow} {wal : OrdMap Int64 WalCols} :
      (∀ r ∈ rows, r.stream = (ofLex k).2 ∧ beyond s.known r.ts = true) →
      wal.entries.Perm (rows.map (fun r => (r.ts, r.cols)) ++ s.wal.entries) →
      StreamStep env msg k (.rows rows) s { s with wal }
  | prune {s : StreamState} {upto_ts w : Int64} : s.watermark = some w → upto_ts ≤ w →
      StreamStep env msg k .none s
        { s with wal := s.wal.filter fun ts _ => !decide (ts ≤ upto_ts) }
  | cut {s : StreamState} {cutoff_ts : Int64} : StreamStep env msg k (.cut cutoff_ts) s
      { s with
        catalog := s.catalog.filter fun _ c => !decide (c.last < cutoff_ts)
        wal := s.wal.filter fun ts _ => !decide (ts < cutoff_ts) }
  | sealed {s : StreamState} {uuid : Option String} {init : List Segment} {tail : Segment}
      {layout : IndexLayout} :
      SealOf env.encoder ⟨(ofLex k).1, uuid, (ofLex k).2⟩ (s.liveRows (ofLex k).2)
        (init ++ [tail]) →
      StreamStep env msg k .none s
        { s with
          catalog := s.catalog.insertAll (partEntries layout s.next (init ++ [tail]))
          next := s.next + init.length + 1
          known := some tail.last_ts }
  | adopted {s : StreamState} {segment : Adopted} {layout : IndexLayout} :
      msg = .adoptSegment (ofLex k).1 segment → segment.stream = (ofLex k).2 →
      segment.seg_meta.rows ≠ 0 → segment.seg_meta.first_ts ≤ segment.seg_meta.last_ts →
      beyond s.known segment.seg_meta.first_ts = true →
      (∀ ts ∈ s.live.keys, segment.seg_meta.last_ts < ts) →
      StreamStep env msg k (.adopt segment) s
        { s with
          catalog := s.catalog.insert s.next (Archive.storedCols layout segment.seg_meta
            segment.bytes segment.caller_index)
          next := s.next + 1
          known := some segment.seg_meta.last_ts }

/-! ## The simulation -/

section Simulation

variable {env : Env} {msg : Msg} {s s' : WriterState} {k : StreamKey}

theorem Archive.isLive_eq (a : Archive) (k : StreamKey) (ts : Int64) :
    a.isLive k ts = beyond (a.watermark k) ts := by
  rw [isLive]
  cases a.watermark k <;> rfl

theorem stream_live (s : WriterState) (k : StreamKey) : (s.stream k).live = s.db.live k := by
  unfold StreamState.live Archive.live
  congr 1
  funext ts _
  exact (Archive.isLive_eq s.db k ts).symm

theorem stream_liveRows (s : WriterState) (k : StreamKey) :
    (s.stream k).liveRows (ofLex k).2 = s.db.liveWal (ofLex k).1 (ofLex k).2 := by
  unfold StreamState.liveRows Archive.liveWal
  rw [stream_live]
  rfl

/-- A stream that reads the same and is known the same is in the same state. -/
theorem stream_congr {a a' : Archive} {m m' : Caches} (hsame : Archive.Same a a' k)
    (hn : m'.next_seq.get? k = m.next_seq.get? k)
    (hw : m'.watermarks.get? k = m.watermarks.get? k) :
    streamState a' m' k = streamState a m k := by
  simp only [streamState, hsame.catalog, hsame.wal, hn, hw]

/-! ### What a seal numbers -/

@[simp] theorem numbered_nil (stream : String) (n : Nat) : numbered stream n [] = [] := rfl

@[simp] theorem numbered_cons (stream : String) (n : Nat) (p : Segment) (ps : List Segment) :
    numbered stream n (p :: ps) = encodedPart stream n p :: numbered stream (n + 1) ps := rfl

theorem numbered_stream {stream : String} {parts : List Segment} : ∀ {n : Nat},
    ∀ e ∈ numbered stream n parts, e.stream = stream := by
  induction parts with
  | nil => intro n e he; exact absurd he (by simp)
  | cons p ps ih =>
      intro n e he
      rw [numbered_cons] at he
      rcases List.mem_cons.mp he with rfl | he
      · rfl
      · exact ih e he

theorem numbered_append (stream : String) (ps qs : List Segment) : ∀ n : Nat,
    numbered stream n (ps ++ qs) =
      numbered stream n ps ++ numbered stream (n + ps.length) qs := by
  induction ps with
  | nil => intro n; simp
  | cons p ps ih =>
      intro n
      rw [List.cons_append, numbered_cons, numbered_cons, ih, List.cons_append, List.length_cons,
        Nat.add_right_comm n 1, Nat.add_assoc]

theorem numbered_entries (layout : IndexLayout) (stream : String) (parts : List Segment) :
    ∀ n : Nat, (numbered stream n parts).map (Archive.entry layout) = partEntries layout n parts := by
  induction parts with
  | nil => intro n; rfl
  | cons p ps ih => intro n; rw [numbered_cons, List.map_cons, ih]; rfl

/-- A list where only one name gives anything gives it once for each time it is named. -/
theorem flatMap_single {α β : Type} [DecidableEq α] (f : α → List β) (a : α) :
    ∀ as : List α, (as.flatMap fun x => if x = a then f a else []) =
      (List.replicate (as.count a) (f a)).flatten
  | [] => rfl
  | x :: as => by
      rw [List.flatMap_cons, flatMap_single f a as, List.count_cons]
      by_cases hx : x = a
      · simp [hx, List.replicate_succ]
      · simp [hx]

/-- The segments of one stream in a batch: its parts, once for each time it is named. -/
theorem SealPlan.filter_eq {source_id : Int} {batch : List String} {encoded : List Encoded}
    {parts : String → List Segment} (plan : SealPlan env s source_id batch encoded parts)
    (k : StreamKey) : (encoded.filter fun e => streamKey source_id e.stream = k) =
      if source_id = (ofLex k).1 then (List.replicate (batch.count (ofLex k).2)
        (numbered (ofLex k).2 (s.stream k).next (parts (ofLex k).2))).flatten
      else [] := by
  split
  · rename_i hsource
    subst hsource
    have hkey : ∀ stream, streamKey (ofLex k).1 stream = k ↔ stream = (ofLex k).2 := by
      intro stream
      exact ⟨fun h => congrArg (fun k => (ofLex k).2) h, fun h => by rw [h]; rfl⟩
    rw [plan.encoded_eq, List.filter_flatMap]
    refine Eq.trans ?_ (flatMap_single (fun stream =>
      numbered stream (nextSeq s.mem (ofLex k).1 stream) (parts stream)) (ofLex k).2 batch)
    congr 1
    funext stream
    simp only [hkey]
    by_cases hstream : stream = (ofLex k).2
    · rw [if_pos hstream, hstream]
      exact List.filter_eq_self.mpr fun e he => by simpa using numbered_stream e he
    · rw [if_neg hstream]
      refine List.filter_eq_nil_iff.mpr fun e he => ?_
      simpa [numbered_stream e he] using hstream
  · rename_i hsource
    refine List.filter_eq_nil_iff.mpr fun e _ => ?_
    simp only [decide_eq_true_eq]
    rintro rfl
    exact hsource rfl

/-- The segments of one stream in a batch: a seal of its live rows, numbered from its next
`seq`, whenever no `seq` was used twice. -/
theorem SealPlan.filter {source_id : Int} {batch : List String} {encoded : List Encoded}
    {parts : String → List Segment} (plan : SealPlan env s source_id batch encoded parts)
    (hnd : ((encoded.filter fun e => streamKey source_id e.stream = k).map (·.seq)).Nodup) :
    ∃ uuid ps, SealOf env.encoder ⟨(ofLex k).1, uuid, (ofLex k).2⟩
        ((s.stream k).liveRows (ofLex k).2) ps ∧
      (encoded.filter fun e => streamKey source_id e.stream = k) =
        numbered (ofLex k).2 (s.stream k).next ps := by
  rw [plan.filter_eq k] at hnd ⊢
  split
  · rename_i hsource
    subst hsource
    rw [if_pos rfl] at hnd
    obtain ⟨uuid, hseal⟩ := plan.sealOf (ofLex k).2
    rw [← stream_liveRows] at hseal
    -- a stream named twice would use its first `seq` twice
    match hcount : batch.count (ofLex k).2 with
    | 0 => exact ⟨uuid, [], .inl rfl, by simp⟩
    | 1 => exact ⟨uuid, _, hseal, by simp⟩
    | n + 2 =>
        refine ⟨uuid, [], .inl rfl, ?_⟩
        rw [hcount] at hnd
        rcases hps : parts (ofLex k).2 with _ | ⟨p, ps⟩
        · simp
        · rw [hps] at hnd
          simp [List.replicate_succ, encodedPart] at hnd
  · exact ⟨none, [], .inl rfl, rfl⟩

/-! ### The caches after a seal -/

theorem sealed_next_seq (source_id : Int) : ∀ (encoded : List Encoded) (m : Caches),
    (sealed source_id m encoded).next_seq =
      m.next_seq.insertAll (encoded.map fun e => (streamKey source_id e.stream, e.seq + 1))
  | [], _ => rfl
  | _ :: es, _ => sealed_next_seq source_id es _

theorem sealed_watermarks (source_id : Int) : ∀ (encoded : List Encoded) (m : Caches),
    (sealed source_id m encoded).watermarks =
      m.watermarks.insertAll (encoded.map fun e =>
        (streamKey source_id e.stream, e.seg_meta.last_ts))
  | [], _ => rfl
  | _ :: es, _ => sealed_watermarks source_id es _

/-- A map after one insert for each segment holds a stream's last segment, or what it held. -/
theorem get?_insertAll_encoded {β : Type} (m : OrdMap StreamKey β) (source_id : Int)
    (encoded : List Encoded) (f : Encoded → β) (k : StreamKey) :
    (m.insertAll (encoded.map fun e => (streamKey source_id e.stream, f e))).get? k =
      ((encoded.filter fun e => streamKey source_id e.stream = k).getLast?.map f).or
        (m.get? k) := by
  rw [OrdMap.get?_insertAll, List.filter_map, List.getLast?_map, Option.map_map]
  rfl

/-- What a committed seal is for one of the streams. -/
theorem stream_sealed {source_id : Int} {batch : List String} {encoded : List Encoded}
    {parts : String → List Segment} {db : Archive}
    (plan : SealPlan env s source_id batch encoded parts)
    (hsealed : s.db.Sealed db source_id encoded)
    (hcat : s'.db.catalog k = db.catalog k) (hwal : s'.db.walOf k = db.walOf k)
    (hmem : s'.mem = sealed source_id s.mem encoded) :
    StreamStep env msg k .none (s.stream k) (s'.stream k) := by
  have hseqs := hsealed.fresh.nodup k
  rw [Archive.entries, List.map_map] at hseqs
  obtain ⟨uuid, ps, hseal, hfilter⟩ := plan.filter hseqs
  have hcatalog : s'.db.catalog k =
      (s.db.catalog k).insertAll (partEntries s.db.layout (s.stream k).next ps) := by
    rw [hcat, hsealed.catalog, Archive.entries, hfilter, numbered_entries]
  have hwal' : s'.db.walOf k = s.db.walOf k := by rw [hwal, hsealed.frame]; rfl
  have hnext : s'.mem.next_seq.get? k =
      ((numbered (ofLex k).2 (s.stream k).next ps).getLast?.map (·.seq + 1)).or
        (s.mem.next_seq.get? k) := by
    rw [hmem, sealed_next_seq, get?_insertAll_encoded, hfilter]
  have hknown : s'.mem.watermarks.get? k =
      ((numbered (ofLex k).2 (s.stream k).next ps).getLast?.map (·.seg_meta.last_ts)).or
        (s.mem.watermarks.get? k) := by
    rw [hmem, sealed_watermarks, get?_insertAll_encoded, hfilter]
  rcases List.eq_nil_or_concat ps with rfl | ⟨init, tail, rfl⟩
  · have : s'.stream k = s.stream k := stream_congr ⟨hcatalog, hwal'⟩ hnext hknown
    rw [this]
    exact .same
  · rw [List.concat_eq_append] at hseal hcatalog hnext hknown
    rw [numbered_append, numbered_cons, numbered_nil, List.getLast?_concat] at hnext hknown
    have : s'.stream k = { s.stream k with
        catalog := (s.stream k).catalog.insertAll
          (partEntries s.db.layout (s.stream k).next (init ++ [tail]))
        next := (s.stream k).next + init.length + 1
        known := some tail.last_ts } := by
      unfold WriterState.stream streamState
      rw [hcatalog, hwal', hnext, hknown]
      rfl
    rw [this]
    exact .sealed hseal

/-! ### Every step -/

/-- A step of one stream with what it records: nothing, or the transaction it is the effect
of. -/
def StreamRecord (env : Env) (msg : Msg) (k : StreamKey) (s s' : WriterState) : Prop :=
  (s'.disk.log = s.disk.log ∧ StreamStep env msg k .none (s.stream k) (s'.stream k)) ∨
    ∃ w, s'.disk.log = s.disk.log ++ [(s.db, w)] ∧
      StreamStep env msg k (w.effect k) (s.stream k) (s'.stream k)

/-- A transaction that was refused is no step of any stream. -/
theorem record_run {w : Write} (h : ∀ db, w.apply s.db = .ok db →
    StreamStep env msg k (w.effect k) (s.stream k) (streamState db s.mem k)) :
    StreamRecord env msg k s (s.run w) := by
  rcases ha : w.apply s.db with e | db
  · rw [run_of_error ha]
    exact .inl ⟨rfl, .same⟩
  · rw [run_of_ok ha]
    exact .inr ⟨w, rfl, h db ha⟩

/-- A transaction that leaves a stream as it is. -/
theorem stream_same {db : Archive} (h : Archive.Same s.db db k) :
    StreamStep env msg k .none (s.stream k) (streamState db s.mem k) := by
  rw [stream_congr h rfl rfl]
  exact .same

theorem stream_cut {db : Archive} {cutoff_ts : Int64} (h : Archive.CutAt s.db db k cutoff_ts) :
    StreamStep env msg k (.cut cutoff_ts) (s.stream k) (streamState db s.mem k) := by
  have : streamState db s.mem k = { s.stream k with
      catalog := (s.stream k).catalog.filter fun _ c => !decide (c.last < cutoff_ts)
      wal := (s.stream k).wal.filter fun ts _ => !decide (ts < cutoff_ts) } := by
    simp only [streamState, h.catalog, h.wal]
  rw [this]
  exact .cut

/-- A row that is not shadowed is past what the thread takes for its stream's watermark. -/
theorem beyond_of_not_shadows {m : Caches} {source_id : Int} {r : WalRow}
    (h : shadows m source_id r = false) :
    beyond (m.watermarks.get? (streamKey source_id r.stream)) r.ts = true := by
  unfold shadows at h
  rcases hw : m.watermarks.get? (streamKey source_id r.stream) with _ | w
  · rfl
  · rw [hw] at h
    exact beyond_some.mpr (not_le.mp (by simpa using h))

/-- A segment that may be adopted ends before every live row of its stream. -/
theorem AdoptPlan.lt_live {source_id : Int} {segment : Adopted}
    (plan : AdoptPlan s source_id segment) {ts : Int64}
    (hts : ts ∈ (s.db.live (streamKey source_id segment.stream)).keys) :
    segment.seg_meta.last_ts < ts := by
  have hspan : (s.db.liveWalSpan source_id segment.stream).first_ts =
    (s.db.live (streamKey source_id segment.stream)).keys.min? := rfl
  rcases hmin : (s.db.live (streamKey source_id segment.stream)).keys.min? with _ | first
  · rw [List.min?_eq_none_iff] at hmin
    exact absurd hts (by simp [hmin])
  · calc segment.seg_meta.last_ts < first := plan.before_live first (hspan.trans hmin)
      _ ≤ ts := (List.min?_eq_some_iff.mp hmin).2 ts hts

/-- An adopted segment, seen from its own stream. -/
theorem stream_adopted {source_id : Int} {segment : Adopted} {db : Archive}
    (hmsg : msg = .adoptSegment source_id segment) (plan : AdoptPlan s source_id segment)
    (hdb : (Write.adopt source_id segment (nextSeq s.mem source_id segment.stream)).apply s.db
      = .ok db) (hk : streamKey source_id segment.stream = k) :
    StreamStep env msg k (.adopt segment) (s.stream k) (streamState db
      (adopted source_id segment (nextSeq s.mem source_id segment.stream) s.mem) k) := by
  subst hk
  obtain ⟨-, hframe⟩ := Archive.insertSegment_ok hdb
  have : streamState db (adopted source_id segment (nextSeq s.mem source_id segment.stream) s.mem)
      (streamKey source_id segment.stream) = { s.stream (streamKey source_id segment.stream) with
        catalog := (s.stream (streamKey source_id segment.stream)).catalog.insert
          (s.stream (streamKey source_id segment.stream)).next
          (Archive.storedCols s.db.layout segment.seg_meta segment.bytes segment.caller_index)
        next := (s.stream (streamKey source_id segment.stream)).next + 1
        known := some segment.seg_meta.last_ts } := by
    have hcat : db.catalog (streamKey source_id segment.stream) = _ :=
      (congrArg (fun a : Archive => a.catalog _) hframe).trans (OrdMap.group_insert_self _ _ _ _)
    have hwal : db.walOf (streamKey source_id segment.stream) =
        s.db.walOf (streamKey source_id segment.stream) := by
      rw [hframe]; rfl
    simp only [streamState, hcat, hwal, adopted, OrdMap.get?_insert_self]
    rfl
  rw [this]
  refine .adopted hmsg rfl plan.rows plan.span ?_ ?_
  · show beyond (s.mem.watermarks.get? (streamKey source_id segment.stream)) _ = true
    rcases hw : s.mem.watermarks.get? (streamKey source_id segment.stream) with _ | w
    · rfl
    · exact beyond_some.mpr (plan.past w hw)
  · intro ts hts
    rw [stream_live] at hts
    exact plan.lt_live hts

/-- **Whatever the writer does, every stream makes one of its own steps.** -/
theorem WriterStep.stream (h : WriterStep env msg s s') (k : StreamKey) :
    StreamRecord env msg k s s' := by
  cases h with
  | memory hm =>
      have hn := congrArg (fun m => m.1.get? k) hm
      have hw := congrArg (fun m => m.2.1.get? k) hm
      refine .inl ⟨rfl, ?_⟩
      rw [WriterState.stream, WriterState.stream, stream_congr (m := s.mem)
        (Archive.Same.refl _ _) hn hw]
      exact .same
  | resumed _ hn hw _ =>
      refine .inl ⟨rfl, ?_⟩
      rw [WriterState.stream, WriterState.stream, stream_congr (m := s.mem)
        (Archive.Same.refl _ _) (congrArg (OrdMap.get? · k) hn) (congrArg (OrdMap.get? · k) hw)]
      exact .same
  | @beside w hw =>
      have heff : w.effect k = .none := by
        cases w <;> first | rfl | exact absurd hw (by simp [Write.beside])
      exact record_run fun db hdb => heff ▸ stream_same (w.beside_same hw hdb k)
  | @walRows asked ticks _ _ _ hlive =>
      refine record_run fun db hdb => ?_
      have happ := Archive.appended_insertWalRowsBatch hdb
      have hcat : db.catalog k = s.db.catalog k := by rw [happ.frame]; rfl
      have : streamState db s.mem k = { s.stream k with wal := db.walOf k } := by
        simp only [streamState, hcat]
      rw [this]
      refine .rows (fun r hr => ?_) (happ.wal k)
      obtain ⟨t, ht, hr⟩ := List.mem_flatMap.mp hr
      obtain ⟨hrt, hk⟩ := List.mem_filter.mp hr
      obtain rfl : streamKey t.1 r.stream = k := by simpa using hk
      exact ⟨rfl, beyond_of_not_shadows (hlive t ht r hrt)⟩
  | @prune source_id stream upto_ts w hw hle =>
      refine record_run fun db hdb => ?_
      obtain rfl := Except.ok.inj hdb
      by_cases hk : streamKey source_id stream = k
      · subst hk
        have : streamState (s.db.pruneWal source_id stream upto_ts) s.mem
            (streamKey source_id stream) = { s.stream (streamKey source_id stream) with
              wal := (s.stream (streamKey source_id stream)).wal.filter
                fun ts _ => !decide (ts ≤ upto_ts) } := by
          simp only [streamState, Archive.pruneWal_wal]
          rfl
        rw [this]
        exact .prune (w := w) hw hle
      · exact stream_same (Archive.pruneWal_same hk)
  | evict source_id cutoff_ts floor names =>
      refine record_run fun db hdb => ?_
      obtain rfl := Except.ok.inj hdb
      by_cases hk : (ofLex k).1 = source_id
      · rw [show Write.effect k (.evict source_id cutoff_ts floor names) = .cut cutoff_ts from
          if_pos hk]
        exact stream_cut (Archive.evict_cut hk)
      · rw [show Write.effect k (.evict source_id cutoff_ts floor names) = .none from if_neg hk]
        exact stream_same (Archive.evict_same hk)
  | evictStreams source_id cutoff_ts floor streams =>
      refine record_run fun db hdb => ?_
      obtain rfl := Except.ok.inj hdb
      by_cases hk : k ∈ streams.map (streamKey source_id)
      · rw [show Write.effect k (.evictStreams source_id cutoff_ts floor streams) =
          .cut cutoff_ts from if_pos hk]
        exact stream_cut (Archive.evictStreams_cut.1 hk)
      · rw [show Write.effect k (.evictStreams source_id cutoff_ts floor streams) = .none from
          if_neg hk]
        exact stream_same (Archive.evictStreams_cut.2 hk)
  | @sealed source_id batch encoded parts observation db _ plan _ hdb =>
      refine .inr ⟨_, by rw [run_of_ok hdb], ?_⟩
      obtain ⟨b, hsealed, hsame⟩ := seal_apply_ok hdb
      refine stream_sealed plan hsealed ?_ ?_ rfl
      · rw [show WriterState.db _ = db by rw [run_of_ok hdb]]
        exact (hsame k).catalog
      · rw [show WriterState.db _ = db by rw [run_of_ok hdb]]
        exact (hsame k).wal
  | sealRefused _ plan he =>
      rw [run_of_error he]
      exact .inl ⟨rfl, .same⟩
  | @adopted source_id segment db hmsg plan hdb =>
      refine .inr ⟨_, by rw [run_of_ok hdb], ?_⟩
      have hdb' : (s.run (.adopt source_id segment
          (nextSeq s.mem source_id segment.stream))).db = db := by rw [run_of_ok hdb]
      show StreamStep env msg k _ (s.stream k) (streamState (s.run _).db _ k)
      rw [hdb']
      by_cases hk : streamKey source_id segment.stream = k
      · rw [show Write.effect k (.adopt source_id segment _) = .adopt segment from if_pos hk]
        exact stream_adopted hmsg plan hdb hk
      · rw [show Write.effect k (.adopt source_id segment _) = .none from if_neg hk]
        have hframe := (Archive.insertSegment_ok hdb).2
        have hsame : Archive.Same s.db db k :=
          ⟨(congrArg (fun a : Archive => a.catalog k) hframe).trans
            (OrdMap.group_insert_ne _ _ _ (Ne.symm hk)), by rw [hframe]; rfl⟩
        have hstream : streamState db
            (Dendro.adopted source_id segment (nextSeq s.mem source_id segment.stream) s.mem) k =
              s.stream k :=
          stream_congr hsame (OrdMap.get?_insert_ne _ _ (Ne.symm hk))
            (OrdMap.get?_insert_ne _ _ (Ne.symm hk))
        rw [hstream]
        exact .same
  | adoptRefused hmsg plan he =>
      rw [run_of_error he]
      exact .inl ⟨rfl, .same⟩

end Simulation

end Dendro
