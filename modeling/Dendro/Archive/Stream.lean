import Dendro.Archive.Disk
import Dendro.Lib.Fallible
import Dendro.Lib.Spans

/-!
# What the transactions do to one stream

Everything a reader sees of a stream comes from two parts of the file: the stream's catalog
and its part of the `wal` table. For each transaction one lemma says what it does to these
two for every stream, and the rest of the development never unfolds a statement.

The catalog of a stream is a sequence of runs in the sense of `Spans`, and its watermark is
the newest point any of them reaches.
-/

namespace Dendro

open Spans

/-- Where a segment starts. -/
abbrev SegmentCols.first (s : SegmentCols) : Int64 := s.seg_meta.first_ts

/-- Where a segment ends. -/
abbrev SegmentCols.last (s : SegmentCols) : Int64 := s.seg_meta.last_ts

/-- The layout of a stream's segments. -/
structure Layout (runs : List SegmentCols) : Prop where
  rows : ∀ c ∈ runs, 1 ≤ c.seg_meta.rows.toNat
  laid : Laid SegmentCols.first SegmentCols.last runs

theorem Layout.sublist {runs runs' : List SegmentCols} (h : Layout runs)
    (hs : runs'.Sublist runs) : Layout runs' :=
  ⟨fun c hc => h.rows c (hs.subset hc), h.laid.sublist hs⟩

/-- Runs laid end to end past a layout extend it. -/
theorem Layout.append {runs runs' : List SegmentCols} (h : Layout runs) (h' : Layout runs')
    (hb : ∀ c ∈ runs, ∀ c' ∈ runs', c.last < c'.first) : Layout (runs ++ runs') :=
  ⟨fun c hc => (List.mem_append.mp hc).elim (h.rows c) (h'.rows c), h.laid.append h'.laid hb⟩

/-- A row without its key. -/
def WalRow.cols (r : WalRow) : WalCols := { wall_offset := r.wall_offset, row := r.row }

/-- The rows of a batch of ticks that belong to one stream. -/
def tickRows (ticks : List (Int × List WalRow)) (k : StreamKey) : List WalRow :=
  ticks.flatMap fun t => t.2.filter fun r => streamKey t.1 r.stream = k

namespace Archive

/-- The segments of a stream, in `seq` order. -/
abbrev runs (a : Archive) (k : StreamKey) : List SegmentCols := (a.catalog k).values

/-- The caller's rows of one name, in insertion order. -/
def callerRowsOf (a : Archive) (k : StreamKey) : List CallerRow :=
  (a.caller_rows.filter fun e => e.1 = k).map Prod.snd

theorem watermark_eq (a : Archive) (k : StreamKey) :
    a.watermark k = newest SegmentCols.last (a.runs k) := rfl

/-- **A row is live iff it is past every segment of its stream.** -/
theorem isLive_iff {a : Archive} {k : StreamKey} {ts : Int64} :
    a.isLive k ts = true ↔ ∀ s ∈ a.runs k, s.last < ts := by
  rw [← beyond_newest, ← watermark_eq, isLive]
  cases a.watermark k <;> simp

theorem mem_runs {a : Archive} {k : StreamKey} {s : SegmentCols} :
    s ∈ a.runs k ↔ ∃ seq, (a.catalog k).get? seq = some s := by
  simp [runs, OrdMap.values, OrdMap.get?_eq_some]

/-! ## Names -/

theorem mem_distinct {name : String} {names : List String} :
    name ∈ distinct names ↔ name ∈ names := by
  have hfun : names.map (·, ()) = names.filterMap fun n => (some ()).map (n, ·) := by
    simp
  rw [distinct, OrdMap.mem_keys, hfun, OrdMap.get?_ofList_filterMap fun _ => some ()]
  simp

/-- A stream that is not listed holds nothing. -/
theorem of_not_mem_allStreams {a : Archive} {source_id : Int} {stream : String}
    (h : stream ∉ a.allStreams source_id) :
    (∀ seq c, (a.catalog (streamKey source_id stream)).get? seq ≠ some c) ∧
      ∀ ts c, (a.walOf (streamKey source_id stream)).get? ts ≠ some c := by
  have hlisted : ∀ {α : Type} {σ : Type} [LinearOrder σ] (m : OrdMap (StreamKey ×ₗ σ) α) (x : σ) (v : α),
      (m.group (streamKey source_id stream)).get? x = some v →
        stream ∈ (m.keys.map fun k => ofLex (ofLex k).1).filterMap fun k =>
          if k.1 = source_id then some k.2 else none := by
    intro α σ _ m x v hv
    rw [OrdMap.get?_group] at hv
    refine List.mem_filterMap.mpr ⟨(source_id, stream), List.mem_map.mpr ⟨_, OrdMap.mem_keys.mpr
      ⟨v, hv⟩, rfl⟩, if_pos rfl⟩
  refine ⟨fun seq c hc => h ?_, fun ts c hc => h ?_⟩
  · exact mem_distinct.mpr (List.mem_append.mpr (.inl (hlisted a.segments seq c hc)))
  · exact mem_distinct.mpr (List.mem_append.mpr (.inr (hlisted a.wal ts c hc)))

/-! ## Rows -/

theorem insertWalRow_ok {a a' : Archive} {source_id : Int} {r : WalRow}
    (h : insertWalRow source_id a r = .ok a') :
    a.wal.get? (toLex (streamKey source_id r.stream, r.ts)) = none ∧
      a' = { a with wal := a.wal.insert (toLex (streamKey source_id r.stream, r.ts)) r.cols } := by
  unfold insertWalRow at h
  dsimp only at h
  split at h
  · simp [throw, throwThe, MonadExceptOf.throw] at h
  · rename_i hnew
    simp only [Except.bind_eq_ok, Except.pure_eq_ok] at h
    obtain ⟨-, -, h⟩ := h
    exact ⟨by simpa using hnew, h.symm⟩

/-- What a run of row inserts does to the WAL of every stream; nothing else changes. -/
structure Appended (a a' : Archive) (rows : StreamKey → List WalRow) : Prop where
  frame : a' = { a with wal := a'.wal }
  wal : ∀ k, (a'.walOf k).entries.Perm
    ((rows k).map (fun r => (r.ts, r.cols)) ++ (a.walOf k).entries)

theorem Appended.refl (a : Archive) : Appended a a fun _ => [] :=
  ⟨rfl, fun _ => .refl _⟩

theorem Appended.trans {a b c : Archive} {rows rows' : StreamKey → List WalRow}
    (h : Appended a b rows) (h' : Appended b c rows') :
    Appended a c fun k => rows k ++ rows' k where
  frame := by rw [h'.frame, h.frame]
  wal k := by
    refine (h'.wal k).trans (((h.wal k).append_left _).trans ?_)
    rw [← List.append_assoc, List.map_append]
    exact List.perm_append_comm.append_right _

theorem appended_insertWalRow {a a' : Archive} {source_id : Int} {r : WalRow}
    (h : insertWalRow source_id a r = .ok a') :
    Appended a a' fun k => if streamKey source_id r.stream = k then [r] else [] := by
  obtain ⟨hnew, rfl⟩ := insertWalRow_ok h
  refine ⟨rfl, fun k => ?_⟩
  by_cases hk : streamKey source_id r.stream = k
  · subst hk
    simp only [walOf, OrdMap.group_insert_self, if_true, List.map_cons, List.map_nil]
    exact OrdMap.perm_insert _ (by simpa using hnew)
  · simp only [walOf, if_neg hk, List.map_nil, List.nil_append]
    rw [OrdMap.group_insert_ne _ _ _ (Ne.symm hk)]

theorem appended_insertWalRows {source_id : Int} : ∀ {rows : List WalRow} {a a' : Archive},
    insertWalRows source_id rows a = .ok a' →
      Appended a a' fun k => rows.filter fun r => streamKey source_id r.stream = k
  | [], a, a', h => by
      obtain rfl := Except.ok.inj h
      exact .refl a
  | r :: rows, a, a', h => by
      obtain ⟨b, hr, h'⟩ := Except.foldlM_cons_eq_ok.mp h
      have hall := (appended_insertWalRow hr).trans (appended_insertWalRows h')
      refine ⟨hall.frame, fun k => (hall.wal k).trans (.of_eq ?_)⟩
      by_cases hk : streamKey source_id r.stream = k <;> simp [hk]

/-- **A tick adds its rows to the WAL of their streams.** -/
theorem appended_insertWalRowsBatch : ∀ {ticks : List (Int × List WalRow)} {a a' : Archive},
    insertWalRowsBatch ticks a = .ok a' → Appended a a' (tickRows ticks)
  | [], a, a', h => by
      obtain rfl := Except.ok.inj h
      exact .refl a
  | t :: ticks, a, a', h => by
      obtain ⟨b, hr, h'⟩ := Except.foldlM_cons_eq_ok.mp h
      exact (appended_insertWalRows hr).trans (appended_insertWalRowsBatch h')

/-! ## Segments -/

/-- The columns of a segment as a layout stores them. -/
def storedCols (layout : IndexLayout) (seg_meta : SegmentMeta) (bytes : Bytes)
    (caller_index : Option Bytes) : SegmentCols :=
  { seg_meta, bytes, caller_index := if layout = .column then caller_index else none }

theorem insertSegment_ok {a a' : Archive} {source_id : Int} {stream : String} {seq : Nat}
    {m : SegmentMeta} {bytes : Bytes} {ci : Option Bytes}
    (h : a.insertSegment source_id stream seq m bytes ci = .ok a') :
    a.segments.get? (toLex (streamKey source_id stream, seq)) = none ∧
      a' = { a with
        segments := a.segments.insert (toLex (streamKey source_id stream, seq))
          (storedCols a.layout m bytes ci)
        segment_indexes := a'.segment_indexes } := by
  unfold insertSegment at h
  dsimp only at h
  split at h
  · simp [throw, throwThe, MonadExceptOf.throw] at h
  · rename_i hnew
    refine ⟨by simpa using hnew, ?_⟩
    simp only [Except.bind_eq_ok] at h
    obtain ⟨-, -, h⟩ := h
    split at h <;> rename_i hl <;> obtain rfl := Except.ok.inj h <;> simp [storedCols, hl]

/-- An insert is refused over its primary key only where there is a row at the key. -/
theorem insertSegment_unique {a : Archive} {source_id : Int} {stream : String} {seq : Nat}
    {m : SegmentMeta} {bytes : Bytes} {ci : Option Bytes} {e : Error}
    (h : a.insertSegment source_id stream seq m bytes ci = .error e) :
    (∃ s, (a.catalog (streamKey source_id stream)).get? seq = some s) ∨
      ∃ context, e = foreignKeyError context := by
  unfold insertSegment at h
  dsimp only at h
  split at h
  · rename_i hs
    exact .inl (by simpa [catalog] using Option.isSome_iff_exists.mp hs)
  · simp only [Except.bind_eq_error] at h
    rcases h with h | ⟨u, -, h⟩
    · unfold checkSource at h
      split at h
      · exact absurd h (by simp)
      · exact .inr ⟨_, (Except.error.inj h).symm⟩
    · split at h <;> exact absurd h (by simp)

/-- The entry an encoded segment makes in the catalog of its stream. -/
def entry (layout : IndexLayout) (e : Encoded) : Nat × SegmentCols :=
  (e.seq, storedCols layout e.seg_meta e.bytes e.caller_index)

/-- The entries a list of encoded segments of one source makes in a stream's catalog. -/
def entries (layout : IndexLayout) (source_id : Int) (encoded : List Encoded) (k : StreamKey) :
    List (Nat × SegmentCols) :=
  (encoded.filter fun e => streamKey source_id e.stream = k).map (entry layout)

theorem entries_cons (layout : IndexLayout) (source_id : Int) (e : Encoded) (es : List Encoded)
    (k : StreamKey) : entries layout source_id (e :: es) k =
      if streamKey source_id e.stream = k then entry layout e :: entries layout source_id es k
      else entries layout source_id es k := by
  by_cases hk : streamKey source_id e.stream = k <;> simp [entries, hk]

/-- No stream takes a `seq` twice, and none that is taken. -/
structure Fresh (a : Archive) (source_id : Int) (encoded : List Encoded) : Prop where
  nodup : ∀ k, ((entries a.layout source_id encoded k).map Prod.fst).Nodup
  free : ∀ k, ∀ x ∈ entries a.layout source_id encoded k, (a.catalog k).get? x.1 = none

/-- What a run of segment inserts does to every catalog; nothing else that is read changes. -/
structure Sealed (a a' : Archive) (source_id : Int) (encoded : List Encoded) : Prop where
  frame : a' = { a with segments := a'.segments, segment_indexes := a'.segment_indexes }
  catalog : ∀ k, a'.catalog k = (a.catalog k).insertAll (entries a.layout source_id encoded k)
  fresh : Fresh a source_id encoded

section Insert

variable {a b a' : Archive} {source_id : Int} {e : Encoded} {es : List Encoded}

theorem insertEncoded_catalog (h : insertEncoded source_id a e = .ok b) (k : StreamKey) :
    b.catalog k = if streamKey source_id e.stream = k
      then (a.catalog k).insert e.seq (entry a.layout e).2 else a.catalog k := by
  obtain ⟨-, hb⟩ := insertSegment_ok h
  rw [hb]
  by_cases hk : streamKey source_id e.stream = k
  · subst hk
    rw [if_pos rfl]
    exact OrdMap.group_insert_self _ _ _ _
  · rw [if_neg hk]
    exact OrdMap.group_insert_ne _ _ _ (Ne.symm hk)

theorem insertEncoded_layout (h : insertEncoded source_id a e = .ok b) : b.layout = a.layout := by
  rw [(insertSegment_ok h).2]

theorem Fresh.cons (h : insertEncoded source_id a e = .ok b) (h' : Fresh b source_id es) :
    Fresh a source_id (e :: es) := by
  have hnew : (a.catalog (streamKey source_id e.stream)).get? e.seq = none :=
    (OrdMap.get?_group _ _ _).trans (insertSegment_ok h).1
  have hlayout := insertEncoded_layout h
  -- the rest avoids this `seq`: the catalog it is inserted into has it
  have hne : ∀ k, streamKey source_id e.stream = k →
      ∀ x ∈ entries a.layout source_id es k, x.1 ≠ e.seq := by
    intro k hk x hx heq
    have := h'.free k x (hlayout ▸ hx)
    rw [insertEncoded_catalog h, if_pos hk, heq, OrdMap.get?_insert_self] at this
    exact absurd this (by simp)
  refine ⟨fun k => ?_, fun k x hx => ?_⟩
  · have hnd := hlayout ▸ h'.nodup k
    rw [entries_cons]
    by_cases hk : streamKey source_id e.stream = k
    · simp only [if_pos hk, List.map_cons, List.nodup_cons]
      refine ⟨fun hm => ?_, hnd⟩
      obtain ⟨x, hx, heq⟩ := List.mem_map.mp hm
      exact hne k hk x hx heq
    · simpa only [if_neg hk] using hnd
  · rw [entries_cons] at hx
    by_cases hk : streamKey source_id e.stream = k
    · rw [if_pos hk] at hx
      rcases List.mem_cons.mp hx with rfl | hx
      · exact hk ▸ hnew
      · have := h'.free k x (hlayout ▸ hx)
        rwa [insertEncoded_catalog h, if_pos hk, OrdMap.get?_insert_ne _ _ (hne k hk x hx)] at this
    · rw [if_neg hk] at hx
      have := h'.free k x (hlayout ▸ hx)
      rwa [insertEncoded_catalog h, if_neg hk] at this

theorem Fresh.tail (hf : Fresh a source_id (e :: es)) (h : insertEncoded source_id a e = .ok b) :
    Fresh b source_id es := by
  have hlayout := insertEncoded_layout h
  have hsplit : ∀ k, streamKey source_id e.stream = k →
      ∀ x ∈ entries a.layout source_id es k, x.1 ≠ e.seq := by
    intro k hk x hx heq
    have := hf.nodup k
    rw [entries_cons, if_pos hk, List.map_cons, List.nodup_cons] at this
    exact this.1 (List.mem_map.mpr ⟨x, hx, heq⟩)
  refine ⟨fun k => ?_, fun k x hx => ?_⟩
  · have := hf.nodup k
    rw [entries_cons] at this
    rw [hlayout]
    by_cases hk : streamKey source_id e.stream = k
    · rw [if_pos hk, List.map_cons, List.nodup_cons] at this
      exact this.2
    · rwa [if_neg hk] at this
  · rw [hlayout] at hx
    have hold : (a.catalog k).get? x.1 = none :=
      hf.free k x (by rw [entries_cons]; split <;> simp [hx])
    rw [insertEncoded_catalog h]
    by_cases hk : streamKey source_id e.stream = k
    · rw [if_pos hk, OrdMap.get?_insert_ne _ _ (hsplit k hk x hx)]
      exact hold
    · rwa [if_neg hk]

end Insert

theorem sealed_of_insertEncoded {source_id : Int} : ∀ {encoded : List Encoded} {a a' : Archive},
    encoded.foldlM (insertEncoded source_id) a = .ok a' → Sealed a a' source_id encoded
  | [], a, a', h => by
      obtain rfl := Except.ok.inj h
      exact ⟨rfl, fun _ => rfl, ⟨fun _ => .nil, by simp [entries]⟩⟩
  | e :: es, a, a', h => by
      obtain ⟨b, he, h'⟩ := Except.foldlM_cons_eq_ok.mp h
      have hs := sealed_of_insertEncoded h'
      refine ⟨?_, fun k => ?_, hs.fresh.cons he⟩
      · rw [hs.frame, (insertSegment_ok he).2]
      · rw [hs.catalog k, insertEncoded_catalog he, insertEncoded_layout he, entries_cons]
        by_cases hk : streamKey source_id e.stream = k
        · simp only [if_pos hk, OrdMap.insertAll_cons]
          rfl
        · simp only [if_neg hk]

/-- **Inserts at fresh `seq`s are never refused over a primary key.** -/
theorem Fresh.not_unique {source_id : Int} : ∀ {encoded : List Encoded} {a : Archive} {e : Error},
    Fresh a source_id encoded → encoded.foldlM (insertEncoded source_id) a = .error e →
      ∃ context, e = foreignKeyError context
  | [], a, e, _, h => absurd h (by simp)
  | s :: es, a, e, hf, h => by
      rcases Except.foldlM_cons_eq_error.mp h with h | ⟨b, hs, h⟩
      · rcases insertSegment_unique h with ⟨c, hc⟩ | hfk
        · have hnone := hf.free _ (entry a.layout s) (by rw [entries_cons, if_pos rfl]; simp)
          rw [show (entry a.layout s).1 = s.seq from rfl, hc] at hnone
          exact absurd hnone (by simp)
        · exact hfk
      · exact (hf.tail hs).not_unique h

/-! ## Deletions -/

/-- What is left of a stream when everything before a cutoff goes: its segments that end
there and its rows. -/
structure CutAt (a a' : Archive) (k : StreamKey) (cutoff : Int64) : Prop where
  catalog : a'.catalog k = (a.catalog k).filter fun _ s => !decide (s.last < cutoff)
  wal : a'.walOf k = (a.walOf k).filter fun ts _ => !decide (ts < cutoff)

/-- What a reader gets of a stream is as it was. -/
structure Same (a a' : Archive) (k : StreamKey) : Prop where
  catalog : a'.catalog k = a.catalog k
  wal : a'.walOf k = a.walOf k

theorem Same.refl (a : Archive) (k : StreamKey) : Same a a k := ⟨rfl, rfl⟩

theorem Same.of_tables {a a' : Archive} {k : StreamKey} (hs : a'.segments = a.segments)
    (hw : a'.wal = a.wal) : Same a a' k where
  catalog := congrArg (OrdMap.group · k) hs
  wal := congrArg (OrdMap.group · k) hw

theorem Same.trans {a b c : Archive} {k : StreamKey} (h : Same a b k) (h' : Same b c k) :
    Same a c k :=
  ⟨h'.catalog.trans h.catalog, h'.wal.trans h.wal⟩

theorem CutAt.trans_same {a b c : Archive} {k : StreamKey} {cutoff : Int64}
    (h : CutAt a b k cutoff) (h' : Same b c k) : CutAt a c k cutoff :=
  ⟨h'.catalog.trans h.catalog, h'.wal.trans h.wal⟩

theorem Same.trans_cut {a b c : Archive} {k : StreamKey} {cutoff : Int64}
    (h : Same a b k) (h' : CutAt b c k cutoff) : CutAt a c k cutoff :=
  ⟨h.catalog ▸ h'.catalog, h.wal ▸ h'.wal⟩

/-- A second cut at the same place removes nothing more. -/
theorem CutAt.trans {a b c : Archive} {k : StreamKey} {cutoff : Int64}
    (h : CutAt a b k cutoff) (h' : CutAt b c k cutoff) : CutAt a c k cutoff := by
  refine ⟨?_, ?_⟩
  · rw [h'.catalog, h.catalog, OrdMap.filter_filter]
    simp only [Bool.and_self]
  · rw [h'.wal, h.wal, OrdMap.filter_filter]
    simp only [Bool.and_self]

/-- Deleting rows of the two tables, as it is seen in one stream. -/
theorem catalog_deleteSegments (p : StreamKey ×ₗ Nat → SegmentCols → Bool) (a : Archive)
    (k : StreamKey) : (a.deleteSegments p).catalog k =
      (a.catalog k).filter fun seq s => !p (toLex (k, seq)) s :=
  OrdMap.group_filter _ _ _

theorem walOf_deleteWal (p : StreamKey → Int64 → Bool) (a : Archive) (k : StreamKey) :
    (a.deleteWal p).walOf k = (a.walOf k).filter fun ts _ => !p k ts :=
  OrdMap.group_filter _ _ _

/-- A deletion from both tables, as it is seen in one stream. -/
theorem tables_delete (p : StreamKey ×ₗ Nat → SegmentCols → Bool) (q : StreamKey → Int64 → Bool)
    (a : Archive) (k : StreamKey) :
    ((a.deleteSegments p).deleteWal q).catalog k =
        (a.catalog k).filter (fun seq s => !p (toLex (k, seq)) s) ∧
      ((a.deleteSegments p).deleteWal q).walOf k = (a.walOf k).filter fun ts _ => !q k ts :=
  ⟨catalog_deleteSegments p a k, walOf_deleteWal q _ k⟩

theorem pruneWal_same {a : Archive} {source_id : Int} {stream : String} {upto : Int64}
    {k : StreamKey} (hk : streamKey source_id stream ≠ k) :
    Same a (a.pruneWal source_id stream upto) k := by
  refine ⟨.refl _, ?_⟩
  rw [pruneWal, walOf_deleteWal]
  exact OrdMap.filter_eq_self fun ts _ _ => by simp [Ne.symm hk]

theorem pruneWal_wal {a : Archive} {source_id : Int} {stream : String} {upto : Int64} :
    (a.pruneWal source_id stream upto).walOf (streamKey source_id stream) =
      (a.walOf (streamKey source_id stream)).filter fun ts _ => !decide (ts ≤ upto) := by
  rw [pruneWal, walOf_deleteWal]
  simp

theorem evictCallerRows_same {a : Archive} {source_id : Int} {cutoff : Int64}
    {floor : Option CallerRowFloor} {stream : String} {k : StreamKey} :
    Same a (evictCallerRows source_id cutoff floor a stream) k := .of_tables rfl rfl

theorem foldl_evictCallerRows_same {source_id : Int} {cutoff : Int64}
    {floor : Option CallerRowFloor} {k : StreamKey} : ∀ {names : List String} {a : Archive},
    Same a (names.foldl (evictCallerRows source_id cutoff floor) a) k
  | [], a => .refl a k
  | _ :: _, _ => evictCallerRows_same.trans foldl_evictCallerRows_same

theorem evictClockOffsets_same {a : Archive} {source_id : Int} {cut : Int64} {k : StreamKey} :
    Same a (evictClockOffsets source_id cut a) k := .of_tables rfl rfl

/-- **A pass over a source cuts every stream of it at the cutoff**, and no other stream. -/
theorem evict_cut {a : Archive} {source_id : Int} {cutoff : Int64}
    {floor : Option CallerRowFloor} {names : List String} {k : StreamKey}
    (hk : (ofLex k).1 = source_id) : CutAt a (a.evict source_id cutoff floor names) k cutoff := by
  have hcut : CutAt a ((a.deleteSegments fun key s =>
      (ofLex (ofLex key).1).1 = source_id && s.seg_meta.last_ts < cutoff).deleteWal
        fun key ts => (ofLex key).1 = source_id && ts < cutoff) k cutoff := by
    refine ⟨(tables_delete _ _ a k).1.trans ?_, (tables_delete _ _ a k).2.trans ?_⟩
    · simp [hk]
    · simp [hk]
  cases floor with
  | none => exact hcut.trans_same (.of_tables rfl rfl)
  | some f =>
      exact hcut.trans_same (evictClockOffsets_same.trans foldl_evictCallerRows_same)

theorem evict_same {a : Archive} {source_id : Int} {cutoff : Int64}
    {floor : Option CallerRowFloor} {names : List String} {k : StreamKey}
    (hk : (ofLex k).1 ≠ source_id) : Same a (a.evict source_id cutoff floor names) k := by
  have hsame : Same a ((a.deleteSegments fun key s =>
      (ofLex (ofLex key).1).1 = source_id && s.seg_meta.last_ts < cutoff).deleteWal
        fun key ts => (ofLex key).1 = source_id && ts < cutoff) k := by
    refine ⟨(tables_delete _ _ a k).1.trans ?_, (tables_delete _ _ a k).2.trans ?_⟩
    · exact OrdMap.filter_eq_self fun _ _ _ => by simp [hk]
    · exact OrdMap.filter_eq_self fun _ _ _ => by simp [hk]
  cases floor with
  | none => exact hsame.trans (.of_tables rfl rfl)
  | some f =>
      exact hsame.trans (evictClockOffsets_same.trans foldl_evictCallerRows_same)

theorem evictStream_cut {a : Archive} {source_id : Int} {cutoff : Int64} {stream : String} :
    CutAt a (evictStream source_id cutoff a stream) (streamKey source_id stream) cutoff := by
  refine ⟨(tables_delete _ _ a _).1.trans ?_, (tables_delete _ _ a _).2.trans ?_⟩
  · simp
  · simp

theorem evictStream_same {a : Archive} {source_id : Int} {cutoff : Int64} {stream : String}
    {k : StreamKey} (hk : streamKey source_id stream ≠ k) :
    Same a (evictStream source_id cutoff a stream) k := by
  refine ⟨(tables_delete _ _ a k).1.trans ?_, (tables_delete _ _ a k).2.trans ?_⟩
  · exact OrdMap.filter_eq_self fun _ _ _ => by simp [Ne.symm hk]
  · exact OrdMap.filter_eq_self fun _ _ _ => by simp [Ne.symm hk]

/-- **A pass over some streams cuts each of them at the cutoff**, and no other. -/
theorem evictStreams_cut {source_id : Int} {cutoff : Int64} {floor : Option CallerRowFloor}
    {k : StreamKey} {streams : List String} {a : Archive} :
    (k ∈ streams.map (streamKey source_id) →
      CutAt a (a.evictStreams source_id cutoff floor streams) k cutoff) ∧
    (k ∉ streams.map (streamKey source_id) →
      Same a (a.evictStreams source_id cutoff floor streams) k) := by
  suffices ∀ {streams : List String} {a : Archive},
      (k ∈ streams.map (streamKey source_id) → CutAt a (streams.foldl (fun a stream =>
        evictCallerRows source_id cutoff floor (evictStream source_id cutoff a stream) stream) a)
          k cutoff) ∧
      (k ∉ streams.map (streamKey source_id) → Same a (streams.foldl (fun a stream =>
        evictCallerRows source_id cutoff floor (evictStream source_id cutoff a stream) stream) a)
          k) from
    ⟨fun hk => (this.1 hk).trans_same (.of_tables rfl rfl),
      fun hk => (this.2 hk).trans (.of_tables rfl rfl)⟩
  intro streams
  induction streams with
  | nil => exact fun {a} => ⟨fun h => absurd h (by simp), fun _ => .refl a k⟩
  | cons stream streams ih =>
      intro a
      rw [List.map_cons, List.mem_cons, List.foldl_cons]
      by_cases hk : streamKey source_id stream = k
      · subst hk
        refine ⟨fun _ => ?_, fun h => absurd (.inl rfl) h⟩
        have hcut := evictStream_cut.trans_same
          (@evictCallerRows_same (evictStream source_id cutoff a stream) source_id cutoff floor
            stream _)
        by_cases hmem : streamKey source_id stream ∈ streams.map (streamKey source_id)
        · exact hcut.trans (ih.1 hmem)
        · exact hcut.trans_same (ih.2 hmem)
      · have hsame := (evictStream_same hk).trans
          (@evictCallerRows_same (evictStream source_id cutoff a stream) source_id cutoff floor
            stream _)
        refine ⟨fun h => ?_, fun h => ?_⟩
        · exact hsame.trans_cut (ih.1 (h.resolve_left (Ne.symm hk)))
        · exact hsame.trans (ih.2 fun hm => h (.inr hm))

end Archive

/-! ## Transactions beside the rows -/

/-- Whether a transaction leaves the catalog and the WAL alone. -/
def Write.beside : Write → Bool
  | .clockOffset .. | .callerRows .. | .insertSource .. | .updateMetadata .. | .setIdentity ..
  | .markIncomplete .. | .finalize .. | .startHeartbeat .. | .beat .. => true
  | _ => false

namespace Archive

theorem insertClockOffset_tables {a a' : Archive} {source_id : Int} {ts offset : Int64}
    (h : a.insertClockOffset source_id ts offset = .ok a') :
    a' = { a with clock_offsets := a'.clock_offsets } := by
  unfold insertClockOffset at h
  dsimp only at h
  split at h
  · rw [← Except.pure_eq_ok.mp h]
  · simp only [Except.bind_eq_ok, Except.pure_eq_ok] at h
    obtain ⟨-, -, rfl⟩ := h
    rfl

theorem insertCallerRows_tables {a a' : Archive} {source_id : Int} {stream : String}
    {rows : List CallerRow} (h : a.insertCallerRows source_id stream rows = .ok a') :
    a' = { a with caller_rows := a'.caller_rows } := by
  unfold insertCallerRows at h
  split at h
  · simp only [Except.bind_eq_ok, Except.pure_eq_ok] at h
    obtain ⟨-, -, rfl⟩ := h
    rfl
  · rw [← Except.pure_eq_ok.mp h]

theorem updateSource_tables (a : Archive) (source_id : Int) (f : SourceCols → SourceCols) :
    a.updateSource source_id f = { a with sources := (a.updateSource source_id f).sources } := by
  unfold updateSource
  split <;> rfl

theorem updateSourceOrFail_tables {a a' : Archive} {source_id : Int}
    {f : SourceCols → SourceCols} (h : a.updateSourceOrFail source_id f = .ok a') :
    a' = { a with sources := a'.sources } := by
  unfold updateSourceOrFail at h
  split at h
  · rw [← Except.ok.inj h]
    exact updateSource_tables a source_id f
  · exact absurd h (by simp)

theorem beat_tables : ∀ (source_ids : List Int) (a : Archive),
    a.beat source_ids = { a with sources := (a.beat source_ids).sources }
  | [], _ => rfl
  | id :: ids, a => by
      have h := beat_tables ids
        (a.updateSource id fun s => { s with heartbeat := some (s.heartbeat.getD 0 + 1) })
      rw [beat, List.foldl_cons, ← beat, h, updateSource_tables a id]

end Archive

open Archive in
/-- Such a transaction leaves the tables of the rows, and the layout, as they are. -/
theorem Write.beside_tables {w : Write} (hw : w.beside) {a a' : Archive} (h : w.apply a = .ok a') :
    a'.segments = a.segments ∧ a'.wal = a.wal ∧ a'.layout = a.layout := by
  cases w with
  | clockOffset => rw [insertClockOffset_tables h]; exact ⟨rfl, rfl, rfl⟩
  | callerRows => rw [insertCallerRows_tables h]; exact ⟨rfl, rfl, rfl⟩
  | insertSource => obtain rfl := Except.ok.inj h; exact ⟨rfl, rfl, rfl⟩
  | updateMetadata => rw [updateSourceOrFail_tables h]; exact ⟨rfl, rfl, rfl⟩
  | setIdentity => rw [updateSourceOrFail_tables h]; exact ⟨rfl, rfl, rfl⟩
  | markIncomplete => rw [updateSourceOrFail_tables h]; exact ⟨rfl, rfl, rfl⟩
  | finalize source_id ts offset =>
      simp only [Write.apply, Except.bind_eq_ok, Except.pure_eq_ok] at h
      obtain ⟨b, hb, rfl⟩ := h
      rw [markComplete, updateSource_tables, insertClockOffset_tables hb]
      exact ⟨rfl, rfl, rfl⟩
  | startHeartbeat source_id interval =>
      obtain rfl := Except.ok.inj h
      rw [beat_tables, setHeartbeatInterval, updateSource_tables a source_id]
      exact ⟨rfl, rfl, rfl⟩
  | beat ids =>
      obtain rfl := Except.ok.inj h
      rw [beat_tables]
      exact ⟨rfl, rfl, rfl⟩
  | _ => exact absurd hw (by simp [Write.beside])

theorem Write.beside_same {w : Write} (hw : w.beside) {a a' : Archive} (h : w.apply a = .ok a')
    (k : StreamKey) : Archive.Same a a' k := by
  obtain ⟨hsegments, hwal, -⟩ := w.beside_tables hw h
  exact .of_tables hsegments hwal

end Dendro
