import Dendro.Archive.Rooted
import Dendro.Rewrite.Merges

/-!
# A compaction pass

What one merge transaction does (`merge_ok`), what one turn of the loop does with the part
of the catalog it has not reached (`Pass`), the rule for a whole pass (`runs_pass`) and what
one does (`runs_compactStreamWith`). At every point of a pass, also where it fails or is killed, the
file is one that merges of adjacent segments lead to (`MergeStep`).
-/

namespace Dendro

open Relation Spans

namespace Archive

/-! ## A rewrite of one stream -/

/-- Only the catalog of one stream is rewritten. -/
structure OnlyCatalog (k : StreamKey) (a a' : Archive) : Prop where
  frame : a' = { a with segments := a'.segments, segment_indexes := a'.segment_indexes }
  catalog : ∀ k', k' ≠ k → a'.catalog k' = a.catalog k'
  indexes : ∀ k', k' ≠ k → a'.segment_indexes.group k' = a.segment_indexes.group k'

theorem OnlyCatalog.refl (k : StreamKey) (a : Archive) : OnlyCatalog k a a :=
  ⟨rfl, fun _ _ => rfl, fun _ _ => rfl⟩

theorem OnlyCatalog.trans {k : StreamKey} {a b c : Archive} (h : OnlyCatalog k a b)
    (h' : OnlyCatalog k b c) : OnlyCatalog k a c where
  frame := by rw [h'.frame, h.frame]
  catalog k' hk := (h'.catalog k' hk).trans (h.catalog k' hk)
  indexes k' hk := (h'.indexes k' hk).trans (h.indexes k' hk)

theorem OnlyCatalog.wal {k : StreamKey} {a a' : Archive} (h : OnlyCatalog k a a')
    (k' : StreamKey) : a'.walOf k' = a.walOf k' := by
  rw [h.frame]
  rfl

/-- What is read of any other stream's segments is as it was. -/
theorem OnlyCatalog.readSegments {k : StreamKey} {a a' : Archive} (h : OnlyCatalog k a a')
    {source_id : Int} {stream : String} (hk : streamKey source_id stream ≠ k) :
    a'.readSegments source_id stream = a.readSegments source_id stream := by
  have hlayout : a'.layout = a.layout := by rw [h.frame]
  have hindex : ∀ seq c, a'.segmentIndex (streamKey source_id stream) seq c =
      a.segmentIndex (streamKey source_id stream) seq c := by
    intro seq c
    simp only [segmentIndex, hlayout, ← OrdMap.get?_group, h.indexes _ hk]
  simp only [Archive.readSegments, h.catalog _ hk, hindex]

/-- The live tail of a stream whose watermark did not move. -/
theorem OnlyCatalog.liveWal {k : StreamKey} {a a' : Archive} (h : OnlyCatalog k a a')
    {source_id : Int} {stream : String}
    (hw : a'.watermark (streamKey source_id stream) = a.watermark (streamKey source_id stream)) :
    a'.liveWal source_id stream = a.liveWal source_id stream := by
  simp only [Archive.liveWal, live, isLive, h.wal, hw]

/-! ## The transaction of a merge -/

section
variable (source_id : Int) (stream : String)

theorem deleteSegment_only (a : Archive) (seq : Nat) :
    OnlyCatalog (streamKey source_id stream) a (a.deleteSegment source_id stream seq) ∧
      (a.deleteSegment source_id stream seq).catalog (streamKey source_id stream) =
        (a.catalog (streamKey source_id stream)).filter fun seq' _ => seq' ≠ seq := by
  have hkey : ∀ k' seq', toLex (k', seq') = toLex (streamKey source_id stream, seq) ↔
      k' = streamKey source_id stream ∧ seq' = seq := by
    intro k' seq'
    rw [toLex_inj, Prod.mk.injEq]
  refine ⟨⟨rfl, fun k' hk => ?_, fun k' hk => ?_⟩, ?_⟩
  · rw [deleteSegment, catalog_deleteSegments]
    exact OrdMap.filter_eq_self fun seq' _ _ => by simp [hkey, hk]
  · rw [deleteSegment, deleteSegments, OrdMap.group_filter]
    refine OrdMap.filter_eq_self fun seq' _ _ => ?_
    split <;> simp [hkey, hk]
  · rw [deleteSegment, catalog_deleteSegments]
    simp [hkey]

theorem foldl_deleteSegment : ∀ (seqs : List Nat) (a : Archive),
    OnlyCatalog (streamKey source_id stream) a
        (seqs.foldl (fun a s => a.deleteSegment source_id stream s) a) ∧
      (seqs.foldl (fun a s => a.deleteSegment source_id stream s) a).catalog
          (streamKey source_id stream) =
        (a.catalog (streamKey source_id stream)).filter fun seq _ => seq ∉ seqs
  | [], a => ⟨.refl _ a, (OrdMap.filter_eq_self fun _ _ _ => by simp).symm⟩
  | seq :: seqs, a => by
      obtain ⟨honly, hcat⟩ := deleteSegment_only source_id stream a seq
      obtain ⟨honly', hcat'⟩ := foldl_deleteSegment seqs (a.deleteSegment source_id stream seq)
      refine ⟨honly.trans honly', ?_⟩
      rw [List.foldl_cons, hcat', hcat, OrdMap.filter_filter]
      congr 1
      funext seq' _
      simp

end

variable {source_id : Int} {stream : String}

theorem insertSegment_only {a a' : Archive} {seq : Nat} {m : SegmentMeta} {bytes : Bytes}
    {ci : Option Bytes} (h : a.insertSegment source_id stream seq m bytes ci = .ok a') :
    OnlyCatalog (streamKey source_id stream) a a' ∧
      a'.catalog (streamKey source_id stream) =
        (a.catalog (streamKey source_id stream)).insert seq (storedCols a.layout m bytes ci) := by
  obtain ⟨-, hok⟩ := insertSegment_ok h
  refine ⟨⟨by rw [hok], fun k' hk => ?_, fun k' hk => ?_⟩, ?_⟩
  · rw [hok]
    exact OrdMap.group_insert_ne _ _ _ hk
  · have hclear : (a.segment_indexes.erase (toLex (streamKey source_id stream, seq))).group k' =
        a.segment_indexes.group k' := by
      rw [OrdMap.erase, OrdMap.group_filter]
      exact OrdMap.filter_eq_self fun seq' _ _ => by simp [hk]
    unfold insertSegment at h
    dsimp only at h
    split at h
    · simp [throw, throwThe, MonadExceptOf.throw] at h
    · simp only [Except.bind_eq_ok] at h
      obtain ⟨-, -, h⟩ := h
      split at h <;> obtain rfl := Except.ok.inj h
      · rfl
      · dsimp only
        split
        · rw [OrdMap.group_insert_ne _ _ _ hk, hclear]
        · exact hclear
      · rfl
  · rw [hok]
    exact OrdMap.group_insert_self _ _ _ _

end Archive

open Archive

variable {source_id : Int} {stream : String}

/-- A deletion leaves the indexes of the other segments. -/
theorem deleteSegment_index (a : Archive) {k : StreamKey} {seq seq' : Nat} (c : SegmentCols)
    (h : k = streamKey source_id stream → seq' ≠ seq) :
    (a.deleteSegment source_id stream seq).segmentIndex k seq' c = a.segmentIndex k seq' c := by
  have hne : toLex (k, seq') ≠ toLex (streamKey source_id stream, seq) := by
    rw [Ne, toLex_inj, Prod.mk.injEq]
    exact fun heq => h heq.1 heq.2
  have hget : (a.deleteSegment source_id stream seq).segment_indexes.get? (toLex (k, seq')) =
      a.segment_indexes.get? (toLex (k, seq')) := by
    rw [deleteSegment, deleteSegments, OrdMap.get?_filter]
    rcases a.segment_indexes.get? (toLex (k, seq')) with _ | index
    · rfl
    · rw [Option.filter_some]
      split <;> simp [hne]
  simp only [segmentIndex, hget]
  rfl

theorem foldl_deleteSegment_index {k : StreamKey} {seq' : Nat} (c : SegmentCols) :
    ∀ (seqs : List Nat) (a : Archive), (k = streamKey source_id stream → seq' ∉ seqs) →
      (seqs.foldl (fun a s => a.deleteSegment source_id stream s) a).segmentIndex k seq' c =
        a.segmentIndex k seq' c
  | [], _, _ => rfl
  | seq :: seqs, a, h => by
      rw [List.foldl_cons, foldl_deleteSegment_index c seqs _ fun hk hs => h hk (by simp [hs]),
        deleteSegment_index a c fun hk heq => h hk (by simp [heq])]

/-- A segment without an index is stored without one, and leaves those of the others. -/
theorem insertSegment_index {a a' : Archive} {seq : Nat} {m : SegmentMeta} {bytes : Bytes}
    (h : a.insertSegment source_id stream seq m bytes none = .ok a') (k : StreamKey) (seq' : Nat)
    (c : SegmentCols) : a'.segmentIndex k seq' c =
      if k = streamKey source_id stream ∧ seq' = seq ∧ a.layout = .table then none
      else a.segmentIndex k seq' c := by
  unfold insertSegment at h
  dsimp only at h
  split at h
  · simp [throw, throwThe, MonadExceptOf.throw] at h
  · simp only [Except.bind_eq_ok] at h
    obtain ⟨-, -, h⟩ := h
    split at h <;> rename_i hl <;> obtain rfl := Except.ok.inj h
    · simp [segmentIndex, hl]
    · simp only [segmentIndex, hl, OrdMap.get?_erase, toLex_inj, Prod.mk.injEq, and_true]
    · simp [segmentIndex, hl]

/-- What a rewrite of a run does to one stream: the run becomes one segment, without an
index, and the other segments keep theirs. -/
structure Replaced (k : StreamKey) (a a' : Archive) (before : List (Nat × SegmentCols))
    (m : Nat × SegmentCols) (after : List (Nat × SegmentCols)) : Prop where
  only : OnlyCatalog k a a'
  catalog : (a'.catalog k).entries = before ++ m :: after
  index : a'.segmentIndex k m.1 m.2 = none
  indexes : ∀ e ∈ before ++ after, a'.segmentIndex k e.1 e.2 = a.segmentIndex k e.1 e.2

/-- **A merge replaces the run by one segment at its first `seq`**, and nothing else. -/
theorem merge_ok {a a' : Archive} {before run after : List (Nat × SegmentCols)} {seq : Nat}
    {m : SegmentMeta} {bytes : Bytes}
    (hcat : (a.catalog (streamKey source_id stream)).entries = before ++ run ++ after)
    (hseq : run.head?.map Prod.fst = some seq)
    (h : (Write.merge source_id stream (run.map Prod.fst) seq m bytes).apply a = .ok a') :
    Replaced (streamKey source_id stream) a a' before
      (seq, { seg_meta := m, bytes, caller_index := none }) after := by
  obtain ⟨hdel, hdelcat⟩ :=
    foldl_deleteSegment source_id stream (run.map Prod.fst) a
  obtain ⟨hins, hinscat⟩ := insertSegment_only h
  have hindex := insertSegment_index h (streamKey source_id stream)
  refine ⟨hdel.trans hins, ?_, ?_, fun e he => ?_⟩
  · rw [hinscat, hdelcat, storedCols, ite_self]
    exact OrdMap.entries_replace hcat hseq _
  · rw [hindex]
    by_cases hl : ((run.map Prod.fst).foldl (fun a s => a.deleteSegment source_id stream s)
        a).layout = .table
    · rw [if_pos ⟨rfl, rfl, hl⟩]
    · rw [if_neg fun hc => hl hc.2.2, segmentIndex]
      split
      · contradiction
      · rfl
      · rfl
  · -- the other segments are at other `seq`s than the run's
    have hout : e.1 ∉ run.map Prod.fst := by
      intro hmem
      obtain ⟨r, hr, heq⟩ := List.mem_map.mp hmem
      have hsorted := hcat ▸ (a.catalog (streamKey source_id stream)).sorted
      rw [List.append_assoc] at hsorted
      obtain ⟨-, hrest, hbefore⟩ := List.pairwise_append.mp hsorted
      obtain ⟨-, -, hafter⟩ := List.pairwise_append.mp hrest
      rcases List.mem_append.mp he with he | he
      · exact absurd heq.symm (ne_of_lt (hbefore e he r (by simp [hr])))
      · exact absurd heq (ne_of_lt (hafter r hr e he))
    have hne : e.1 ≠ seq := by
      rintro rfl
      obtain ⟨r, hr, hr₁⟩ := Option.map_eq_some_iff.mp hseq
      exact hout (List.mem_map.mpr ⟨r, List.mem_of_head? hr, hr₁⟩)
    rw [hindex, if_neg fun hc => hne hc.2.1,
      foldl_deleteSegment_index e.2 _ a fun _ => hout]

/-- A merge into one of the `seq`s it replaces is not refused where the source is there. -/
theorem merge_applies {a : Archive} {seqs : List Nat} {seq : Nat} (hseq : seq ∈ seqs)
    (hsource : a.HasSource source_id) (m : SegmentMeta) (bytes : Bytes) :
    ∃ a', (Write.merge source_id stream seqs seq m bytes).apply a = .ok a' := by
  obtain ⟨hdel, hdelcat⟩ := foldl_deleteSegment source_id stream seqs a
  -- the `seq` is free once the run is deleted
  have hgone : (seqs.foldl (fun a s => a.deleteSegment source_id stream s) a).segments.get?
      (toLex (streamKey source_id stream, seq)) = none := by
    have hfree : ((seqs.foldl (fun a s => a.deleteSegment source_id stream s) a).catalog
        (streamKey source_id stream)).get? seq = none := by
      rw [hdelcat, OrdMap.get?_filter]
      rcases (a.catalog (streamKey source_id stream)).get? seq with _ | c
      · rfl
      · rw [Option.filter_some, if_neg (by simpa using hseq)]
    rwa [catalog, OrdMap.get?_group] at hfree
  -- a deletion takes no source with it
  have hthere : (seqs.foldl (fun a s => a.deleteSegment source_id stream s) a).HasSource
      source_id := by
    rw [HasSource, hdel.frame]
    exact hsource
  show ∃ a', insertSegment source_id stream seq m bytes none
    (seqs.foldl (fun a s => a.deleteSegment source_id stream s) a) = .ok a'
  generalize seqs.foldl (fun a s => a.deleteSegment source_id stream s) a = b at hgone hthere
  rw [HasSource] at hthere
  unfold insertSegment
  dsimp only
  rw [hgone, Option.isSome_none, if_neg (by simp), checkSource, if_pos hthere]
  rcases b.layout with _ | _ | _ <;> exact ⟨_, rfl⟩

/-! ## A run -/

section

variable {Props Writer Run : Type} {pq : Parquet Props Writer} {policy : SchemaPolicy}
  {merge : MetadataMerge Run}

/-- What a concatenation returns: under two segments, or the merged file of the leading
segments of the run. -/
def Concatenated (pq : Parquet Props Writer) (policy : SchemaPolicy) (a : Archive)
    (source_id : Int) (stream : String) (seqs : List Nat) (out : Bytes × Nat) : Prop :=
  out.2 < 2 ∨ 2 ≤ out.2 ∧ out.2 ≤ seqs.length ∧ ∃ blobs : List Bytes,
    List.Forall₂ (fun seq blob => a.readSegmentBytes source_id stream seq = some blob)
      (seqs.take out.2) blobs ∧
    (pq.RoundTrips → (∀ blob ∈ blobs, DistinctColumns pq blob) →
      List.Forall₂ (RowKept policy) (blobs.flatMap (decodeRows pq)) (decodeRows pq out.1))

/-- The bytes a run was opened from. -/
theorem Opened.blobs {a : Archive} {seqs : List Nat} {files : List ParquetFile}
    (h : Opened pq a source_id stream seqs files) : ∃ blobs : List Bytes,
      List.Forall₂ (fun seq blob => a.readSegmentBytes source_id stream seq = some blob)
        (seqs.take files.length) blobs ∧
      List.Forall₂ (fun blob f => pq.openFile blob = .ok f) blobs files := by
  obtain ⟨-, hall⟩ := h
  generalize seqs.take files.length = front at hall ⊢
  induction hall with
  | nil => exact ⟨[], .nil, .nil⟩
  | cons hf _ ih =>
      obtain ⟨blob, hread, hopen⟩ := hf
      obtain ⟨blobs, hreads, hopens⟩ := ih
      exact ⟨blob :: blobs, .cons hread hreads, .cons hopen hopens⟩

theorem Concat.concatenated {props : Props} {a : Archive} {seqs : List Nat}
    {out : Bytes × Nat} (h : Concat pq merge policy stream props
      (seqs.map (a.readSegmentBytes source_id stream)) out) :
    Concatenated pq policy a source_id stream seqs out := by
  cases h with
  | nothing => exact .inl (by decide)
  | @merged r run bytes hreach _ htwo hbytes =>
      obtain ⟨hinv, files, hfiles, hopened⟩ := hreach.opened (runInv_empty policy)
      have hopen : r.opened = files := by simpa [RunState.empty] using hfiles
      obtain ⟨blobs, hreads, hopens⟩ := hopened.blobs
      refine .inr ⟨htwo, ?_, blobs, hopen ▸ hreads, fun hpq hnd => ?_⟩
      · exact hopen ▸ hopened.1
      · exact rowsKept_run hpq hinv (hopen ▸ hopens) hnd hbytes

/-- The segments a run was read from. -/
theorem blobs_eq {a : Archive} : ∀ {run : List (Nat × SegmentCols)} {blobs : List Bytes},
    (∀ e ∈ run, e ∈ (a.catalog (streamKey source_id stream)).entries) →
    List.Forall₂ (fun seq blob => a.readSegmentBytes source_id stream seq = some blob)
      (run.map Prod.fst) blobs → blobs = run.map fun e => e.2.bytes
  | [], _, _, .nil => rfl
  | e :: run, _, hmem, .cons hread hreads => by
      have he : a.readSegmentBytes source_id stream e.1 = some e.2.bytes := by
        rw [readSegmentBytes, OrdMap.get?_eq_some.mpr (hmem e (by simp))]
        rfl
      rw [blobs_eq (fun f hf => hmem f (by simp [hf])) hreads,
        Option.some.inj (hread.symm.trans he)]
      rfl

/-- The catalog facts of the pass, as they are read at its start. -/
def metasOf (es : List (Nat × SegmentCols)) : List (Nat × SegmentMeta) :=
  es.map fun e => (e.1, e.2.seg_meta)

/-- **A concatenated run is replaced by its merge.** -/
theorem Concatenated.mergeOf {a : Archive} {es : List (Nat × SegmentCols)} {planned : Nat}
    {bytes : Bytes} {consumed : Nat} {first last : Nat × SegmentMeta}
    (hmem : ∀ e ∈ es, e ∈ (a.catalog (streamKey source_id stream)).entries)
    (h : Concatenated pq policy a source_id stream
      (((metasOf es).take planned).map Prod.fst) (bytes, consumed)) (htwo : ¬ consumed < 2)
    (hfirst : ((metasOf es).take consumed).head? = some first)
    (hlast : ((metasOf es).take consumed).getLast? = some last) :
    consumed ≤ es.length ∧
    MergeOf pq policy (es.take consumed) (first.1,
      { seg_meta := runMeta ((metasOf es).take consumed) first.2 last.2, bytes,
        caller_index := none }) := by
  obtain hlt | ⟨-, hle, blobs, hreads, hrows⟩ := h
  · exact absurd hlt htwo
  have hlen : consumed ≤ planned ∧ consumed ≤ es.length := by
    simpa [metasOf] using hle
  have hseqs : (((metasOf es).take planned).map Prod.fst).take consumed =
      (es.take consumed).map Prod.fst := by
    simp only [metasOf, ← List.map_take, List.map_map, List.take_take, Nat.min_eq_left hlen.1]
    rfl
  rw [hseqs] at hreads
  have hblobs := blobs_eq (fun e he => hmem e (List.mem_of_mem_take he)) hreads
  have htake : (metasOf es).take consumed = metasOf (es.take consumed) := by
    simp [metasOf, List.map_take]
  rw [htake, metasOf, List.head?_map, Option.map_eq_some_iff] at hfirst
  rw [htake, metasOf, List.getLast?_map, Option.map_eq_some_iff] at hlast
  obtain ⟨e, he, rfl⟩ := hfirst
  obtain ⟨e', he', rfl⟩ := hlast
  refine ⟨hlen.2, ?_, ?_, ?_, ?_, ?_, fun hpq hnd => ?_⟩
  · rw [List.length_take]
    omega
  · rw [he]; rfl
  · rw [he]; rfl
  · rw [he']; rfl
  · dsimp only [runMeta]
    rw [htake, metasOf, List.map_map]
    rfl
  · have hkept := hrows hpq (by
      rw [hblobs]
      intro blob hblob
      obtain ⟨f, hf, rfl⟩ := List.mem_map.mp hblob
      exact hnd f hf)
    rwa [hblobs, List.flatMap_map] at hkept

/-! ## The pass -/

/-- One transaction of a pass: a run of adjacent segments becomes its merge, or the merge
is refused. -/
inductive MergeStep (pq : Parquet Props Writer) (policy : SchemaPolicy) (source_id : Int)
    (stream : String) : Disk → Disk → Prop where
  | merged {d : Disk} {db : Archive} {before run after : List (Nat × SegmentCols)}
      {m : Nat × SegmentCols} {seqs : List Nat} {seq : Nat} {seg_meta : SegmentMeta}
      {bytes : Bytes} :
      (d.db.catalog (streamKey source_id stream)).entries = before ++ run ++ after →
      MergeOf pq policy run m → Replaced (streamKey source_id stream) d.db db before m after →
      MergeStep pq policy source_id stream d { d with
        db, log := d.log ++ [(d.db, .merge source_id stream seqs seq seg_meta bytes)] }
  | refused {d : Disk} {seqs : List Nat} {seq : Nat} {seg_meta : SegmentMeta} {bytes : Bytes}
      {error : Error} : MergeStep pq policy source_id stream d { d with
        refused := d.refused ++ [⟨d.db, .merge source_id stream seqs seq seg_meta bytes, error⟩] }

/-- Whether a transaction is a merge in a stream. -/
def Write.isMergeOf (source_id : Int) (stream : String) : Write → Prop
  | .merge source_id' stream' .. => source_id' = source_id ∧ stream' = stream
  | _ => False

/-- Where a pass over the catalog `es` of `d₀` stands at `pos`: what it has been over is
merged, and the rest is as it was. -/
structure Pass (pq : Parquet Props Writer) (policy : SchemaPolicy) (source_id : Int)
    (stream : String) (d₀ : Disk) (es : List (Nat × SegmentCols)) (pos : Nat) (done : Compacted)
    (d : Disk) : Prop where
  pos_le : pos ≤ es.length
  before : done.before = es.length
  front : ∃ front, (d.db.catalog (streamKey source_id stream)).entries = front ++ es.drop pos ∧
    Merges pq policy done.merges (es.take pos) front ∧
    done.after = front.length + (es.length - pos)
  /-- Each stored segment is an old one with its index, or a merge, without one. -/
  stored : ∀ e ∈ (d.db.catalog (streamKey source_id stream)).entries,
    (e ∈ es ∧ d.db.segmentIndex (streamKey source_id stream) e.1 e.2 =
      d₀.db.segmentIndex (streamKey source_id stream) e.1 e.2) ∨
    ∃ run, run <:+: es ∧ MergeOf pq policy run e ∧
      d.db.segmentIndex (streamKey source_id stream) e.1 e.2 = none
  only : OnlyCatalog (streamKey source_id stream) d₀.db d.db
  log : ∃ merges, d.log = d₀.log ++ merges ∧ merges.length = done.merges ∧
    ∀ e ∈ merges, e.2.isMergeOf source_id stream

variable {d₀ d : Disk} {es : List (Nat × SegmentCols)} {pos : Nat} {done : Compacted}

theorem pass_init (d : Disk) : Pass pq policy source_id stream d
    (d.db.catalog (streamKey source_id stream)).entries 0
    { before := (d.db.catalog (streamKey source_id stream)).entries.length
      after := (d.db.catalog (streamKey source_id stream)).entries.length
      merges := 0 } d where
  pos_le := Nat.zero_le _
  before := rfl
  front := ⟨[], rfl, .nil, by simp⟩
  stored _ he := .inl ⟨he, rfl⟩
  only := .refl _ _
  log := ⟨[], by simp, rfl, by simp⟩

/-- A segment that is left where it is. -/
theorem Pass.skip (h : Pass pq policy source_id stream d₀ es pos done d)
    (hpos : pos < es.length) : Pass pq policy source_id stream d₀ es (pos + 1) done d := by
  obtain ⟨front, hcat, hmerges, hafter⟩ := h.front
  refine ⟨hpos, h.before, ⟨front ++ [es[pos]], ?_, ?_, ?_⟩, h.stored, h.only, h.log⟩
  · rw [hcat, List.drop_eq_getElem_cons hpos, List.append_assoc]
    rfl
  · rw [List.take_succ_eq_append_getElem hpos]
    exact hmerges.append (.refl _)
  · rw [hafter, List.length_append, List.length_singleton]
    omega

/-- A run that is replaced by its merge. -/
theorem Pass.replace {consumed : Nat} {m : Nat × SegmentCols} {db : Archive}
    {w : Write} (h : Pass pq policy source_id stream d₀ es pos done d)
    (htwo : 2 ≤ consumed) (hle : consumed ≤ (es.drop pos).length)
    (hm : MergeOf pq policy ((es.drop pos).take consumed) m)
    (hdb : ∀ front, (d.db.catalog (streamKey source_id stream)).entries =
        front ++ (es.drop pos).take consumed ++ (es.drop pos).drop consumed →
      Replaced (streamKey source_id stream) d.db db front m ((es.drop pos).drop consumed)) (hw : w.isMergeOf source_id stream) :
    Pass pq policy source_id stream d₀ es (pos + consumed)
      { done with merges := done.merges + 1, after := done.after - (consumed - 1) }
      { d with db, log := d.log ++ [(d.db, w)] } := by
  obtain ⟨front, hfront, hmerges, hafter⟩ := h.front
  obtain ⟨merges, hlog, hlen, hall⟩ := h.log
  rw [List.length_drop] at hle
  have hcat : (d.db.catalog (streamKey source_id stream)).entries =
      front ++ (es.drop pos).take consumed ++ (es.drop pos).drop consumed := by
    rw [hfront, List.append_assoc, List.take_append_drop]
  have hr := hdb front hcat
  refine ⟨by omega, h.before, ⟨front ++ [m], ?_, ?_, ?_⟩, fun e he => ?_, h.only.trans hr.only,
    merges ++ [(d.db, w)], ?_, ?_, fun e he => ?_⟩
  · rw [hr.catalog, List.drop_drop, List.append_assoc]
    rfl
  · have hrun : Merges pq policy 1 ((es.drop pos).take consumed) [m] := by
      simpa using Merges.merge hm Merges.nil
    rw [List.take_add]
    exact hmerges.append hrun
  · dsimp only
    rw [hafter, List.length_append, List.length_singleton]
    omega
  · dsimp only at he ⊢
    rw [hr.catalog] at he
    have hcases : e = m ∨ e ∈ front ++ (es.drop pos).drop consumed := by
      simp only [List.mem_append, List.mem_cons] at he ⊢
      tauto
    rcases hcases with rfl | he
    · exact .inr ⟨_, (List.take_prefix _ _).isInfix.trans (List.drop_suffix _ _).isInfix, hm,
        hr.index⟩
    · have hold : e ∈ (d.db.catalog (streamKey source_id stream)).entries := by
        rw [hcat]
        simp only [List.mem_append] at he ⊢
        tauto
      rw [hr.indexes e he]
      exact h.stored e hold
  · dsimp only
    rw [hlog, List.append_assoc]
  · rw [List.length_append, hlen]
    rfl
  · rcases List.mem_append.mp he with he | he
    · exact hall e he
    · rw [List.mem_singleton.mp he]
      exact hw

theorem drop_metasOf (es : List (Nat × SegmentCols)) (pos : Nat) :
    (metasOf es).drop pos = metasOf (es.drop pos) := by
  simp [metasOf, List.map_drop]

theorem plannedBlobs_eq {a : Archive} (target_rows : UInt64)
    (h : ∀ e ∈ es.drop pos, e ∈ (a.catalog (streamKey source_id stream)).entries) :
    plannedBlobs source_id stream target_rows (metasOf es) pos a =
      (((es.drop pos).take (fits target_rows 0 ((metasOf es).drop pos))).map
        fun e => e.2.bytes).map some := by
  rw [plannedBlobs]
  generalize fits target_rows 0 ((metasOf es).drop pos) = planned
  rw [drop_metasOf, metasOf, ← List.map_take, List.map_map, List.map_map, List.map_map]
  refine List.map_congr_left fun e he => ?_
  show a.readSegmentBytes source_id stream e.1 = some e.2.bytes
  rw [readSegmentBytes, OrdMap.get?_eq_some.mpr (h e (List.mem_of_mem_take he))]
  rfl

/-- What is replaced was planned. -/
theorem Replaces.planned {spec : CompactSpec Props} {a : Archive} {bytes : Bytes}
    {consumed : Nat} {first last : Nat × SegmentMeta}
    (h : Replaces pq source_id stream spec merge (metasOf es) pos a bytes consumed first last)
    (hmem : ∀ e ∈ es.drop pos, e ∈ (a.catalog (streamKey source_id stream)).entries) :
    consumed ≤ fits spec.target_rows 0 ((metasOf es).drop pos) := by
  have hlen := h.concat.length_le h.two
  rw [plannedBlobs_eq _ hmem] at hlen
  simp only [List.length_map, List.length_take] at hlen
  omega

/-- What a run is replaced by, in terms of the catalog of the pass. -/
theorem Replaces.mergeOf {spec : CompactSpec Props} {a : Archive} {bytes : Bytes}
    {consumed : Nat} {first last : Nat × SegmentMeta}
    (h : Replaces pq source_id stream spec merge (metasOf es) pos a bytes consumed first last)
    (hmem : ∀ e ∈ es.drop pos, e ∈ (a.catalog (streamKey source_id stream)).entries) :
    consumed ≤ (es.drop pos).length ∧ MergeOf pq spec.schema ((es.drop pos).take consumed)
      (first.1, { seg_meta := runMeta (((metasOf es).drop pos).take consumed) first.2 last.2
                  bytes, caller_index := none }) := by
  obtain ⟨-, hconcat, htwo, hfirst, hlast⟩ := h
  rw [plannedBlobs, drop_metasOf] at hconcat
  rw [drop_metasOf] at hfirst hlast ⊢
  exact hconcat.concatenated.mergeOf hmem (Nat.not_lt.mpr htwo) hfirst hlast

/-- What its transaction leaves of the stream. -/
theorem Replaces.replaced {spec : CompactSpec Props} {a db : Archive} {bytes : Bytes}
    {consumed : Nat} {first last : Nat × SegmentMeta} {front : List (Nat × SegmentCols)}
    (h : Replaces pq source_id stream spec merge (metasOf es) pos a bytes consumed first last)
    (hcat : (a.catalog (streamKey source_id stream)).entries = front ++ es.drop pos)
    (hdb : (replacement source_id stream (metasOf es) pos bytes consumed first last).apply a =
      .ok db) :
    Replaced (streamKey source_id stream) a db front
      (first.1, { seg_meta := runMeta (((metasOf es).drop pos).take consumed) first.2 last.2
                  bytes, caller_index := none }) ((es.drop pos).drop consumed) := by
  obtain ⟨-, hm⟩ := h.mergeOf fun e he => hcat ▸ List.mem_append_right _ he
  have hseqs : (((metasOf es).drop pos).take consumed).map Prod.fst =
      ((es.drop pos).take consumed).map Prod.fst := by
    simp only [metasOf, ← List.map_drop, ← List.map_take, List.map_map]
    rfl
  rw [replacement, hseqs] at hdb
  refine merge_ok ?_ hm.seq hdb
  rw [hcat, List.append_assoc, List.take_append_drop]

/-- **A turn keeps the pass.** -/
theorem Pass.turn {spec : CompactSpec Props} {pos' : Nat} {done' : Compacted} {d' : Disk}
    (h : Pass pq spec.schema source_id stream d₀ es pos done d)
    (ht : Turn pq source_id stream spec merge (metasOf es) pos done d pos' done' d') :
    ReflTransGen (MergeStep pq spec.schema source_id stream) d d' ∧
      Pass pq spec.schema source_id stream d₀ es pos' done' d' := by
  have hmetas : (metasOf es).length = es.length := by simp [metasOf]
  obtain ⟨front, hfront, -⟩ := h.front
  cases ht with
  | alone hpos => exact ⟨.refl, h.skip (hmetas ▸ hpos)⟩
  | cut hpos => exact ⟨.refl, h.skip (hmetas ▸ hpos)⟩
  | @merged _ consumed first last _ hr happly =>
      obtain ⟨hle, hm⟩ := hr.mergeOf fun e he => hfront ▸ List.mem_append_right _ he
      have hcat : (d.db.catalog (streamKey source_id stream)).entries =
          front ++ (es.drop pos).take consumed ++ (es.drop pos).drop consumed := by
        rw [hfront, List.append_assoc, List.take_append_drop]
      have hreplaced : ∀ before, (d.db.catalog (streamKey source_id stream)).entries =
          before ++ (es.drop pos).take consumed ++ (es.drop pos).drop consumed → _ :=
        fun before hbefore => hr.replaced
          (by rw [hbefore, List.append_assoc, List.take_append_drop]) happly
      exact ⟨.single (.merged hcat hm (hreplaced front hcat)),
        h.replace hr.two hle hm hreplaced ⟨rfl, rfl⟩⟩

/-- **The rule for a pass.** What holds where it begins and every turn keeps holds when it has
been over the whole catalog. -/
theorem runs_pass {R : Disk → Disk → Prop} {spec : CompactSpec Props}
    {I : Nat → Compacted → Disk → Prop}
    (hes : (d.db.catalog (streamKey source_id stream)).entries = es)
    (hstart : I 0 { before := es.length, after := es.length, merges := 0 } d)
    (hturn : ∀ {pos done d pos' done' d'}, I pos done d →
      Turn pq source_id stream spec merge (metasOf es) pos done d pos' done' d' →
      ReflTransGen R d d' ∧ I pos' done' d')
    (hdown : ∀ {pos done d d'}, I pos done d →
      TurnedDown pq source_id stream spec merge (metasOf es) pos d d' → ReflTransGen R d d') :
    Prog.Runs R (compactStreamWith pq source_id stream spec merge) d
      (fun done d' => ∃ pos, es.length ≤ pos ∧ I pos done d') fun _ _ => True := by
  have hlen : (metasOf es).length = es.length := List.length_map _
  unfold compactStreamWith
  refine .bind (Q := fun metas d' => d' = d ∧ metas = metasOf es)
    (.read (fun metas h => ⟨rfl, ?_⟩) (fun _ _ => trivial) fun _ => trivial) ?_
  · rw [← hes]
    exact (Except.ok.inj h).symm
  · rintro metas d' ⟨rfl, rfl⟩
    rw [hlen]
    have hloop := runs_turns hturn hdown hstart
    rwa [hlen] at hloop

/-- **A pass over a stream merges runs of its segments and does nothing else.** -/
theorem runs_compactStreamWith {spec : CompactSpec Props} (d : Disk) :
    Prog.Runs (MergeStep pq spec.schema source_id stream)
      (compactStreamWith pq source_id stream spec merge) d
      (fun done d' => Pass pq spec.schema source_id stream d
        (d.db.catalog (streamKey source_id stream)).entries
        (d.db.catalog (streamKey source_id stream)).entries.length done d')
      fun _ _ => True := by
  refine (runs_pass rfl (pass_init d) (fun h ht => h.turn ht) fun _ hdown => ?_).mono ?_
    fun _ _ h => h
  · cases hdown
    exact .single .refused
  · rintro done' d' ⟨pos, hpos, hpass⟩
    exact Nat.le_antisymm hpass.pos_le hpos ▸ hpass

end

end Dendro
