import Dendro.Writer.Stream

/-!
# What holds of a stream at every step

`StreamInv` is the layout of a stream's segments together with what the thread knows of it:
the segments are laid end to end, every stored `seq` is below the next one, and the thread's
watermark is at or past every segment. The thread's watermark may be past the file's: an
eviction removes segments and the caches keep their numbers.

`StreamInv.step` is the whole argument: each of the stream's steps keeps it, whatever the
encoder answered.
-/

namespace Dendro

open Spans

/-- The layout, and what the thread knows of it. -/
structure StreamInv (s : StreamState) : Prop where
  layout : Layout s.catalog.values
  /-- The next `seq` is past every stored one. -/
  seq : ∀ seq ∈ s.catalog.keys, seq < s.next
  /-- The thread's watermark is at or past every segment. -/
  known : ∀ c ∈ s.catalog.values, ∃ w, s.known = some w ∧ c.last ≤ w

theorem OrdMap.values_filter_value {ρ : Type} {κ : Type} [LinearOrder κ] (m : OrdMap κ ρ)
    (p : ρ → Bool) : (m.filter fun _ v => p v).values = m.values.filter p := by
  simp [OrdMap.values, List.filter_map, Function.comp_def]

/-! ## Rows past what the thread knows -/

/-- Past what the thread takes for the watermark is past every segment. -/
theorem StreamInv.beyond {s : StreamState} (h : StreamInv s) {ts : Int64}
    (hts : Spans.beyond s.known ts = true) : ∀ c ∈ s.catalog.values, c.last < ts := by
  intro c hc
  obtain ⟨w, hw, hle⟩ := h.known c hc
  rw [hw] at hts
  exact lt_of_le_of_lt hle (beyond_some.mp hts)

theorem mem_liveRows {s : StreamState} {stream : String} {r : WalRow} :
    r ∈ s.liveRows stream ↔ r.stream = stream ∧ (r.ts, r.cols) ∈ s.wal.entries ∧
      ∀ c ∈ s.catalog.values, c.last < r.ts := by
  unfold StreamState.liveRows StreamState.live
  rw [OrdMap.entries_filter, List.mem_map]
  constructor
  · rintro ⟨e, he, rfl⟩
    obtain ⟨he, hb⟩ := List.mem_filter.mp he
    exact ⟨rfl, he, beyond_newest.mp hb⟩
  · rintro ⟨rfl, he, hb⟩
    exact ⟨(r.ts, r.cols), List.mem_filter.mpr ⟨he, beyond_newest.mpr hb⟩, rfl⟩

theorem liveRows_sorted (s : StreamState) (stream : String) :
    (s.liveRows stream).Pairwise fun r r' => r.ts < r'.ts :=
  List.pairwise_map.mpr (s.live.sorted.imp fun h => h)

/-! ## Segments added at the end -/

theorem partEntries_cons (layout : IndexLayout) (n : Nat) (p : Segment) (ps : List Segment) :
    partEntries layout n (p :: ps) =
      (n, Archive.storedCols layout p.segMeta p.bytes p.index) :: partEntries layout (n + 1) ps :=
  rfl

theorem partEntries_values (layout : IndexLayout) : ∀ (n : Nat) (parts : List Segment),
    (partEntries layout n parts).map Prod.snd =
      parts.map fun p => Archive.storedCols layout p.segMeta p.bytes p.index
  | _, [] => rfl
  | n, p :: ps => by rw [partEntries_cons, List.map_cons, partEntries_values layout (n + 1) ps]; rfl

theorem partEntries_keys (layout : IndexLayout) : ∀ (n : Nat) (parts : List Segment),
    (partEntries layout n parts).map Prod.fst = List.range' n parts.length
  | _, [] => rfl
  | n, p :: ps => by
      rw [partEntries_cons, List.map_cons, partEntries_keys layout (n + 1) ps]
      rfl

/-- Entries numbered from past the catalog on land at its end. -/
theorem entries_insertAll_parts {catalog : OrdMap Nat SegmentCols} {n : Nat}
    (hn : ∀ seq ∈ catalog.keys, seq < n) (layout : IndexLayout) (parts : List Segment) :
    (catalog.insertAll (partEntries layout n parts)).entries =
      catalog.entries ++ partEntries layout n parts := by
  refine OrdMap.entries_insertAll_of_sorted (List.pairwise_append.mpr ⟨catalog.sorted, ?_, ?_⟩)
  · have hkeys := List.pairwise_lt_range' (s := n) (n := parts.length)
    rw [← partEntries_keys layout n parts] at hkeys
    exact List.pairwise_map.mp hkeys
  · intro e he x hx
    have hxn : x.1 ∈ List.range' n parts.length :=
      partEntries_keys layout n parts ▸ List.mem_map.mpr ⟨x, hx, rfl⟩
    exact lt_of_lt_of_le (hn e.1 (List.mem_map.mpr ⟨e, he, rfl⟩)) (List.mem_range'_1.mp hxn).1

theorem values_insertAll_parts {catalog : OrdMap Nat SegmentCols} {n : Nat}
    (hn : ∀ seq ∈ catalog.keys, seq < n) (layout : IndexLayout) (parts : List Segment) :
    (catalog.insertAll (partEntries layout n parts)).values = catalog.values ++
      parts.map fun p => Archive.storedCols layout p.segMeta p.bytes p.index := by
  rw [OrdMap.values, entries_insertAll_parts hn, List.map_append, partEntries_values]
  rfl

theorem keys_insertAll_parts {catalog : OrdMap Nat SegmentCols} {n : Nat}
    (hn : ∀ seq ∈ catalog.keys, seq < n) (layout : IndexLayout) (parts : List Segment) :
    (catalog.insertAll (partEntries layout n parts)).keys =
      catalog.keys ++ List.range' n parts.length := by
  rw [OrdMap.keys, entries_insertAll_parts hn, List.map_append, partEntries_keys]
  rfl

/-- The thread's next `seq` of every stream is past every stored one. -/
def Numbered (s : WriterState) : Prop :=
  ∀ k, ∀ seq ∈ (s.stream k).catalog.keys, seq < (s.stream k).next

/-- **The segments of a batch go where there is none exactly when no stream that it names
twice has parts.** -/
theorem SealPlan.fresh_iff {env : Env} {s : WriterState} {source_id : Int} {batch : List String}
    {encoded : List Encoded} {parts : String → List Segment}
    (plan : SealPlan env s source_id batch encoded parts) (hnumbered : Numbered s) :
    s.db.Fresh source_id encoded ↔ ∀ stream, 1 < batch.count stream → parts stream = [] := by
  constructor
  · intro hfresh stream hcount
    obtain ⟨n, hn⟩ := Nat.exists_eq_add_of_le' (Nat.succ_le_of_lt hcount)
    have hfilter : (encoded.filter fun e => streamKey source_id e.stream = streamKey source_id stream) =
        (List.replicate (n + 2) (numbered stream (s.stream (streamKey source_id stream)).next
          (parts stream))).flatten := by
      rw [plan.filter_eq, ofLex_toLex, if_pos rfl, hn]
    have hnd := hfresh.nodup (streamKey source_id stream)
    rw [Archive.entries, List.map_map, hfilter] at hnd
    -- a stream named twice uses its first `seq` twice
    rcases hps : parts stream with _ | ⟨p, ps⟩
    · rfl
    · rw [hps] at hnd
      simp [List.replicate_succ, encodedPart, Archive.entry] at hnd
  · intro hparts
    have hentries : ∀ k, ∃ ps : List Segment, Archive.entries s.db.layout source_id encoded k =
        partEntries s.db.layout (s.stream k).next ps := by
      intro k
      rw [Archive.entries, plan.filter_eq k]
      split
      · rcases Nat.lt_or_ge 1 (batch.count (ofLex k).2) with hcount | hcount
        · refine ⟨[], ?_⟩
          rw [hparts _ hcount, numbered_nil]
          simp [partEntries]
        · rcases Nat.le_one_iff_eq_zero_or_eq_one.mp hcount with hcount | hcount
          · exact ⟨[], by rw [hcount]; rfl⟩
          · refine ⟨parts (ofLex k).2, ?_⟩
            rw [hcount, List.replicate_one, List.flatten_singleton, numbered_entries]
      · exact ⟨[], rfl⟩
    refine ⟨fun k => ?_, fun k x hx => ?_⟩
    · obtain ⟨ps, hps⟩ := hentries k
      rw [hps, partEntries_keys]
      exact List.nodup_range'
    · obtain ⟨ps, hps⟩ := hentries k
      rw [hps] at hx
      have hge : (s.stream k).next ≤ x.1 := by
        have hmem : x.1 ∈ List.range' (s.stream k).next ps.length :=
          partEntries_keys s.db.layout (s.stream k).next ps ▸ List.mem_map.mpr ⟨x, hx, rfl⟩
        exact (List.mem_range'_1.mp hmem).1
      refine Option.eq_none_iff_forall_ne_some.mpr fun c hc => ?_
      have hlt := hnumbered k x.1 (OrdMap.mem_keys.mpr ⟨c, hc⟩)
      omega

section

variable {env : Env} {msg : Msg} {k : StreamKey} {s : StreamState}

/-- The segments of a seal, as they are stored, start past every older one. -/
theorem sealOf_stored {uuid : Option String} {parts : List Segment}
    (hseal : SealOf env.encoder ⟨(ofLex k).1, uuid, (ofLex k).2⟩ (s.liveRows (ofLex k).2) parts)
    (layout : IndexLayout) :
    let stored := parts.map fun p => Archive.storedCols layout p.segMeta p.bytes p.index
    Layout stored ∧ ∀ c ∈ s.catalog.values, ∀ c' ∈ stored, c.last < c'.first := by
  have hlaid := hseal.laid (liveRows_sorted s _)
  refine ⟨⟨fun c hc => ?_, fun c hc => ?_, ?_⟩, fun c hc c' hc' => ?_⟩
  · obtain ⟨p, hp, rfl⟩ := List.mem_map.mp hc
    obtain ⟨part, hof, -⟩ := hseal.mem hp
    exact hof.span.1
  · obtain ⟨p, hp, rfl⟩ := List.mem_map.mp hc
    exact hlaid.span p hp
  · exact List.pairwise_map.mpr hlaid.ordered
  · obtain ⟨p, hp, rfl⟩ := List.mem_map.mp hc'
    obtain ⟨part, hof, hsub⟩ := hseal.mem hp
    obtain ⟨-, -, ⟨r, hr, hle⟩, -⟩ := hof.span
    exact lt_of_lt_of_le ((mem_liveRows.mp (hsub.subset hr)).2.2 c hc) hle

/-- Every step of a stream keeps its next `seq` past every stored one. -/
theorem StreamStep.numbered {e : Effect} {s' : StreamState} (hs : StreamStep env msg k e s s')
    (h : ∀ seq ∈ s.catalog.keys, seq < s.next) : ∀ seq ∈ s'.catalog.keys, seq < s'.next := by
  intro seq hseq
  cases hs with
  | same => exact h seq hseq
  | rows => exact h seq hseq
  | prune => exact h seq hseq
  | cut =>
      obtain ⟨c, hc⟩ := OrdMap.mem_keys.mp hseq
      exact h seq (OrdMap.mem_keys.mpr ⟨c, (OrdMap.get?_filter_eq_some.mp hc).1⟩)
  | @sealed _ uuid init tail layout =>
      rw [keys_insertAll_parts h, List.mem_append] at hseq
      show seq < s.next + init.length + 1
      rcases hseq with hseq | hseq
      · have := h seq hseq
        omega
      · have := (List.mem_range'_1.mp hseq).2
        simpa [Nat.add_assoc] using this
  | @adopted _ segment layout =>
      rw [OrdMap.keys_insert_of_lt _ h, List.mem_append, List.mem_singleton] at hseq
      rcases hseq with hseq | rfl
      · exact Nat.lt_succ_of_lt (h seq hseq)
      · exact Nat.lt_succ_self _

/-- **Every step of a stream keeps its layout and what the thread knows of it.** -/
theorem StreamInv.step {e : Effect} {s' : StreamState} (hs : StreamStep env msg k e s s')
    (h : StreamInv s) : StreamInv s' := by
  have hseq := hs.numbered h.seq
  cases hs with
  | same => exact h
  | rows => exact ⟨h.layout, hseq, h.known⟩
  | prune => exact ⟨h.layout, hseq, h.known⟩
  | @cut _ cutoff_ts =>
      have hvalues := OrdMap.values_filter_value s.catalog fun c => !decide (c.last < cutoff_ts)
      have hsub : (s.catalog.filter fun _ c => !decide (c.last < cutoff_ts)).values.Sublist
          s.catalog.values := hvalues ▸ List.filter_sublist
      exact ⟨h.layout.sublist hsub, hseq, fun c hc => h.known c (hsub.subset hc)⟩
  | @sealed _ uuid init tail layout hseal =>
      obtain ⟨hnew, hpast⟩ := sealOf_stored hseal layout
      have hvalues := values_insertAll_parts h.seq layout (init ++ [tail])
      have hall : Layout _ := hvalues ▸ h.layout.append hnew hpast
      refine ⟨hall, hseq, fun c hc => ⟨tail.last_ts, rfl, ?_⟩⟩
      -- the tail is the newest run of the whole layout
      have hlaid := hall.laid
      rw [hvalues, List.map_append, List.map_singleton, ← List.append_assoc] at hlaid hc
      exact le_newest hlaid.newest_concat hc
  | @adopted _ segment layout hmsg hstream hrows hspan hpast hlive =>
      have hvalues : (s.catalog.insert s.next _).values = s.catalog.values ++
          [Archive.storedCols layout segment.seg_meta segment.bytes segment.caller_index] :=
        OrdMap.values_insert_of_lt _ h.seq
      have hnew : Layout [Archive.storedCols layout segment.seg_meta segment.bytes
          segment.caller_index] := by
        refine ⟨fun c hc => ?_, .singleton hspan⟩
        rw [List.mem_singleton.mp hc]
        exact Nat.one_le_iff_ne_zero.mpr fun h0 => hrows (UInt64.toNat_inj.mp h0)
      have hall : Layout _ := hvalues ▸ h.layout.append hnew fun c hc c' hc' => by
        rw [List.mem_singleton.mp hc']
        exact h.beyond hpast c hc
      refine ⟨hall, hseq, fun c hc => ⟨segment.seg_meta.last_ts, rfl, ?_⟩⟩
      have hlaid := hall.laid
      rw [hvalues] at hlaid hc
      exact le_newest hlaid.newest_concat hc

end

end Dendro
