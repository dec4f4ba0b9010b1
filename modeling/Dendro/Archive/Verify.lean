import Dendro.Archive.Stream

/-!
# The catalogue walk of `verify`

The part of `Archive::verify` that is dendro's own: the walk over the catalog's invariants.
What SQLite checks of its own pages and references (`quick_check`, `integrity_check`,
`foreign_key_check`) comes before it and is not modelled.
-/

namespace Dendro

/-- One thing wrong with an archive. -/
inductive Problem where
  | corrupt (text : String)
  | foreignKey (text : String)
  /-- A segment whose catalog entry contradicts itself. -/
  | segment (source_id : Int) (stream : String) (seq : Nat) (detail : String)
  /-- WAL rows that no read path can reach. -/
  | unreadableWalRows (source_id : Int) (stream : String) (rows : Nat)
  deriving DecidableEq, Repr

/-- What a problem prints. -/
def Problem.display : Problem → String
  | .corrupt text => s!"corrupt: {text}"
  | .foreignKey text => s!"dangling reference: {text}"
  | .segment source_id stream seq detail =>
      s!"source {source_id}, stream {stream}, segment {seq}: {detail}"
  | .unreadableWalRows source_id stream rows =>
      s!"source {source_id}, stream {stream}: {rows} WAL row(s) at or below the sealed watermark, which no read path can reach"

/-- What `verify` found. Empty `problems` is a sound archive. -/
structure Report where
  sources : Nat
  streams : Nat
  segments : Nat
  /-- WAL rows the archive holds, whether or not a reader can see them. -/
  wal_rows : Nat
  problems : List Problem
  deriving DecidableEq, Repr

def Report.isSound (r : Report) : Bool := r.problems.isEmpty

namespace Archive

/-- How a catalog entry contradicts itself. -/
def entryFaults (m : SegmentMeta) : List String :=
  (if m.last_ts < m.first_ts then
    [s!"spans [{m.first_ts}, {m.last_ts}], which runs backwards"] else []) ++
  if m.rows = 0 then ["claims no rows; such a segment should not exist"] else []

variable (a : Archive)

/-- Every WAL row the archive holds for a stream, live or shadowed. -/
def totalWalRows (source_id : Int) (stream : String) : Nat :=
  (a.walOf (streamKey source_id stream)).entries.length

/-- What the walk finds in one stream. -/
def walkStream (source_id : Int) (stream : String) : List Problem :=
  let all := a.totalWalRows source_id stream
  let live := (a.liveWalSpan source_id stream).rows
  ((a.readSegmentMeta source_id stream).flatMap fun s =>
    (entryFaults s.2).map (.segment source_id stream s.1)) ++
  if live < all then [.unreadableWalRows source_id stream (all - live)] else []

/-- The walk of `verify` over the catalog's own invariants. -/
def catalogWalk : Report :=
  let walked := a.readSources.flatMap fun src => (a.allStreams src.id).map (src.id, ·)
  { sources := a.readSources.length
    streams := walked.length
    segments := (walked.map fun s => (a.readSegmentMeta s.1 s.2).length).sum
    wal_rows := (walked.map fun s => a.totalWalRows s.1 s.2).sum
    problems := walked.flatMap fun s => a.walkStream s.1 s.2 }

variable {a : Archive} {source_id : Int} {stream : String}

/-- Every WAL row of a stream is past its newest segment. -/
def AllLive (a : Archive) (k : StreamKey) : Prop := ∀ ts ∈ (a.walOf k).keys, a.isLive k ts = true

/-- A layout has no entry that contradicts itself. -/
theorem entryFaults_layout {c : SegmentCols} {k : StreamKey} (h : Layout (a.runs k))
    (hc : c ∈ a.runs k) : entryFaults c.seg_meta = [] := by
  have hspan : ¬c.seg_meta.last_ts < c.seg_meta.first_ts := not_lt.mpr (h.laid.span c hc)
  have hrows : ¬c.seg_meta.rows = 0 := by
    intro h0
    have hpos := h.rows c hc
    rw [h0] at hpos
    exact absurd hpos (by decide)
  rw [entryFaults, if_neg hspan, if_neg hrows, List.append_nil]

/-- The walk counts fewer live rows than it counts rows iff some row is not live. -/
theorem liveWalSpan_lt_iff : (a.liveWalSpan source_id stream).rows < a.totalWalRows source_id stream ↔
    ¬AllLive a (streamKey source_id stream) := by
  have hrows : (a.liveWalSpan source_id stream).rows =
      ((a.walOf (streamKey source_id stream)).entries.filter fun e =>
        a.isLive (streamKey source_id stream) e.1).length := by
    simp [liveWalSpan, live, OrdMap.keys]
  have hle := List.length_filter_le (fun e : Int64 × WalCols =>
    a.isLive (streamKey source_id stream) e.1) (a.walOf (streamKey source_id stream)).entries
  have hall : AllLive a (streamKey source_id stream) ↔
      ((a.walOf (streamKey source_id stream)).entries.filter fun e =>
        a.isLive (streamKey source_id stream) e.1).length =
          (a.walOf (streamKey source_id stream)).entries.length := by
    rw [List.length_filter_eq_length_iff]
    constructor
    · intro h e he
      exact h e.1 (List.mem_map.mpr ⟨e, he, rfl⟩)
    · intro h ts hts
      obtain ⟨e, he, rfl⟩ := List.mem_map.mp hts
      exact h e he
  rw [hrows, totalWalRows, hall]
  omega

/-- **In a laid-out stream the walk finds rows at or below the watermark, and nothing else.** -/
theorem walkStream_eq (h : Layout (a.runs (streamKey source_id stream))) :
    a.walkStream source_id stream =
      if (a.liveWalSpan source_id stream).rows < a.totalWalRows source_id stream then
        [.unreadableWalRows source_id stream
          (a.totalWalRows source_id stream - (a.liveWalSpan source_id stream).rows)]
      else [] := by
  have hnone : ((a.readSegmentMeta source_id stream).flatMap fun s =>
      (entryFaults s.2).map (Problem.segment source_id stream s.1)) = [] := by
    refine List.flatMap_eq_nil_iff.mpr fun s hs => ?_
    obtain ⟨e, he, rfl⟩ := List.mem_map.mp hs
    rw [entryFaults_layout h (List.mem_map.mpr ⟨e, he, rfl⟩)]
    rfl
  rw [walkStream, hnone, List.nil_append]

end Archive

end Dendro
