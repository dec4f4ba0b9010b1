import Dendro.Rewrite.CompactProof
import Dendro.Writer.World

/-!
# Segment layout in every reachable state

An archive's life is a list of episodes: an event of the writer, or a rewrite of a file no
thread owns (a compaction pass, an eviction). Segments come from seals, from adoptions and
from merges, each with its own checks, and every one of them keeps the layout: a seal and
an adoption because they start past what the thread knows, a merge because it covers a run.

The thread's next `seq` is past every stored one in every state, so no seal or adoption is
ever refused over the primary key of `segments` (`segment_layout`).
-/

namespace Dendro

open Relation Spans

/-! ## A merge and the layout -/

/-- How many rows the catalog of a stream counts. -/
def Archive.rowCount (a : Archive) (k : StreamKey) : Nat := rowSum (a.catalog k).entries

section

variable {Props Writer Run : Type} {pq : Parquet Props Writer} {policy : SchemaPolicy}
  {source_id : Int} {stream : String} {d d' : Disk}

theorem laidOut_iff {es : List (Nat × SegmentCols)} :
    LaidOut es ↔ Laid SegmentCols.first SegmentCols.last (es.map Prod.snd) := by
  constructor
  · intro h
    refine ⟨fun c hc => ?_, List.pairwise_map.mpr h.ordered⟩
    obtain ⟨e, he, rfl⟩ := List.mem_map.mp hc
    exact h.span e he
  · intro h
    exact ⟨fun e he => h.span e.2 (List.mem_map.mpr ⟨e, he, rfl⟩), List.pairwise_map.mp h.ordered⟩

/-- **A merge keeps the layout and the row count of every stream.** -/
theorem MergeStep.layout (h : MergeStep pq policy source_id stream d d') {k : StreamKey}
    (hsum : d.db.rowCount k < 2 ^ 64) (hl : Layout (d.db.runs k)) :
    Layout (d'.db.runs k) ∧ d'.db.rowCount k = d.db.rowCount k := by
  cases h with
  | refused => exact ⟨hl, rfl⟩
  | @merged db before run after m seqs seq seg_meta bytes hcat hm hr =>
      by_cases hk : k = streamKey source_id stream
      · subst hk
        have hmerges : Merges pq policy (0 + (0 + 1))
            (d.db.catalog (streamKey source_id stream)).entries
            (db.catalog (streamKey source_id stream)).entries := by
          rw [hcat, hr.catalog, List.append_assoc]
          exact (Merges.refl before).append (.merge hm (.refl after))
        obtain ⟨hrows, hpos⟩ := hmerges.rows hsum fun e he =>
          hl.rows e.2 (List.mem_map.mpr ⟨e, he, rfl⟩)
        refine ⟨⟨fun c hc => ?_, ?_⟩, hrows⟩
        · obtain ⟨e, he, rfl⟩ := List.mem_map.mp hc
          exact hpos e he
        · exact laidOut_iff.mp (hmerges.laid (laidOut_iff.mpr hl.laid))
      · have hsame : db.catalog k = d.db.catalog k := hr.only.catalog k hk
        simpa only [Archive.runs, Archive.rowCount, hsame, and_true] using hl

theorem mergeSteps_layout (h : ReflTransGen (MergeStep pq policy source_id stream) d d')
    {k : StreamKey} (hsum : d.db.rowCount k < 2 ^ 64) (hl : Layout (d.db.runs k)) :
    Layout (d'.db.runs k) ∧ d'.db.rowCount k = d.db.rowCount k := by
  induction h with
  | refl => exact ⟨hl, rfl⟩
  | tail _ hlast ih =>
      obtain ⟨hl', hcount⟩ := ih
      obtain ⟨hl'', hcount'⟩ := hlast.layout (hcount ▸ hsum) hl'
      exact ⟨hl'', hcount'.trans hcount⟩

end

/-! ## Refused inserts -/

/-- A refused transaction that is not a segment insert refused over its primary key. A batch
that names a stream twice is the exception. -/
def Refusal.NoCollision (r : Refusal) : Prop :=
  match r.write with
  | .seal _ batch _ _ => batch.Nodup → ∃ context, r.error = foreignKeyError context
  | .adopt .. => ∃ context, r.error = foreignKeyError context
  | _ => True

section

variable {env : Env} {msg : Msg} {s s' : WriterState}

/-- The segments of a batch that names no stream twice go where there is none. -/
theorem SealPlan.fresh {source_id : Int} {batch : List String} {encoded : List Encoded}
    {parts : String → List Segment} (plan : SealPlan env s source_id batch encoded parts)
    (hnd : batch.Nodup) (hinv : ∀ k, StreamInv (s.stream k)) : s.db.Fresh source_id encoded := by
  refine (plan.fresh_iff fun k => (hinv k).seq).mpr fun stream hcount => ?_
  have hle := List.nodup_iff_count_le_one.mp hnd stream
  omega

theorem checkSource_error {a : Archive} {context : String} {source_id : Int} {e : Error}
    (h : a.checkSource context source_id = .error e) : e = foreignKeyError context := by
  unfold Archive.checkSource at h
  split at h
  · exact absurd h (by simp)
  · exact (Except.error.inj h).symm

theorem insertClockOffset_error {a : Archive} {source_id : Int} {ts offset : Int64} {e : Error}
    (h : a.insertClockOffset source_id ts offset = .error e) :
    ∃ context, e = foreignKeyError context := by
  unfold Archive.insertClockOffset at h
  dsimp only at h
  split at h
  · exact absurd h (by simp [pure, Except.pure])
  · simp only [Except.bind_eq_error] at h
    rcases h with h | ⟨-, -, h⟩
    · exact ⟨_, checkSource_error h⟩
    · exact absurd h (by simp [pure, Except.pure])

/-- A transaction that does not insert a segment makes no collision. -/
theorem noCollision_run {w : Write} (h : ∀ e, w.apply s.db = .error e →
      Refusal.NoCollision ⟨s.db, w, e⟩) (hs : ∀ r ∈ s.disk.refused, r.NoCollision) :
    ∀ r ∈ (s.run w).disk.refused, r.NoCollision := by
  rcases ha : w.apply s.db with e | db
  · rw [run_of_error ha]
    intro r hr
    rcases List.mem_append.mp hr with hr | hr
    · exact hs r hr
    · rw [List.mem_singleton.mp hr]
      exact h e ha
  · rw [run_of_ok ha]
    exact hs

/-- **No segment of a seal or an adoption lands on a stored one.** -/
theorem WriterStep.noCollision (h : WriterStep env msg s s') (hinv : ∀ k, StreamInv (s.stream k))
    (hs : ∀ r ∈ s.disk.refused, r.NoCollision) : ∀ r ∈ s'.disk.refused, r.NoCollision := by
  cases h with
  | memory => exact hs
  | resumed => exact hs
  | @beside w hw =>
      refine noCollision_run (fun e _ => ?_) hs
      cases w <;> first | exact trivial | exact absurd hw (by simp [Write.beside])
  | walRows => exact noCollision_run (fun _ _ => trivial) hs
  | prune => exact noCollision_run (fun _ _ => trivial) hs
  | evict => exact noCollision_run (fun _ _ => trivial) hs
  | evictStreams => exact noCollision_run (fun _ _ => trivial) hs
  | sealed _ plan _ hdb =>
      rw [run_of_ok hdb]
      exact hs
  | @sealRefused source_id batch encoded parts observation e _ plan he =>
      refine noCollision_run (fun e he hnd => ?_) hs
      simp only [Write.apply, Except.bind_eq_error] at he
      rcases he with he | ⟨a, -, he⟩
      · exact (plan.fresh hnd hinv).not_unique he
      · split at he
        · exact insertClockOffset_error he
        · exact absurd he (by simp [pure, Except.pure])
  | adopted hmsg plan hdb =>
      rw [run_of_ok hdb]
      exact hs
  | @adoptRefused source_id segment e hmsg plan he =>
      refine noCollision_run (fun e he => ?_) hs
      rcases Archive.insertSegment_unique he with ⟨c, hc⟩ | hfk
      · have hlt := (hinv (streamKey source_id segment.stream)).seq _ (OrdMap.mem_keys.mpr ⟨c, hc⟩)
        exact absurd hlt (lt_irrefl _)
      · exact hfk

end

/-! ## Episodes -/

/-- What can happen to an archive: an event of the writer, or a rewrite of a file that no
thread owns. -/
inductive Episode : Type 1 where
  | writer (event : Event)
  | compact {Props Writer Run : Type} (pq : Parquet Props Writer) (source_id : Int)
      (stream : String) (spec : CompactSpec Props) (merge : MetadataMerge Run)
      (faults : List (Fault StorageFailure))
  | evictBefore (source_id : Int) (cutoff_ts : Int64) (floor : Option Archive.CallerRowFloor)
      (names : List String)
  | evictStreamsBefore (source_id : Int) (cutoff_ts : Int64)
      (floor : Option Archive.CallerRowFloor) (streams : List String)

namespace World

/-- A rewrite is refused while a thread holds the file. -/
def rewrite (w : World) (f : Disk → Disk) : World :=
  match w.mem with
  | none => { w with disk := f w.disk }
  | some _ => w

def step (w : World) : Episode → World
  | .writer event => w.apply event
  | .compact pq source_id stream spec merge faults =>
    w.rewrite fun d => (compactStreamWith pq source_id stream spec merge d faults).2.1
  | .evictBefore source_id cutoff_ts floor names =>
    w.rewrite fun d => (d.run (.evict source_id cutoff_ts floor names)).2
  | .evictStreamsBefore source_id cutoff_ts floor streams =>
    w.rewrite fun d => (d.run (.evictStreams source_id cutoff_ts floor streams)).2

/-- An archive's life. -/
def live (w : World) (episodes : List Episode) : World := episodes.foldl step w

/-- The row counts of a stream's segments sum to less than 2^63 in every state between two
episodes. -/
def Countable (k : StreamKey) : World → List Episode → Prop
  | w, [] => w.disk.db.rowCount k < 2 ^ 63
  | w, e :: es => w.disk.db.rowCount k < 2 ^ 63 ∧ Countable k (w.step e) es

/-- What holds of one stream of a file and of the thread that owns it. -/
structure Ordered (k : StreamKey) (w : World) : Prop where
  layout : Layout (w.disk.db.runs k)
  thread : ∀ m, w.mem = some m → StreamInv (streamState w.disk.db m k)

end World

/-! ### The writer's episodes -/

section

variable {env : Env} {msg : Msg} {s s' : WriterState} {k : StreamKey}

theorem StreamInv.steps (h : ReflTransGen (WriterStep env msg) s s')
    (hinv : StreamInv (s.stream k)) : StreamInv (s'.stream k) := by
  induction h with
  | refl => exact hinv
  | tail _ hlast ih =>
      rcases hlast.stream k with ⟨-, hstep⟩ | ⟨w, -, hstep⟩
      · exact ih.step hstep
      · exact ih.step hstep

theorem noCollision_steps (h : ReflTransGen (WriterStep env msg) s s')
    (hinv : ∀ k, StreamInv (s.stream k)) (hs : ∀ r ∈ s.disk.refused, r.NoCollision) :
    ∀ r ∈ s'.disk.refused, r.NoCollision := by
  induction h with
  | refl => exact hs
  | tail hsteps hlast ih => exact hlast.noCollision (fun k => (hinv k).steps hsteps) ih

theorem World.Ordered.seeded {w : World} (h : w.Ordered k) {mem : Option Caches}
    (hmem : ∀ m, mem = some m → w.mem = some m ∨ m = .seed w.disk.db) :
    World.Ordered k { w with mem } where
  layout := h.layout
  thread := by
    intro m hm
    rcases hmem m hm with hold | rfl
    · exact h.thread m hold
    · exact streamInv_seed h.layout

theorem World.Ordered.apply {w : World} (h : w.Ordered k) (event : Event) :
    (w.apply event).Ordered k := by
  rcases apply_steps w event with ⟨mem, hw, hmem⟩ | ⟨m, env, msg, s', on, hm, hw, hsteps⟩
  · rw [hw]
    exact h.seeded hmem
  · have hinv := (h.thread m hm).steps hsteps
    rw [hw]
    refine ⟨hinv.layout, fun m' hm' => ?_⟩
    cases on with
    | false => exact absurd hm' (by simp [World.left])
    | true => exact Option.some.inj hm' ▸ hinv

/-! ### Every episode -/

/-- An eviction keeps a layout. -/
theorem layout_cut {a a' : Archive} {cutoff_ts : Int64} (h : Archive.CutAt a a' k cutoff_ts)
    (hl : Layout (a.runs k)) : Layout (a'.runs k) := by
  rw [Archive.runs, h.catalog, OrdMap.values_filter_value _ fun s : SegmentCols =>
    !decide (s.last < cutoff_ts)]
  exact hl.sublist List.filter_sublist

theorem layout_same {a a' : Archive} (h : Archive.Same a a' k) (hl : Layout (a.runs k)) :
    Layout (a'.runs k) := by
  rw [Archive.runs, h.catalog]
  exact hl

theorem World.Ordered.rewrite {w : World} (h : w.Ordered k) {f : Disk → Disk}
    (hf : Layout (w.disk.db.runs k) → Layout ((f w.disk).db.runs k)) :
    (w.rewrite f).Ordered k := by
  obtain ⟨disk, mem⟩ := w
  cases mem with
  | none => exact ⟨hf h.layout, fun m hm => absurd hm (by simp [World.rewrite])⟩
  | some m => exact h

/-- **Every episode keeps a stream's layout**, as long as its row count is in range. -/
theorem World.Ordered.step {w : World} (h : w.Ordered k) (hsum : w.disk.db.rowCount k < 2 ^ 63)
    (e : Episode) : (w.step e).Ordered k := by
  cases e with
  | writer event => exact h.apply event
  | compact pq source_id stream spec merge faults =>
      refine h.rewrite (f := fun d => (compactStreamWith _ _ _ _ _ d faults).2.1) fun hl => ?_
      exact (mergeSteps_layout ((runs_compactStreamWith _).steps faults) (by omega) hl).1
  | evictBefore source_id cutoff_ts floor names =>
      refine h.rewrite (f := fun d => (d.run _).2) fun hl => ?_
      by_cases hk : (ofLex k).1 = source_id
      · exact layout_cut (Archive.evict_cut hk) hl
      · exact layout_same (Archive.evict_same hk) hl
  | evictStreamsBefore source_id cutoff_ts floor streams =>
      refine h.rewrite (f := fun d => (d.run _).2) fun hl => ?_
      by_cases hk : k ∈ streams.map (streamKey source_id)
      · exact layout_cut (Archive.evictStreams_cut.1 hk) hl
      · exact layout_same (Archive.evictStreams_cut.2 hk) hl

theorem World.Ordered.live : ∀ {episodes : List Episode} {w : World}, w.Ordered k →
    World.Countable k w episodes → (w.live episodes).Ordered k
  | [], _, h, _ => h
  | e :: es, _, h, hc => @World.Ordered.live es _ (h.step hc.1 e) hc.2

/-- A rewrite makes no collision of a seal or an adoption: it inserts only merges. -/
theorem noCollision_rewrite {w : World} {f : Disk → Disk}
    (hs : ∀ r ∈ w.disk.refused, r.NoCollision)
    (hf : (∀ r ∈ w.disk.refused, r.NoCollision) → ∀ r ∈ (f w.disk).refused, r.NoCollision) :
    ∀ r ∈ (w.rewrite f).disk.refused, r.NoCollision := by
  obtain ⟨disk, mem⟩ := w
  cases mem with
  | none => exact hf hs
  | some m => exact hs

theorem noCollision_mergeSteps {Props Writer : Type} {pq : Parquet Props Writer}
    {policy : SchemaPolicy} {source_id : Int} {stream : String} {d d' : Disk}
    (h : ReflTransGen (MergeStep pq policy source_id stream) d d')
    (hs : ∀ r ∈ d.refused, r.NoCollision) : ∀ r ∈ d'.refused, r.NoCollision := by
  induction h with
  | refl => exact hs
  | tail _ hlast ih =>
      cases hlast with
      | merged => exact ih
      | refused =>
          intro r hr
          rcases List.mem_append.mp hr with hr | hr
          · exact ih r hr
          · rw [List.mem_singleton.mp hr]
            trivial

/-- **No episode makes a collision** while every stream is in order. -/
theorem noCollision_step {w : World} (h : ∀ k, w.Ordered k) (e : Episode)
    (hs : ∀ r ∈ w.disk.refused, r.NoCollision) : ∀ r ∈ (w.step e).disk.refused, r.NoCollision := by
  cases e with
  | writer event =>
      show ∀ r ∈ (w.apply event).disk.refused, r.NoCollision
      rcases apply_steps w event with ⟨mem, hw, -⟩ | ⟨m, env, msg, s', on, hm, hw, hsteps⟩
      · rw [hw]
        exact hs
      · rw [hw]
        exact noCollision_steps hsteps (fun k => (h k).thread m hm) hs
  | compact pq source_id stream spec merge faults =>
      exact noCollision_rewrite (f := fun d => (compactStreamWith _ _ _ _ _ d faults).2.1) hs
        (noCollision_mergeSteps ((runs_compactStreamWith _).steps faults))
  | evictBefore source_id cutoff_ts floor names => exact noCollision_rewrite hs id
  | evictStreamsBefore source_id cutoff_ts floor streams => exact noCollision_rewrite hs id

theorem noCollision_live : ∀ {episodes : List Episode} {w : World}, (∀ k, w.Ordered k) →
    (∀ k, World.Countable k w episodes) → (∀ r ∈ w.disk.refused, r.NoCollision) →
      ∀ r ∈ (w.live episodes).disk.refused, r.NoCollision
  | [], _, _, _, hs => hs
  | e :: es, _, h, hc, hs => @noCollision_live es _
      (fun k => (h k).step (hc k).1 e) (fun k => (hc k).2) (noCollision_step h e hs)

theorem ordered_create (layout : IndexLayout) (k : StreamKey) :
    (World.create layout).Ordered k := by
  have hl : Layout ((Archive.create layout).runs k) :=
    ⟨fun c hc => absurd hc List.not_mem_nil, .nil⟩
  refine ⟨hl, fun m hm => ?_⟩
  obtain rfl := Option.some.inj hm
  exact streamInv_seed hl

end

/-- **Segment layout.** In every state of an archive's life, whatever the encoders answered
and wherever it failed or was killed: while a stream's row counts stay in range its segments
are laid end to end, and the thread's next `seq` for it is past every stored one; and while
all streams' do, no seal that names each stream once and no adoption is refused over the
primary key. -/
theorem segment_layout (layout : IndexLayout) (episodes : List Episode) :
    let w := (World.create layout).live episodes
    (∀ k, World.Countable k (.create layout) episodes → Layout (w.disk.db.runs k) ∧
      ∀ m, w.mem = some m → ∀ seq ∈ (w.disk.db.catalog k).keys,
        seq < nextSeq m (ofLex k).1 (ofLex k).2) ∧
    ((∀ k, World.Countable k (.create layout) episodes) →
      ∀ r ∈ w.disk.refused, r.NoCollision) := by
  refine ⟨fun k hc => ?_, fun hc => ?_⟩
  · have h := (ordered_create layout k).live hc
    exact ⟨h.layout, fun m hm => (h.thread m hm).seq⟩
  · exact noCollision_live (ordered_create layout) hc fun r hr => absurd hr List.not_mem_nil

/-- A stream counts no more rows than the file. -/
theorem rowCount_le (a : Archive) (k : StreamKey) :
    a.rowCount k ≤ (a.segments.entries.map fun e => e.2.seg_meta.rows.toNat).sum := by
  unfold Archive.rowCount rowSum Archive.catalog OrdMap.group
  dsimp only
  generalize a.segments.entries = es
  induction es with
  | nil => exact Nat.le_refl 0
  | cons e es ih =>
      rw [List.filterMap_cons, List.map_cons, List.sum_cons]
      split
      · exact ih.trans (Nat.le_add_left _ _)
      · rename_i x hx
        obtain ⟨-, hx⟩ := Option.ite_none_right_eq_some.mp hx
        obtain rfl := Option.some.inj hx
        rw [List.map_cons, List.sum_cons]
        exact Nat.add_le_add_left ih _

theorem segment_layout_killedSeal :
    let r : WalRow := { stream := "cpu", ts := 5, wall_offset := 0, row := [1] }
    let w := (World.create .table).live ((killedSeal r).map .writer ++
      [.writer .kill, .evictBefore 1 3 none []])
    Layout (w.disk.db.runs (streamKey 1 "cpu")) ∧ ∀ r ∈ w.disk.refused, r.NoCollision := by
  intro r
  have hcount : ∀ k, World.Countable k (.create .table) ((killedSeal r).map .writer ++
      [.writer .kill, .evictBefore 1 3 none []]) := by
    intro k
    have hle : ∀ {a : Archive},
        (a.segments.entries.map fun e => e.2.seg_meta.rows.toNat).sum ≤ 1 →
          a.rowCount k < 2 ^ 63 := fun h => by
      have := (rowCount_le _ k).trans h
      omega
    exact ⟨hle (by decide), hle (by decide), hle (by decide), hle (by decide), hle (by decide),
      hle (by decide), hle (by decide)⟩
  obtain ⟨hlayout, hclash⟩ := segment_layout .table ((killedSeal r).map .writer ++
    [.writer .kill, .evictBefore 1 3 none []])
  exact ⟨(hlayout (streamKey 1 "cpu") (hcount _)).1, hclash hcount⟩

end Dendro
