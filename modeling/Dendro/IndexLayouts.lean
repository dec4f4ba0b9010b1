import Dendro.Archive.Inline
import Dendro.Archive.Stream
import Dendro.Read
import Dendro.Rewrite.Compact

/-!
# The two index layouts agree

Two archives of equal contents, one that keeps its indexes in a column and one that keeps them
in a table, are taken through the same inserts, deletes, evictions and compactions. Both are
the same archive after `inline`, at the start and, as every operation commutes with it, at the
end; and every read of the two goes through it (`index_layouts_agree`).

That a segment is read with the index it was inserted with is then a matter of the column
layout alone, where no row of another segment can be mistaken for it (`Indexed`).
-/

namespace Dendro

open Relation

/-- A segment's key and the index given when it was inserted. -/
abbrev Given := (StreamKey ×ₗ Nat) × Option Bytes

/-! ## What is done to segments -/

/-- A statement of a transaction over segments. `insert_segment` is an insert with no index. -/
inductive SegmentStatement where
  | insert (source_id : Int) (segment : Encoded)
  | delete (source_id : Int) (stream : String) (seq : Nat)

namespace SegmentStatement

def apply (a : Archive) : SegmentStatement → Except Error Archive
  | .insert source_id e => Archive.insertEncoded source_id a e
  | .delete source_id stream seq => .ok (a.deleteSegment source_id stream seq)

/-- What a statement that goes through gives. -/
def given : SegmentStatement → List Given
  | .insert source_id e => [(toLex (streamKey source_id e.stream, e.seq), e.caller_index)]
  | .delete .. => []

end SegmentStatement

/-- What a transaction that commits gives. -/
def Write.given : Write → List Given
  | .seal source_id _ encoded _ =>
    encoded.map fun e => (toLex (streamKey source_id e.stream, e.seq), e.caller_index)
  | .adopt source_id s seq => [(toLex (streamKey source_id s.stream, seq), s.caller_index)]
  | .merge source_id stream _ seq _ _ => [(toLex (streamKey source_id stream, seq), none)]
  | _ => []

namespace Archive

variable (a : Archive)

/-- The names a whole-source eviction cuts one by one: there are some only with a floor. -/
def evictNames (source_id : Int) (floor : Option CallerRowFloor) : List String :=
  match floor with
  | some _ => a.callerRowStreams source_id
  | none => []

/-- The names an eviction of streams cuts: the streams, and the names of the caller's store
that are not streams, that the predicate accepts. -/
def evictStreamNames (source_id : Int) (accepts : String → Bool) : List String :=
  let streams := a.allStreams source_id
  (streams ++ (a.callerRowStreams source_id).filter fun n => !streams.contains n).filter accepts

end Archive

/-- What is done to the segments of an archive. -/
inductive SegmentOp : Type 1 where
  /-- Inserts and deletes in one transaction. -/
  | transaction (statements : List SegmentStatement)
  /-- A transaction of the writer's. -/
  | commit (w : Write)
  | evictBefore (source_id : Int) (cutoff_ts : Int64) (floor : Option Archive.CallerRowFloor)
  | evictStreamsBefore (source_id : Int) (cutoff_ts : Int64) (accepts : String → Bool)
      (floor : Option Archive.CallerRowFloor)
  /-- A compaction pass, wherever it fails. -/
  | compact {Props Writer Run : Type} (pq : Parquet Props Writer) (source_id : Int)
      (stream : String) (spec : CompactSpec Props) (merge : MetadataMerge Run)
      (faults : List (Fault StorageFailure))

/-- The indexes given by the transactions that took `d` to `d'`. -/
def committedGiven (d d' : Disk) : List Given :=
  (d'.log.drop d.log.length).flatMap fun e => e.2.given

namespace SegmentOp

/-- The file after an operation. A transaction that fails is rolled back. -/
def apply (d : Disk) : SegmentOp → Disk
  | .transaction statements =>
    match statements.foldlM SegmentStatement.apply d.db with
    | .ok db => { d with db }
    | .error _ => d
  | .commit w => (d.run w).2
  | .evictBefore source_id cutoff_ts floor =>
    (d.run (.evict source_id cutoff_ts floor (d.db.evictNames source_id floor))).2
  | .evictStreamsBefore source_id cutoff_ts accepts floor =>
    (d.run (.evictStreams source_id cutoff_ts floor (d.db.evictStreamNames source_id accepts))).2
  | .compact pq source_id stream spec merge faults =>
    (compactStreamWith pq source_id stream spec merge d faults).2.1

/-- The indexes an operation gives: its own inserts', or those of the transactions it commits. -/
def given (d : Disk) (op : SegmentOp) : List Given :=
  match op with
  | .transaction statements =>
    match statements.foldlM SegmentStatement.apply d.db with
    | .ok _ => statements.flatMap SegmentStatement.given
    | .error _ => []
  | op => committedGiven d (op.apply d)

end SegmentOp

/-- A file, and the index given with the latest insert at every key. -/
structure Shelf where
  disk : Disk
  given : OrdMap (StreamKey ×ₗ Nat) (Option Bytes)

namespace Shelf

/-- An archive as it is found: every segment has the index it is read with. -/
def found (a : Archive) : Shelf where
  disk := { db := a, log := [], refused := [] }
  given := a.segments.map a.indexAt

def step (s : Shelf) (op : SegmentOp) : Shelf where
  disk := op.apply s.disk
  given := s.given.insertAll (op.given s.disk)

def run (s : Shelf) (ops : List SegmentOp) : Shelf := ops.foldl step s

end Shelf

/-! ## Every operation commutes -/

section

variable {Props Writer Run : Type} {pq : Parquet Props Writer} {source_id : Int} {stream : String}
  {merge : MetadataMerge Run}

theorem commutes_query {α : Type} {f : Archive → α} (h : ∀ a : Archive, f a.inline = f a) :
    Prog.Commutes Disk.inline (RewriteM.query f) (RewriteM.query f) :=
  .read fun d => congrArg Except.ok (h d.db)

theorem commutes_commit (w : Write) :
    Prog.Commutes Disk.inline (RewriteM.commit w) (RewriteM.commit w) :=
  .call fun d => d.run_inline w

theorem commutes_openRun {policy : SchemaPolicy} {fetch : Nat → RewriteM (Option Bytes)}
    (hfetch : ∀ seq, Prog.Commutes Disk.inline (fetch seq) (fetch seq)) :
    ∀ (seqs : List Nat) (r : RunState Run), Prog.Commutes Disk.inline
      (openRun pq merge policy stream fetch r seqs) (openRun pq merge policy stream fetch r seqs)
  | [], r => .pure r
  | seq :: seqs, r => by
      unfold openRun
      refine (hfetch seq).bind fun blob => ?_
      cases blob with
      | none => exact .pure r
      | some blob =>
          dsimp only
          rcases pq.openFile blob with e | file
          · exact .fail _
          · dsimp only
            split
            · rcases judge merge r.run file.mergeInput with ⟨kept, run | run⟩
              · exact .pure _
              · exact commutes_openRun hfetch seqs _
            · exact .pure r

theorem commutes_concatParquet {policy : SchemaPolicy} {fetch : Nat → RewriteM (Option Bytes)}
    (hfetch : ∀ seq, Prog.Commutes Disk.inline (fetch seq) (fetch seq)) (seqs : List Nat)
    (props : Props) : Prog.Commutes Disk.inline
      (concatParquet pq seqs fetch props policy merge stream)
      (concatParquet pq seqs fetch props policy merge stream) := by
  unfold concatParquet
  refine (commutes_openRun hfetch seqs _).bind fun r => ?_
  dsimp only
  split
  · exact .pure _
  · exact (Prog.Commutes.lift _).bind fun bytes => .pure _

/-- The loop commutes from any position: what it asks of the archive are catalog facts and
payloads. -/
theorem commutes_compactFrom {spec : CompactSpec Props} {metas : List (Nat × SegmentMeta)} :
    ∀ {pos : Nat} {done : Compacted}, Prog.Commutes Disk.inline
      (compactFrom pq source_id stream spec merge metas pos done)
      (compactFrom pq source_id stream spec merge metas pos done) := by
  intro pos
  induction hn : metas.length - pos using Nat.strongRecOn generalizing pos with
  | ind n ih =>
    intro done
    subst hn
    unfold compactFrom
    split
    case isFalse => exact .pure done
    case isTrue hpos =>
      dsimp only
      split
      case isTrue => exact ih _ (by omega) rfl
      case isFalse =>
        refine (commutes_concatParquet (fun seq => commutes_query fun a =>
          Archive.readSegmentBytes_inline source_id stream seq) _ _).bind ?_
        rintro ⟨bytes, consumed⟩
        dsimp only
        split
        case isTrue => exact ih _ (by omega) rfl
        case isFalse htwo =>
          split
          case h_2 => exact .abort
          case h_1 => exact (commutes_commit _).bind fun _ => ih _ (by omega) rfl

theorem commutes_compactStreamWith (spec : CompactSpec Props) : Prog.Commutes Disk.inline
    (compactStreamWith pq source_id stream spec merge)
    (compactStreamWith pq source_id stream spec merge) :=
  (commutes_query fun _ => Archive.readSegmentMeta_inline source_id stream).bind
    fun _ => commutes_compactFrom

end

theorem foldlM_statements_inline (statements : List SegmentStatement) (a : Archive) :
    statements.foldlM SegmentStatement.apply a.inline =
      (statements.foldlM SegmentStatement.apply a).map Archive.inline := by
  refine Archive.foldlM_inline (fun a statement => ?_) statements a
  cases statement with
  | insert source_id e => exact Archive.insertEncoded_inline e
  | delete => exact congrArg Except.ok Archive.deleteSegment_inline

/-- **Every operation commutes.** -/
theorem SegmentOp.apply_inline (op : SegmentOp) (d : Disk) :
    op.apply d.inline = (op.apply d).inline := by
  cases op with
  | transaction statements =>
      have hfold := foldlM_statements_inline statements d.db
      simp only [SegmentOp.apply, Disk.inline]
      rw [hfold]
      rcases statements.foldlM SegmentStatement.apply d.db with e | db <;> rfl
  | commit w => exact congrArg Prod.snd (d.run_inline w)
  | evictBefore source_id cutoff_ts floor => exact congrArg Prod.snd (d.run_inline _)
  | evictStreamsBefore source_id cutoff_ts accepts floor =>
      have hnames : d.inline.db.evictStreamNames source_id accepts =
          d.db.evictStreamNames source_id accepts := by
        have hstreams : d.inline.db.allStreams source_id = d.db.allStreams source_id :=
          Archive.allStreams_inline source_id
        unfold Archive.evictStreamNames
        rw [hstreams]
        rfl
      simp only [SegmentOp.apply]
      rw [hnames, d.run_inline]
  | compact pq source_id stream spec merge faults =>
      exact congrArg (fun r => r.2.1) (commutes_compactStreamWith spec d faults)

theorem committedGiven_inline (d d' : Disk) :
    committedGiven d.inline d'.inline = committedGiven d d' := by
  unfold committedGiven Disk.inline
  dsimp only
  rw [List.length_map, ← List.map_drop, List.flatMap_map]

/-- Nor does what it gives depend on where the indexes are. -/
theorem SegmentOp.given_inline (op : SegmentOp) (d : Disk) : op.given d.inline = op.given d := by
  have happly := op.apply_inline d
  cases op with
  | transaction statements =>
      have hfold := foldlM_statements_inline statements d.db
      simp only [SegmentOp.given, Disk.inline]
      rw [hfold]
      rcases statements.foldlM SegmentStatement.apply d.db with e | db <;> rfl
  | _ => exact (congrArg (committedGiven d.inline) happly).trans (committedGiven_inline d _)

/-- The shelf in the column layout. -/
def Shelf.inline (s : Shelf) : Shelf := { s with disk := s.disk.inline }

theorem Shelf.run_inline : ∀ (ops : List SegmentOp) (s : Shelf), s.inline.run ops = (s.run ops).inline
  | [], _ => rfl
  | op :: ops, s => by
      have hstep : s.inline.step op = (s.step op).inline := by
        unfold Shelf.step
        rw [Shelf.inline, op.apply_inline, op.given_inline]
        rfl
      unfold Shelf.run
      rw [List.foldl_cons, List.foldl_cons, hstep]
      exact Shelf.run_inline ops _

/-! ## Indexes in the column layout -/

section

variable {a b : Archive} {g : OrdMap (StreamKey ×ₗ Nat) (Option Bytes)}

/-- An archive in the column layout whose segments have the indexes they were inserted with. -/
structure Indexed (a : Archive) (g : OrdMap (StreamKey ×ₗ Nat) (Option Bytes)) : Prop where
  column : a.layout = .column
  given : ∀ key c, a.segments.get? key = some c → g.get? key = some c.caller_index

/-- The segments of `b` are segments of `a`. -/
structure Archive.Fewer (a b : Archive) : Prop where
  layout : b.layout = a.layout
  segments : ∀ key c, b.segments.get? key = some c → a.segments.get? key = some c

theorem Archive.Fewer.of_tables (hlayout : b.layout = a.layout) (hsegments : b.segments = a.segments) :
    Archive.Fewer a b := ⟨hlayout, fun _ _ h => hsegments ▸ h⟩

theorem Archive.Fewer.trans {c : Archive} (h : Archive.Fewer a b) (h' : Archive.Fewer b c) :
    Archive.Fewer a c :=
  ⟨h'.layout.trans h.layout, fun key s hs => h.segments key s (h'.segments key s hs)⟩

theorem Archive.fewer_foldl {β : Type} {f : Archive → β → Archive}
    (h : ∀ a b, Archive.Fewer a (f a b)) : ∀ (bs : List β) (a : Archive),
      Archive.Fewer a (bs.foldl f a)
  | [], _ => .of_tables rfl rfl
  | b :: bs, a => (h a b).trans (Archive.fewer_foldl h bs _)

theorem Archive.fewer_deleteSegments (p : StreamKey ×ₗ Nat → SegmentCols → Bool) (a : Archive) :
    Archive.Fewer a (a.deleteSegments p) :=
  ⟨rfl, fun _ _ h => (OrdMap.get?_filter_eq_some.mp h).1⟩

theorem Archive.fewer_evict (a : Archive) (source_id : Int) (cutoff_ts : Int64)
    (floor : Option CallerRowFloor) (names : List String) :
    Archive.Fewer a (a.evict source_id cutoff_ts floor names) := by
  have hcut := fewer_deleteSegments (fun key s =>
    (ofLex (ofLex key).1).1 = source_id && s.seg_meta.last_ts < cutoff_ts) a
  cases floor with
  | none => exact hcut.trans (.of_tables rfl rfl)
  | some cut =>
      have hturn : ∀ b name, Archive.Fewer b (evictCallerRows source_id cutoff_ts (some cut) b name) :=
        fun _ _ => .of_tables rfl rfl
      unfold evict
      dsimp only
      refine Archive.Fewer.trans ?_ (fewer_foldl hturn names _)
      exact hcut.trans (.of_tables rfl rfl)

theorem Archive.fewer_evictStreams (a : Archive) (source_id : Int) (cutoff_ts : Int64)
    (floor : Option CallerRowFloor) (streams : List String) :
    Archive.Fewer a (a.evictStreams source_id cutoff_ts floor streams) := by
  have hturn : ∀ (a : Archive) (stream : String), Archive.Fewer a
      (evictCallerRows source_id cutoff_ts floor (evictStream source_id cutoff_ts a stream) stream) :=
    fun a stream => (fewer_deleteSegments (fun key s => (ofLex key).1 = streamKey source_id stream &&
      s.seg_meta.last_ts < cutoff_ts) a).trans (.of_tables rfl rfl)
  exact (fewer_foldl hturn streams a).trans (.of_tables rfl rfl)

theorem Indexed.fewer (h : Indexed a g) (hb : Archive.Fewer a b) : Indexed b g :=
  ⟨hb.layout.trans h.column, fun key c hc => h.given key c (hb.segments key c hc)⟩

theorem Indexed.insert {source_id : Int} {stream : String} {seq : Nat} {m : SegmentMeta}
    {bytes : Bytes} {index : Option Bytes} (h : Indexed a g)
    (hb : a.insertSegment source_id stream seq m bytes index = .ok b) :
    Indexed b (g.insert (toLex (streamKey source_id stream, seq)) index) := by
  obtain ⟨-, hb⟩ := Archive.insertSegment_ok hb
  have hcols : (Archive.storedCols a.layout m bytes index).caller_index = index := by
    rw [Archive.storedCols, h.column]
    rfl
  refine ⟨by rw [hb]; exact h.column, fun key c hc => ?_⟩
  rw [hb] at hc
  dsimp only at hc
  rw [OrdMap.get?_insert] at hc ⊢
  by_cases hkey : key = toLex (streamKey source_id stream, seq)
  · rw [if_pos hkey] at hc ⊢
    rw [← Option.some.inj hc, hcols]
  · rw [if_neg hkey] at hc ⊢
    exact h.given key c hc

/-- Statements that each keep the segments indexed. -/
theorem Indexed.foldlM {β : Type} {f : Archive → β → Except Error Archive} {given : β → List Given}
    (hf : ∀ {a b : Archive} {g : OrdMap (StreamKey ×ₗ Nat) (Option Bytes)} (x : β),
      Indexed a g → f a x = .ok b → Indexed b (g.insertAll (given x))) :
    ∀ (xs : List β) {a b : Archive} {g : OrdMap (StreamKey ×ₗ Nat) (Option Bytes)}, Indexed a g →
      xs.foldlM f a = .ok b → Indexed b (g.insertAll (xs.flatMap given))
  | [], _, _, _, h, hb => by
      obtain rfl := Except.ok.inj hb
      exact h
  | x :: xs, _, _, _, h, hb => by
      obtain ⟨c, hc, hb⟩ := Except.bind_eq_ok.mp hb
      rw [List.flatMap_cons, OrdMap.insertAll_append]
      exact Indexed.foldlM hf xs (hf x h hc) hb

/-- **A transaction keeps the segments indexed.** -/
theorem Indexed.apply {w : Write} (h : Indexed a g) (hb : w.apply a = .ok b) :
    Indexed b (g.insertAll w.given) := by
  by_cases hbeside : w.beside
  · obtain ⟨hsegments, -, hlayout⟩ := w.beside_tables hbeside hb
    have hnone : w.given = [] := by
      cases w <;> first | rfl | exact absurd hbeside (by simp [Write.beside])
    rw [hnone]
    exact h.fewer (.of_tables hlayout hsegments)
  · cases w with
    | walRows ticks =>
        have hframe := (Archive.appended_insertWalRowsBatch hb).frame
        refine h.fewer (.of_tables ?_ ?_)
        · rw [hframe]
        · rw [hframe]
    | «seal» source_id batch encoded observation =>
        obtain ⟨c, hc, hb⟩ := Except.bind_eq_ok.mp hb
        have hgiven : (Write.seal source_id batch encoded observation).given =
            encoded.flatMap fun e => [(toLex (streamKey source_id e.stream, e.seq), e.caller_index)] :=
          List.map_eq_flatMap
        have hstep : ∀ {a b : Archive} {g : OrdMap (StreamKey ×ₗ Nat) (Option Bytes)} (e : Encoded),
            Indexed a g → Archive.insertEncoded source_id a e = .ok b → Indexed b
              (g.insertAll [(toLex (streamKey source_id e.stream, e.seq), e.caller_index)]) :=
          fun e h hb => h.insert hb
        have hc := Indexed.foldlM hstep encoded h hc
        rw [hgiven]
        cases observation with
        | none => exact Except.ok.inj hb ▸ hc
        | some o =>
            have hframe := Archive.insertClockOffset_tables hb
            refine hc.fewer (.of_tables ?_ ?_)
            · rw [hframe]
            · rw [hframe]
    | adopt source_id s seq => exact h.insert hb
    | pruneWal source_id stream upto_ts =>
        obtain rfl := Except.ok.inj hb
        exact h.fewer (.of_tables rfl rfl)
    | evict source_id cutoff_ts floor names =>
        obtain rfl := Except.ok.inj hb
        exact h.fewer (Archive.fewer_evict _ _ _ _ _)
    | evictStreams source_id cutoff_ts floor streams =>
        obtain rfl := Except.ok.inj hb
        exact h.fewer (Archive.fewer_evictStreams _ _ _ _ _)
    | merge source_id stream run seq seg_meta bytes =>
        have hfewer := Archive.fewer_foldl (fun a s => Archive.fewer_deleteSegments
          (fun k _ => k = toLex (streamKey source_id stream, s)) a) run a
        exact (h.fewer hfewer).insert hb
    | _ => exact absurd rfl hbeside

/-! ### Whole files -/

/-- One transaction, committed or rolled back. -/
def Disk.Ran (d d' : Disk) : Prop := ∃ w, d' = (d.run w).2

/-- **Along transactions, the segments stay indexed by what the log says was given.** -/
theorem Indexed.ran {d d' : Disk} (h : ReflTransGen Disk.Ran d d') (hd : Indexed d.db g) :
    (∃ more, d'.log = d.log ++ more) ∧ Indexed d'.db (g.insertAll (committedGiven d d')) := by
  suffices ∃ more, d'.log = d.log ++ more ∧
      Indexed d'.db (g.insertAll (more.flatMap fun e => e.2.given)) by
    obtain ⟨more, hlog, hi⟩ := this
    have hgiven : committedGiven d d' = more.flatMap fun e => e.2.given := by
      rw [committedGiven, hlog, List.drop_left]
    exact ⟨⟨more, hlog⟩, hgiven ▸ hi⟩
  induction h with
  | refl => exact ⟨[], (List.append_nil _).symm, hd⟩
  | @tail mid last _ hlast ih =>
      obtain ⟨more, hlog, hi⟩ := ih
      obtain ⟨w, rfl⟩ := hlast
      unfold Disk.run
      rcases hw : w.apply mid.db with e | db
      · exact ⟨more, hlog, hi⟩
      · refine ⟨more ++ [(mid.db, w)], ?_, ?_⟩
        · dsimp only
          rw [hlog, List.append_assoc]
        · rw [List.flatMap_append, OrdMap.insertAll_append, List.flatMap_singleton]
          exact hi.apply hw

end

section

variable {Props Writer Run : Type} {pq : Parquet Props Writer} {source_id : Int} {stream : String}
  {merge : MetadataMerge Run}

theorem ran_openRun {policy : SchemaPolicy} {fetch : Nat → RewriteM (Option Bytes)}
    (hfetch : ∀ seq d, Prog.Runs Disk.Ran (fetch seq) d (fun _ _ => True) fun _ _ => True) :
    ∀ (seqs : List Nat) (r : RunState Run) (d : Disk), Prog.Runs Disk.Ran
      (openRun pq merge policy stream fetch r seqs) d (fun _ _ => True) fun _ _ => True
  | [], _, _ => .pure trivial
  | seq :: seqs, r, d => by
      unfold openRun
      refine (hfetch seq d).bind fun blob d' _ => ?_
      cases blob with
      | none => exact .pure trivial
      | some blob =>
          dsimp only
          rcases pq.openFile blob with e | file
          · exact .fail trivial
          · dsimp only
            split
            · rcases judge merge r.run file.mergeInput with ⟨kept, run | run⟩
              · exact .pure trivial
              · exact ran_openRun hfetch seqs _ d'
            · exact .pure trivial

/-- A pass is a run of transactions, wherever it stops. -/
theorem ran_compactFrom {spec : CompactSpec Props} {metas : List (Nat × SegmentMeta)} :
    ∀ {pos : Nat} {done : Compacted} {d : Disk}, Prog.Runs Disk.Ran
      (compactFrom pq source_id stream spec merge metas pos done) d (fun _ _ => True)
        fun _ _ => True := by
  intro pos
  induction hn : metas.length - pos using Nat.strongRecOn generalizing pos with
  | ind n ih =>
    intro done d
    subst hn
    unfold compactFrom
    split
    case isFalse => exact .pure trivial
    case isTrue hpos =>
      dsimp only
      split
      case isTrue => exact ih _ (by omega) rfl
      case isFalse =>
        have hconcat : Prog.Runs Disk.Ran (concatParquet pq
            (((metas.drop pos).take (fits spec.target_rows 0 (metas.drop pos))).map Prod.fst)
            (fun seq => RewriteM.query fun a => a.readSegmentBytes source_id stream seq)
            (spec.writer_props.getD pq.writer_props) spec.schema merge stream) d (fun _ _ => True)
              fun _ _ => True := by
          unfold concatParquet
          refine (ran_openRun (fun seq d => .read (fun _ _ => trivial) (fun _ _ => trivial)
            fun _ => trivial) _ _ _).bind fun r d' _ => ?_
          dsimp only
          split
          · exact .pure trivial
          · exact (Prog.Runs.lift (Q := fun _ _ => True) (fun _ _ => trivial)
              fun _ _ => trivial).bind fun _ _ _ => .pure trivial
        refine hconcat.bind ?_
        rintro ⟨bytes, consumed⟩ d' -
        dsimp only
        split
        case isTrue => exact ih _ (by omega) rfl
        case isFalse htwo =>
          split
          case h_2 => exact .abort
          case h_1 =>
            refine Prog.Runs.bind (Q := fun _ _ => True) (.call (fun _ d'' hrun => ?_)
              (fun _ d'' hrun => ?_) fun _ => trivial) fun _ _ _ => ih _ (by omega) rfl
            · exact ⟨.single ⟨_, (congrArg Prod.snd hrun).symm⟩, trivial⟩
            · exact ⟨.single ⟨_, (congrArg Prod.snd hrun).symm⟩, trivial⟩

theorem ran_compactStreamWith (spec : CompactSpec Props) (d : Disk) : Prog.Runs Disk.Ran
    (compactStreamWith pq source_id stream spec merge) d (fun _ _ => True) fun _ _ => True :=
  (Prog.Runs.read (Q := fun _ _ => True) (fun _ _ => trivial) (fun _ _ => trivial)
    fun _ => trivial).bind fun _ _ _ => ran_compactFrom

end

/-- What holds of the shelf of a file in the column layout. -/
def Shelf.Indexed (s : Shelf) : Prop := Dendro.Indexed s.disk.db s.given

/-- **Every operation keeps the segments indexed by what was given.** -/
theorem Shelf.Indexed.step {s : Shelf} (h : s.Indexed) (op : SegmentOp) : (s.step op).Indexed := by
  have hran : ∀ {d : Disk}, ReflTransGen Disk.Ran s.disk d →
      Dendro.Indexed d.db (s.given.insertAll (committedGiven s.disk d)) :=
    fun hd => (Dendro.Indexed.ran hd h).2
  cases op with
  | transaction statements =>
      unfold Shelf.Indexed Shelf.step SegmentOp.apply SegmentOp.given
      dsimp only
      rcases hdb : statements.foldlM SegmentStatement.apply s.disk.db with e | db
      · exact h
      · refine Dendro.Indexed.foldlM (fun statement ha hb => ?_) statements h hdb
        cases statement with
        | insert source_id e => exact ha.insert hb
        | delete source_id stream seq =>
            obtain rfl := Except.ok.inj hb
            exact ha.fewer (Archive.fewer_deleteSegments _ _)
  | commit w => exact hran (.single ⟨w, rfl⟩)
  | evictBefore => exact hran (.single ⟨_, rfl⟩)
  | evictStreamsBefore => exact hran (.single ⟨_, rfl⟩)
  | compact pq source_id stream spec merge faults =>
      exact hran ((ran_compactStreamWith spec s.disk).steps faults)

theorem Shelf.Indexed.run : ∀ (ops : List SegmentOp) {s : Shelf}, s.Indexed → (s.run ops).Indexed
  | [], _, h => h
  | op :: ops, _, h => Shelf.Indexed.run ops (h.step op)

/-! ## Two archives of equal contents -/

/-- Two archives with the same rows in every table, and the same index for every segment. What
else an index table holds is no part of it. -/
structure SameContents (a b : Archive) : Prop where
  sources : a.sources = b.sources
  wal : a.wal = b.wal
  clock_offsets : a.clock_offsets = b.clock_offsets
  caller_rows : a.caller_rows = b.caller_rows
  segments : ∀ source_id stream, a.readSegments source_id stream = b.readSegments source_id stream

theorem SameContents.inline {t c : Archive} (h : SameContents t c) (ht : t.layout = .table)
    (hc : c.layout = .column) : t.inline = c.inline := by
  have hlayout : t.layout.inline = c.layout.inline := by rw [ht, hc]; rfl
  refine Archive.inline_congr hlayout h.sources h.wal h.clock_offsets h.caller_rows ?_
  refine OrdMap.ext_group fun k => OrdMap.ext_entries ?_
  have ht := t.catalog_inline_entries k
  have hc := c.catalog_inline_entries k
  rw [h.segments] at ht
  exact ht.trans hc.symm

/-- What is given at the start is what the form's rows say. -/
theorem found_inline (a : Archive) : (Shelf.found a).inline =
    { disk := { db := a.inline, log := [], refused := [] }
      given := a.inline.segments.map fun _ c => c.caller_index } := by
  have hgiven : (a.inline.segments.map fun _ c => c.caller_index) = a.segments.map a.indexAt :=
    OrdMap.map_map (fun key s => { s with caller_index := a.indexAt key s })
      (fun _ c => c.caller_index) a.segments
  rw [hgiven]
  rfl

theorem indexed_found {a : Archive} (ha : a.layout.inline = .column) :
    (Shelf.found a).inline.Indexed := by
  rw [found_inline]
  refine ⟨ha, fun key c hc => ?_⟩
  dsimp only at hc ⊢
  rw [OrdMap.get?_map, hc]
  rfl

/-- What a reader finds in a stream of an archive whose segments were given `given`: one entry
for each stored segment in `seq` order, with the index given when it was inserted, whole or by
the index alone; and the indexes of the stream are those of its segments, one by one. -/
structure ReadsGiven (a : Archive) (given : OrdMap (StreamKey ×ₗ Nat) (Option Bytes))
    (source_id : Int) (stream : String) (encoder : SegmentEncoder) : Prop where
  seqs : (a.readSegments source_id stream).map (·.seq) =
    (a.catalog (streamKey source_id stream)).keys
  ordered : ((a.readSegments source_id stream).map (·.seq)).Pairwise (· < ·)
  indexes : a.readSegmentIndexes source_id stream =
    (a.readSegments source_id stream).map fun s => (s.seq, s.caller_index)
  given : ∀ s ∈ a.readSegments source_id stream,
    given.get? (toLex (streamKey source_id stream, s.seq)) = some s.caller_index
  streamSegments : a.streamSegments source_id stream encoder =
    (a.indexedSegments source_id stream encoder).map (List.map Prod.fst)
  streamIndexes : a.streamIndexes source_id stream encoder =
    (a.indexedSegments source_id stream encoder).map (List.map Prod.snd)

theorem Shelf.Indexed.readsGiven {s : Shelf} (h : s.inline.Indexed) (source_id : Int)
    (stream : String) (encoder : SegmentEncoder) :
    ReadsGiven s.disk.db s.given source_id stream encoder := by
  have hseqs : (s.disk.db.readSegments source_id stream).map (·.seq) =
      (s.disk.db.catalog (streamKey source_id stream)).keys := by
    rw [Archive.readSegments, List.map_map]
    rfl
  refine ⟨hseqs, ?_, Archive.readSegmentIndexes_eq, fun row hrow => ?_, Archive.streamSegments_eq,
    Archive.streamIndexes_eq⟩
  · rw [hseqs]
    exact OrdMap.keys_sorted _
  · -- the row of the form at the segment's key holds the index that is read
    have hcat := s.disk.db.catalog_inline_entries (streamKey source_id stream)
    have hmem : (row.seq, SegmentCols.mk row.seg_meta row.bytes row.caller_index) ∈
        (s.disk.db.inline.catalog (streamKey source_id stream)).entries := by
      rw [hcat]
      exact List.mem_map.mpr ⟨row, hrow, rfl⟩
    have hget := OrdMap.get?_eq_some.mpr hmem
    rw [Archive.catalog, OrdMap.get?_group] at hget
    exact h.given _ _ hget

/-- **The two index layouts agree.** Take an archive with an index table, whatever rows of
segments that are gone are left in it, and an archive with an index column through the same
operations. In any stream both then list the same segments with the same indexes, and on
either every segment has the index it was inserted with, and `stream_indexes` lists the
indexes of the segments `stream_segments` lists. -/
theorem index_layouts_agree (t c : Archive) (ht : t.layout = .table) (hc : c.layout = .column)
    (hsame : SameContents t c) (ops : List SegmentOp) (source_id : Int) (stream : String)
    (encoder : SegmentEncoder) :
    let t' := (Shelf.found t).run ops
    let c' := (Shelf.found c).run ops
    t'.disk.db.readSegments source_id stream = c'.disk.db.readSegments source_id stream ∧
    t'.disk.db.readSegmentIndexes source_id stream =
      c'.disk.db.readSegmentIndexes source_id stream ∧
    t'.given = c'.given ∧
    ReadsGiven t'.disk.db t'.given source_id stream encoder ∧
    ReadsGiven c'.disk.db c'.given source_id stream encoder := by
  intro t' c'
  have hstart : (Shelf.found t).inline = (Shelf.found c).inline := by
    rw [found_inline, found_inline, hsame.inline ht hc]
  have hend : t'.inline = c'.inline := by
    rw [← Shelf.run_inline, ← Shelf.run_inline, hstart]
  have hti : t'.inline.Indexed := by
    rw [← Shelf.run_inline]
    exact (indexed_found (by rw [ht]; rfl)).run ops
  have hci : c'.inline.Indexed := by
    rw [← Shelf.run_inline]
    exact (indexed_found (by rw [hc]; rfl)).run ops
  have hdb : t'.disk.db.inline = c'.disk.db.inline := congrArg (fun s => s.disk.db) hend
  have hpresent : ∀ {s : Shelf}, s.inline.Indexed → s.disk.db.layout ≠ .absent := by
    intro s hs habsent
    have hcolumn : s.disk.db.layout.inline = .column := hs.column
    rw [habsent] at hcolumn
    exact absurd hcolumn (by decide)
  have hreads : t'.disk.db.readSegments source_id stream =
      c'.disk.db.readSegments source_id stream := by
    rw [← Archive.readSegments_inline source_id stream (hpresent hti), hdb,
      Archive.readSegments_inline source_id stream (hpresent hci)]
  have hindexes : t'.disk.db.readSegmentIndexes source_id stream =
      c'.disk.db.readSegmentIndexes source_id stream := by
    rw [Archive.readSegmentIndexes_eq, Archive.readSegmentIndexes_eq, hreads]
  have hgiven : t'.inline.given = c'.inline.given := congrArg Shelf.given hend
  exact ⟨hreads, hindexes, hgiven, hti.readsGiven source_id stream encoder,
    hci.readsGiven source_id stream encoder⟩

/-- An archive of one source with no segment, and a row at one key of its index table. -/
def strayIndex (layout : IndexLayout) : Archive :=
  let a := (Archive.create layout).insertSource ⟨∅, ∅, 0⟩ ""
  { a with segment_indexes := OrdMap.ofList [(toLex (streamKey 1 "cpu", 0), [9])] }

/-- A segment inserted without an index where the index row of another was left behind. -/
theorem index_layouts_agree_strayIndex :
    let seg_meta : SegmentMeta := { rows := 1, first_ts := 5, last_ts := 5 }
    let ops := [SegmentOp.transaction [.insert 1
      { stream := "cpu", seq := 0, seg_meta, bytes := [1], caller_index := none }]]
    ((Shelf.found (strayIndex .table)).run ops).disk.db.readSegments 1 "cpu" =
        ((Shelf.found (strayIndex .column)).run ops).disk.db.readSegments 1 "cpu" ∧
      ((Shelf.found (strayIndex .table)).run ops).disk.db.readSegmentIndexes 1 "cpu" =
        [(0, none)] := by
  intro seg_meta ops
  have hsame : SameContents (strayIndex .table) (strayIndex .column) :=
    ⟨rfl, rfl, rfl, rfl, fun _ _ => rfl⟩
  obtain ⟨hreads, -⟩ := index_layouts_agree (strayIndex .table) (strayIndex .column) rfl rfl hsame
    ops 1 "cpu" { encode := fun _ _ => .ok none, version := none, encode_after := fun _ _ _ => .ok none }
  exact ⟨hreads, by decide⟩

end Dendro
