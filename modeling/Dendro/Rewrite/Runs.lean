import Dendro.Rewrite.Compact

/-!
# The turns of a pass

What a pass does, apart from the faults that strike it: where a run ends and why
(`Reaches`), what its concatenation returns (`Concat`), and what one turn of the loop does
with the file (`Turn`). `runs_turns` is the loop rule every result about a pass is proved
with: an invariant that each turn keeps holds at the end, and the transactions of a pass are
those of its turns.
-/

namespace Dendro

open Relation

theorem RewriteM.run_query {α : Type} (f : Archive → α) (d : Disk) :
    RewriteM.query f d [] = (.ok (f d.db), d, []) := rfl

section

variable {Props Writer Run : Type} {pq : Parquet Props Writer} {merge : MetadataMerge Run}
  {policy : SchemaPolicy} {source_id : Int} {stream : String}

/-! ## Where a run ends -/

/-- Opening the segments `blobs` one after the other takes the run from `r` to `r'`. -/
inductive Reaches (pq : Parquet Props Writer) (merge : MetadataMerge Run)
    (policy : SchemaPolicy) : RunState Run → List (Option Bytes) → RunState Run → Prop where
  | all {r : RunState Run} : Reaches pq merge policy r [] r
  | gone {r : RunState Run} {blobs : List (Option Bytes)} :
      Reaches pq merge policy r (none :: blobs) r
  | refused {r : RunState Run} {blob : Bytes} {blobs : List (Option Bytes)}
      {file : ParquetFile} : pq.openFile blob = .ok file →
      schemaAdmitted policy r file.ownSchema = false →
      Reaches pq merge policy r (some blob :: blobs) r
  | declined {r : RunState Run} {blob : Bytes} {blobs : List (Option Bytes)}
      {file : ParquetFile} {run : Option Run} : pq.openFile blob = .ok file →
      schemaAdmitted policy r file.ownSchema = true →
      judge merge r.run file.mergeInput = (run, none) →
      Reaches pq merge policy r (some blob :: blobs) { r with run }
  | joined {r r' : RunState Run} {blob : Bytes} {blobs : List (Option Bytes)}
      {file : ParquetFile} {kept : Option Run} {run : Run} : pq.openFile blob = .ok file →
      schemaAdmitted policy r file.ownSchema = true →
      judge merge r.run file.mergeInput = (kept, some run) →
      Reaches pq merge policy (r.push policy file run) blobs r' →
      Reaches pq merge policy r (some blob :: blobs) r'

theorem runs_openRun {R : Disk → Disk → Prop} {d : Disk} : ∀ (seqs : List Nat) (r : RunState Run),
    Prog.Runs R (openRun pq merge policy stream
        (fun seq => RewriteM.query fun a => a.readSegmentBytes source_id stream seq) r seqs) d
      (fun r' d' => d' = d ∧
        Reaches pq merge policy r (seqs.map (d.db.readSegmentBytes source_id stream)) r')
      fun _ _ => True
  | [], r => .pure ⟨rfl, .all⟩
  | seq :: seqs, r => by
      unfold openRun
      refine .bind (Q := fun blob d' => d' = d ∧
        d.db.readSegmentBytes source_id stream seq = blob) (.read (fun blob hb => ?_)
          (fun _ _ => trivial) fun _ => trivial) ?_
      · exact ⟨rfl, Except.ok.inj hb⟩
      rintro blob d' ⟨rfl, hblob⟩
      rw [List.map_cons, hblob]
      cases blob with
      | none => exact .pure ⟨rfl, .gone⟩
      | some blob =>
          dsimp only
          rcases hopen : pq.openFile blob with e | file
          · exact .fail trivial
          · dsimp only
            split
            case isFalse hadm => exact .pure ⟨rfl, .refused hopen (Bool.eq_false_of_not_eq_true hadm)⟩
            case isTrue hadm =>
              split
              case h_2 run hjudge => exact .pure ⟨rfl, .declined hopen hadm hjudge⟩
              case h_1 kept run hjudge =>
                refine (runs_openRun seqs _).mono ?_ fun _ _ h => h
                rintro r' d'' ⟨rfl, hreach⟩
                exact ⟨rfl, .joined hopen hadm hjudge hreach⟩

/-! ## What a concatenation returns -/

/-- What concatenating the segments `blobs` returns: that there is nothing to merge, or the
file the run was written to. -/
inductive Concat (pq : Parquet Props Writer) (merge : MetadataMerge Run) (policy : SchemaPolicy)
    (stream : String) (props : Props) (blobs : List (Option Bytes)) : Bytes × Nat → Prop where
  | nothing {r : RunState Run} : Reaches pq merge policy .empty blobs r →
      (r.run = none ∨ r.opened.length < 2) →
      Concat pq merge policy stream props blobs ([], 1)
  | merged {r : RunState Run} {run : Run} {bytes : Bytes} :
      Reaches pq merge policy .empty blobs r → r.run = some run → 2 ≤ r.opened.length →
      writeMerged pq stream (r.schema r.opened.length)
        (withFileMetadata pq props (merge.finish run)) r.opened = .ok bytes →
      Concat pq merge policy stream props blobs (bytes, r.opened.length)

/-- A run only grows. -/
theorem Reaches.opened_prefix {r r' : RunState Run} {blobs : List (Option Bytes)}
    (h : Reaches pq merge policy r blobs r') : r.opened <+: r'.opened := by
  induction h with
  | all | gone | refused | declined => exact List.prefix_refl _
  | joined _ _ _ _ ih => exact (List.prefix_append _ _).trans ih

theorem Reaches.length_le {r r' : RunState Run} {blobs : List (Option Bytes)}
    (h : Reaches pq merge policy r blobs r') :
    r'.opened.length ≤ r.opened.length + blobs.length := by
  induction h with
  | all | gone | refused | declined => exact Nat.le_add_right _ _
  | joined _ _ _ _ ih =>
      simp only [RunState.push, List.length_append, List.length_cons, List.length_nil] at ih
      rw [List.length_cons]
      omega

/-- A concatenation consumes no more segments than it was given. -/
theorem Concat.length_le {props : Props} {blobs : List (Option Bytes)} {out : Bytes × Nat}
    (h : Concat pq merge policy stream props blobs out) (htwo : 2 ≤ out.2) :
    out.2 ≤ blobs.length := by
  cases h with
  | nothing => exact absurd htwo (by decide)
  | merged hreach => simpa [RunState.empty] using hreach.length_le

theorem runs_concatParquet {R : Disk → Disk → Prop} {props : Props} {d : Disk}
    (seqs : List Nat) : Prog.Runs R (concatParquet pq seqs
        (fun seq => RewriteM.query fun a => a.readSegmentBytes source_id stream seq) props policy
        merge stream) d
      (fun out d' => d' = d ∧ Concat pq merge policy stream props
        (seqs.map (d.db.readSegmentBytes source_id stream)) out)
      fun _ _ => True := by
  unfold concatParquet
  refine (runs_openRun seqs .empty).bind ?_
  rintro r d' ⟨rfl, hreach⟩
  dsimp only
  split
  case h_1 hrun =>
    refine .pure ⟨rfl, .nothing hreach ?_⟩
    rcases hr : r.run with _ | run
    · exact .inl rfl
    · rw [hr, Option.filter_some] at hrun
      refine .inr ?_
      split at hrun
      · exact absurd hrun (by simp)
      · rename_i hlen
        simpa using hlen
  case h_2 run hrun =>
    obtain ⟨hrun, htwo⟩ := Option.filter_eq_some_iff.mp hrun
    refine (Prog.Runs.lift (fun bytes hbytes => ⟨rfl, hbytes⟩) fun _ _ => trivial :
      Prog.Runs R _ d' (fun bytes d'' => d'' = d' ∧ writeMerged pq stream _ _ _ = .ok bytes) _).bind
        ?_
    rintro bytes d'' ⟨rfl, hbytes⟩
    exact .pure ⟨rfl, .merged hreach hrun (by simpa using htwo) hbytes⟩

/-- Without faults, segments that all open are opened to the end of the run. -/
theorem goes_openRun {d : Disk} : ∀ {seqs : List Nat} (r : RunState Run),
    (∀ seq ∈ seqs, ∀ blob, d.db.readSegmentBytes source_id stream seq = some blob →
      ∃ f, pq.openFile blob = .ok f) →
    Prog.Goes (openRun pq merge policy stream
        (fun seq => RewriteM.query fun a => a.readSegmentBytes source_id stream seq) r seqs) d
      (fun _ _ => True) fun _ _ => False
  | [], _, _ => .pure trivial
  | seq :: seqs, r, hopens => by
      unfold openRun
      refine .bind (Q := fun blob d' => d' = d ∧
        d.db.readSegmentBytes source_id stream seq = blob) (.read (fun blob hb => ?_)
          fun _ h => absurd h (by simp)) ?_
      · exact ⟨rfl, Except.ok.inj hb⟩
      rintro blob d' ⟨rfl, hblob⟩
      cases blob with
      | none => exact .pure trivial
      | some blob =>
          obtain ⟨file, hopen⟩ := hopens seq (by simp) blob hblob
          dsimp only
          rw [hopen]
          dsimp only
          split
          case isFalse => exact .pure trivial
          case isTrue =>
            split
            case h_2 => exact .pure trivial
            case h_1 => exact goes_openRun _ fun seq' hs => hopens seq' (by simp [hs])

/-- Without faults, a concatenation of segments that all open returns, or the library does not
write the file. -/
theorem goes_concatParquet {props : Props} {d : Disk} {seqs : List Nat}
    (hopens : ∀ seq ∈ seqs, ∀ blob, d.db.readSegmentBytes source_id stream seq = some blob →
      ∃ f, pq.openFile blob = .ok f) :
    Prog.Goes (concatParquet pq seqs
        (fun seq => RewriteM.query fun a => a.readSegmentBytes source_id stream seq) props policy
        merge stream) d
      (fun out d' => d' = d ∧ Concat pq merge policy stream props
        (seqs.map (d.db.readSegmentBytes source_id stream)) out)
      fun e _ => ∃ (r : RunState Run) (run : Run),
        Reaches pq merge policy .empty (seqs.map (d.db.readSegmentBytes source_id stream)) r ∧
        writeMerged pq stream (r.schema r.opened.length)
          (withFileMetadata pq props (merge.finish run)) r.opened = .error e := by
  refine (runs_concatParquet (R := fun _ _ => True) seqs).goes ?_
  have hrun := (runs_openRun (R := fun _ _ => True) seqs .empty).goes
    (@goes_openRun _ _ _ pq merge policy source_id stream d seqs .empty hopens)
  unfold concatParquet
  refine (hrun.mono (fun _ _ h => h) fun _ _ h => h.elim).bind ?_
  rintro r d' ⟨rfl, hreach⟩
  dsimp only
  split
  case h_1 => exact .pure trivial
  case h_2 run _ =>
    refine Prog.Goes.bind (Q := fun _ _ => True) (.lift (fun _ _ => trivial) fun e he => ?_)
      fun _ _ _ => .pure trivial
    exact ⟨r, run, hreach, he⟩

/-! ## What a turn of the loop does -/

/-- The contents of the segments a pass plans to merge from `pos` on. -/
def plannedBlobs (source_id : Int) (stream : String) (target_rows : UInt64)
    (metas : List (Nat × SegmentMeta)) (pos : Nat) (a : Archive) : List (Option Bytes) :=
  (((metas.drop pos).take (fits target_rows 0 (metas.drop pos))).map Prod.fst).map
    (a.readSegmentBytes source_id stream)

/-- The loop is about to replace a run of two segments or more. -/
structure Replaces (pq : Parquet Props Writer) (source_id : Int) (stream : String)
    (spec : CompactSpec Props) (merge : MetadataMerge Run) (metas : List (Nat × SegmentMeta))
    (pos : Nat) (a : Archive) (bytes : Bytes) (consumed : Nat) (first last : Nat × SegmentMeta) :
    Prop where
  pos_lt : pos < metas.length
  concat : Concat pq merge spec.schema stream (spec.writer_props.getD pq.writer_props)
    (plannedBlobs source_id stream spec.target_rows metas pos a) (bytes, consumed)
  two : 2 ≤ consumed
  first : ((metas.drop pos).take consumed).head? = some first
  last : ((metas.drop pos).take consumed).getLast? = some last

/-- The transaction that replaces it. -/
def replacement (source_id : Int) (stream : String) (metas : List (Nat × SegmentMeta))
    (pos : Nat) (bytes : Bytes) (consumed : Nat) (first last : Nat × SegmentMeta) : Write :=
  .merge source_id stream (((metas.drop pos).take consumed).map Prod.fst) first.1
    (runMeta ((metas.drop pos).take consumed) first.2 last.2) bytes

/-- One turn of the loop, from where the pass stood to where it stands. -/
inductive Turn (pq : Parquet Props Writer) (source_id : Int) (stream : String)
    (spec : CompactSpec Props) (merge : MetadataMerge Run) (metas : List (Nat × SegmentMeta)) :
    Nat → Compacted → Disk → Nat → Compacted → Disk → Prop where
  /-- Under two segments fit the target. -/
  | alone {pos : Nat} {done : Compacted} {d : Disk} : pos < metas.length →
      fits spec.target_rows 0 (metas.drop pos) < 2 →
      Turn pq source_id stream spec merge metas pos done d (pos + 1) done d
  /-- The schema or the metadata changes after the first segment. -/
  | cut {pos : Nat} {done : Compacted} {d : Disk} {out : Bytes × Nat} : pos < metas.length →
      2 ≤ fits spec.target_rows 0 (metas.drop pos) →
      Concat pq merge spec.schema stream (spec.writer_props.getD pq.writer_props)
        (plannedBlobs source_id stream spec.target_rows metas pos d.db) out → out.2 < 2 →
      Turn pq source_id stream spec merge metas pos done d (pos + 1) done d
  | merged {pos : Nat} {done : Compacted} {d : Disk} {bytes : Bytes} {consumed : Nat}
      {first last : Nat × SegmentMeta} {db : Archive} :
      Replaces pq source_id stream spec merge metas pos d.db bytes consumed first last →
      (replacement source_id stream metas pos bytes consumed first last).apply d.db = .ok db →
      Turn pq source_id stream spec merge metas pos done d (pos + consumed)
        { done with merges := done.merges + 1, after := done.after - (consumed - 1) }
        { d with db, log := d.log ++
            [(d.db, replacement source_id stream metas pos bytes consumed first last)] }

/-- A replacement that a constraint refused. -/
inductive TurnedDown (pq : Parquet Props Writer) (source_id : Int) (stream : String)
    (spec : CompactSpec Props) (merge : MetadataMerge Run) (metas : List (Nat × SegmentMeta)) :
    Nat → Disk → Disk → Prop where
  | refused {pos : Nat} {d : Disk} {bytes : Bytes} {consumed : Nat}
      {first last : Nat × SegmentMeta} {error : Error} :
      Replaces pq source_id stream spec merge metas pos d.db bytes consumed first last →
      (replacement source_id stream metas pos bytes consumed first last).apply d.db =
        .error error →
      TurnedDown pq source_id stream spec merge metas pos d { d with refused := d.refused ++
        [⟨d.db, replacement source_id stream metas pos bytes consumed first last, error⟩] }

theorem fits_le (target : UInt64) : ∀ (metas : List (Nat × SegmentMeta)) (rows : UInt64),
    fits target rows metas ≤ metas.length
  | [], _ => Nat.le_refl 0
  | m :: metas, rows => by
      unfold fits
      have := fits_le target metas (rows + m.2.rows)
      split
      · rw [List.length_cons]
        omega
      · exact Nat.zero_le _

/-- **The loop rule.** What every turn keeps holds when the pass has been over the whole
catalog, and every transaction on the way is a turn's. -/
theorem runs_turns {R : Disk → Disk → Prop} {spec : CompactSpec Props}
    {metas : List (Nat × SegmentMeta)} {I : Nat → Compacted → Disk → Prop}
    (hturn : ∀ {pos done d pos' done' d'}, I pos done d →
      Turn pq source_id stream spec merge metas pos done d pos' done' d' →
      ReflTransGen R d d' ∧ I pos' done' d')
    (hdown : ∀ {pos done d d'}, I pos done d →
      TurnedDown pq source_id stream spec merge metas pos d d' → ReflTransGen R d d') :
    ∀ {pos : Nat} {done : Compacted} {d : Disk}, I pos done d →
      Prog.Runs R (compactFrom pq source_id stream spec merge metas pos done) d
        (fun done' d' => ∃ pos', metas.length ≤ pos' ∧ I pos' done' d') fun _ _ => True := by
  intro pos
  induction hn : metas.length - pos using Nat.strongRecOn generalizing pos with
  | ind n ih =>
    intro done d h
    subst hn
    unfold compactFrom
    split
    case isFalse hpos => exact .pure ⟨pos, Nat.not_lt.mp hpos, h⟩
    case isTrue hpos =>
      dsimp only
      split
      case isTrue hplanned =>
        rw [Nat.max_eq_left (by omega)]
        exact ih _ (by omega) rfl (hturn h (.alone hpos hplanned)).2
      case isFalse hplanned =>
        refine (runs_concatParquet _).bind ?_
        rintro ⟨bytes, consumed⟩ d' ⟨rfl, hconcat⟩
        dsimp only
        split
        case isTrue hcut => exact ih _ (by omega) rfl (hturn h (.cut hpos (Nat.not_lt.mp hplanned) hconcat hcut)).2
        case isFalse htwo =>
          split
          case h_2 => exact .abort
          case h_1 first last hfirst hlast =>
            have hr : Replaces pq source_id stream spec merge metas pos d'.db bytes consumed first
                last := ⟨hpos, hconcat, Nat.not_lt.mp htwo, hfirst, hlast⟩
            refine Prog.Runs.bind (Q := fun _ d'' => I (pos + consumed)
                { done with merges := done.merges + 1, after := done.after - (consumed - 1) } d'')
              (.call ?_ ?_ fun _ => trivial) fun _ d'' hnext => ih _ (by omega) rfl hnext
            · intro u d'' hrun
              unfold Disk.run at hrun
              split at hrun
              case h_2 => exact absurd (congrArg Prod.fst hrun) (by simp)
              case h_1 db happly =>
                obtain rfl := (Prod.mk.inj hrun).2
                exact hturn h (.merged hr happly)
            · intro e d'' hrun
              unfold Disk.run at hrun
              split at hrun
              case h_1 => exact absurd (congrArg Prod.fst hrun) (by simp)
              case h_2 error happly =>
                obtain rfl := (Prod.mk.inj hrun).2
                exact ⟨hdown h (.refused hr happly), trivial⟩

/-! ## A pass without faults, turn by turn -/

section Turns

variable {spec : CompactSpec Props} {metas : List (Nat × SegmentMeta)} {pos : Nat}
  {done : Compacted} {d : Disk}

theorem run_compactFrom_end {faults : List (Fault StorageFailure)} (h : metas.length ≤ pos) :
    compactFrom pq source_id stream spec merge metas pos done d faults = (.ok done, d, faults) := by
  rw [compactFrom, if_neg (Nat.not_lt.mpr h)]
  rfl

theorem run_compactFrom_alone {faults : List (Fault StorageFailure)} (hpos : pos < metas.length)
    (hfits : fits spec.target_rows 0 (metas.drop pos) < 2) :
    compactFrom pq source_id stream spec merge metas pos done d faults =
      compactFrom pq source_id stream spec merge metas (pos + 1) done d faults := by
  rw [compactFrom, if_pos hpos]
  dsimp only
  rw [if_pos hfits, Nat.max_eq_left (by omega)]

theorem run_compactFrom_cut {bytes : Bytes} {consumed : Nat} (hpos : pos < metas.length)
    (hfits : ¬ fits spec.target_rows 0 (metas.drop pos) < 2)
    (hconcat : concatParquet pq
      (((metas.drop pos).take (fits spec.target_rows 0 (metas.drop pos))).map Prod.fst)
      (fun seq => RewriteM.query fun a => a.readSegmentBytes source_id stream seq)
      (spec.writer_props.getD pq.writer_props) spec.schema merge stream d [] =
        (.ok (bytes, consumed), d, [])) (hcut : consumed < 2) :
    compactFrom pq source_id stream spec merge metas pos done d [] =
      compactFrom pq source_id stream spec merge metas (pos + 1) done d [] := by
  rw [compactFrom, if_pos hpos]
  dsimp only
  rw [if_neg hfits, Prog.run_bind_ok hconcat]
  dsimp only
  rw [if_pos hcut]

theorem run_compactFrom_merged {bytes : Bytes} {consumed : Nat} {first last : Nat × SegmentMeta}
    {db : Archive} (hpos : pos < metas.length)
    (hfits : ¬ fits spec.target_rows 0 (metas.drop pos) < 2)
    (hconcat : concatParquet pq
      (((metas.drop pos).take (fits spec.target_rows 0 (metas.drop pos))).map Prod.fst)
      (fun seq => RewriteM.query fun a => a.readSegmentBytes source_id stream seq)
      (spec.writer_props.getD pq.writer_props) spec.schema merge stream d [] =
        (.ok (bytes, consumed), d, []))
    (htwo : ¬ consumed < 2) (hfirst : ((metas.drop pos).take consumed).head? = some first)
    (hlast : ((metas.drop pos).take consumed).getLast? = some last)
    (hdb : (replacement source_id stream metas pos bytes consumed first last).apply d.db =
      .ok db) :
    compactFrom pq source_id stream spec merge metas pos done d [] =
      compactFrom pq source_id stream spec merge metas (pos + consumed)
        { done with merges := done.merges + 1, after := done.after - (consumed - 1) }
        { d with db, log := d.log ++
            [(d.db, replacement source_id stream metas pos bytes consumed first last)] } [] := by
  rw [compactFrom, if_pos hpos]
  dsimp only
  rw [if_neg hfits, Prog.run_bind_ok hconcat]
  dsimp only
  rw [if_neg htwo, hfirst, hlast]
  dsimp only
  refine Prog.run_bind_ok (a := ()) ?_
  rw [RewriteM.commit, Prog.run_call_nil, Disk.run]
  unfold replacement at hdb ⊢
  rw [hdb]

end Turns

end

end Dendro
