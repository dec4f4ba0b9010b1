import Dendro.Rewrite.Reading
import Dendro.Writer.World

/-!
# The sums a pass plans with

Row counts are `u64`s that a caller may choose, and the planning loop adds the next one
before it compares. A build that checks for overflow panics where the sum does not fit;
`compactStreamWithChecked` is the pass as that build runs it. In a build that does not check,
the sum wraps, and a run that wraps looks small enough to merge.

`RunsAdd` says which catalogs are safe: wherever a run fits the target, so does its sum with
the next segment in 64 bits. It is exactly when every pass does what it should
(`plansWithin_iff`).
-/

namespace Dendro

open Archive Relation

section

variable {Props Writer Run : Type}

/-! ## A build that checks -/

/-- `fits` in a build that checks for overflow: `none` is a panic. -/
def fitsChecked (target_rows : UInt64) : UInt64 → List (Nat × SegmentMeta) → Option Nat
  | _, [] => some 0
  | rows, m :: metas =>
    if rows.toNat + m.2.rows.toNat < 2 ^ 64 then
      if rows + m.2.rows ≤ max target_rows 1 then
        (fitsChecked target_rows (rows + m.2.rows) metas).map (1 + ·)
      else some 0
    else none

/-- How many rows a run of segments has. -/
def totalRows (run : List (Nat × SegmentMeta)) : Nat := (run.map fun m => m.2.rows.toNat).sum

/-- `compactFrom` in a build that checks for overflow. -/
def compactFromChecked (pq : Parquet Props Writer) (source_id : Int) (stream : String)
    (spec : CompactSpec Props) (merge : MetadataMerge Run) (metas : List (Nat × SegmentMeta))
    (pos : Nat) (done : Compacted) : RewriteM Compacted := do
  if pos < metas.length then
    match fitsChecked spec.target_rows 0 (metas.drop pos) with
    | none => Prog.abort
    | some planned =>
      if planned < 2 then
        compactFromChecked pq source_id stream spec merge metas (max (pos + 1) (pos + planned)) done
      else
        let seqs := ((metas.drop pos).take planned).map Prod.fst
        let fetch := fun seq => RewriteM.query fun a => a.readSegmentBytes source_id stream seq
        let (merged, consumed) ← concatParquet pq seqs fetch
          (spec.writer_props.getD pq.writer_props) spec.schema merge stream
        if consumed < 2 then
          compactFromChecked pq source_id stream spec merge metas (pos + 1) done
        else
          let run := (metas.drop pos).take consumed
          if totalRows run < 2 ^ 64 then
            match run.head?, run.getLast? with
            | some first, some last =>
              RewriteM.commit (.merge source_id stream (run.map Prod.fst) first.1
                (runMeta run first.2 last.2) merged)
              compactFromChecked pq source_id stream spec merge metas (pos + consumed)
                { done with merges := done.merges + 1, after := done.after - (consumed - 1) }
            | _, _ => Prog.abort
          else Prog.abort
  else return done
termination_by metas.length - pos

/-- `compactStreamWith` in a build that checks for overflow. -/
def compactStreamWithChecked (pq : Parquet Props Writer) (source_id : Int) (stream : String)
    (spec : CompactSpec Props) (merge : MetadataMerge Run) : RewriteM Compacted := do
  let metas ← RewriteM.query fun a => a.readSegmentMeta source_id stream
  compactFromChecked pq source_id stream spec merge metas 0
    { before := metas.length, after := metas.length, merges := 0 }

/-! ## Catalogs whose sums fit -/

/-- Wherever a run of adjacent segments fits the target, its rows and the next segment's
add up in 64 bits. -/
def RunsAdd (target_rows : UInt64) (metas : List (Nat × SegmentMeta)) : Prop :=
  ∀ before run next after, metas = before ++ run ++ next :: after →
    totalRows run ≤ max target_rows.toNat 1 → totalRows run + next.2.rows.toNat < 2 ^ 64

variable {target_rows : UInt64} {metas : List (Nat × SegmentMeta)}

theorem totalRows_cons (m : Nat × SegmentMeta) (run : List (Nat × SegmentMeta)) :
    totalRows (m :: run) = m.2.rows.toNat + totalRows run := rfl

theorem totalRows_append (run run' : List (Nat × SegmentMeta)) :
    totalRows (run ++ run') = totalRows run + totalRows run' := by
  simp [totalRows]

theorem totalRows_take_le (run : List (Nat × SegmentMeta)) (n : Nat) :
    totalRows (run.take n) ≤ totalRows run := by
  have h := totalRows_append (run.take n) (run.drop n)
  rw [List.take_append_drop] at h
  omega

theorem toNat_max_one (target_rows : UInt64) :
    (max target_rows 1).toNat = max target_rows.toNat 1 := by
  have h : target_rows ≤ 1 ↔ target_rows.toNat ≤ 1 := UInt64.le_iff_toNat_le
  rw [UInt64.max_def]
  split <;> rename_i hle
  · rw [h] at hle
    exact (Nat.max_eq_right hle).symm
  · rw [h] at hle
    exact (Nat.max_eq_left (by omega)).symm

/-- The same from a position on, over the rows that were planned before it. -/
def AddsFrom (target_rows rows : UInt64) (metas : List (Nat × SegmentMeta)) : Prop :=
  ∀ run next after, metas = run ++ next :: after →
    rows.toNat + totalRows run ≤ max target_rows.toNat 1 →
    rows.toNat + totalRows run + next.2.rows.toNat < 2 ^ 64

theorem RunsAdd.addsFrom (h : RunsAdd target_rows metas) (pos : Nat) :
    AddsFrom target_rows 0 (metas.drop pos) := by
  intro run next after heq hrun
  have hzero : (0 : UInt64).toNat = 0 := rfl
  rw [hzero, Nat.zero_add] at hrun ⊢
  refine h (metas.take pos) run next after ?_ hrun
  rw [List.append_assoc, ← heq, List.take_append_drop]

/-- The next sum is exact, and so are those after it. -/
theorem AddsFrom.next {m : Nat × SegmentMeta} {rows : UInt64}
    (h : AddsFrom target_rows rows (m :: metas)) (hle : rows.toNat ≤ max target_rows.toNat 1) :
    rows.toNat + m.2.rows.toNat < 2 ^ 64 ∧
      (rows + m.2.rows).toNat = rows.toNat + m.2.rows.toNat ∧
      AddsFrom target_rows (rows + m.2.rows) metas := by
  have hfit : rows.toNat + m.2.rows.toNat < 2 ^ 64 := by
    simpa [totalRows] using h [] m metas rfl (by simpa [totalRows] using hle)
  have hsum : (rows + m.2.rows).toNat = rows.toNat + m.2.rows.toNat := by
    rw [UInt64.toNat_add]
    exact Nat.mod_eq_of_lt hfit
  refine ⟨hfit, hsum, fun run next after heq hrun => ?_⟩
  have hlonger := h (m :: run) next after (by rw [heq]; rfl)
  rw [totalRows_cons] at hlonger
  omega

/-- **Planning from a catalog whose sums fit**: the checked build plans the same, and the run
has no more rows than the target. -/
theorem fitsChecked_eq {rows : UInt64} (h : AddsFrom target_rows rows metas)
    (hle : rows.toNat ≤ max target_rows.toNat 1) :
    fitsChecked target_rows rows metas = some (fits target_rows rows metas) ∧
      rows.toNat + totalRows (metas.take (fits target_rows rows metas)) ≤
        max target_rows.toNat 1 := by
  induction metas generalizing rows with
  | nil => exact ⟨rfl, by simpa [totalRows] using hle⟩
  | cons m metas ih =>
      obtain ⟨hfit, hsum, hrest⟩ := h.next hle
      unfold fits fitsChecked
      rw [if_pos hfit]
      split <;> rename_i hnext
      · rw [UInt64.le_iff_toNat_le, toNat_max_one] at hnext
        obtain ⟨hchecked, htotal⟩ := ih hrest hnext
        rw [hchecked, Nat.add_comm 1, List.take_succ_cons, totalRows_cons]
        exact ⟨by rw [Option.map_some, Nat.add_comm], by omega⟩
      · exact ⟨rfl, by simpa [totalRows] using hle⟩

/-- Planning from any position of a catalog whose sums fit. -/
theorem RunsAdd.plan (h : RunsAdd target_rows metas) (pos : Nat) :
    fitsChecked target_rows 0 (metas.drop pos) = some (fits target_rows 0 (metas.drop pos)) ∧
      totalRows ((metas.drop pos).take (fits target_rows 0 (metas.drop pos))) ≤
        max target_rows.toNat 1 := by
  have hzero : (0 : UInt64).toNat = 0 := rfl
  have hplan := fitsChecked_eq (h.addsFrom pos) (by omega)
  rwa [hzero, Nat.zero_add] at hplan

/-- The segment after the run that was planned is past the target. -/
theorem fits_stops {rows : UInt64} (h : AddsFrom target_rows rows metas)
    (hle : rows.toNat ≤ max target_rows.toNat 1) {next : Nat × SegmentMeta}
    (hnext : metas[fits target_rows rows metas]? = some next) : max target_rows.toNat 1 <
      rows.toNat + totalRows (metas.take (fits target_rows rows metas)) + next.2.rows.toNat := by
  induction metas generalizing rows with
  | nil => exact absurd hnext (by simp)
  | cons m metas ih =>
      obtain ⟨-, hsum, hrest⟩ := h.next hle
      unfold fits at hnext ⊢
      split <;> rename_i hcmp
      · rw [if_pos hcmp] at hnext
        rw [UInt64.le_iff_toNat_le, toNat_max_one] at hcmp
        rw [Nat.add_comm 1, List.getElem?_cons_succ] at hnext
        have hstop := ih hrest hcmp hnext
        rw [Nat.add_comm 1, List.take_succ_cons, totalRows_cons]
        omega
      · rw [if_neg hcmp] at hnext
        rw [UInt64.le_iff_toNat_le, toNat_max_one] at hcmp
        obtain rfl : m = next := by simpa using hnext
        simp only [List.take_zero, totalRows, List.map_nil, List.sum_nil]
        omega

/-- Planning from any position stops where the target is passed. -/
theorem RunsAdd.stops (h : RunsAdd target_rows metas) (pos : Nat) {next : Nat × SegmentMeta}
    (hnext : (metas.drop pos)[fits target_rows 0 (metas.drop pos)]? = some next) :
    max target_rows.toNat 1 < totalRows ((metas.drop pos).take
      (fits target_rows 0 (metas.drop pos))) + next.2.rows.toNat := by
  have hzero : (0 : UInt64).toNat = 0 := rfl
  have hstop := fits_stops (h.addsFrom pos) (by omega) hnext
  rwa [hzero, Nat.zero_add] at hstop

/-- A catalog whose rows add up is one whose runs do. -/
theorem runsAdd_of_sum (h : totalRows metas < 2 ^ 64) : RunsAdd target_rows metas := by
  rintro before run next after rfl -
  rw [totalRows_append, totalRows_append, totalRows_cons] at h
  omega

/-- A target that the whole catalog fits plans all of it. -/
theorem fits_all (h : totalRows metas ≤ target_rows.toNat) :
    fits target_rows 0 metas = metas.length := by
  have hmax := target_rows.toNat_lt
  have hadd : RunsAdd target_rows metas := runsAdd_of_sum (by omega)
  refine Nat.le_antisymm (fits_le target_rows metas 0) (Nat.not_lt.mp fun hlt => ?_)
  have hstop := hadd.stops 0 (List.getElem?_eq_getElem hlt)
  have hsplit := totalRows_append (metas.take (fits target_rows 0 metas))
    (metas.drop (fits target_rows 0 metas))
  rw [List.take_append_drop, List.drop_eq_getElem_cons hlt, totalRows_cons] at hsplit
  rw [List.drop_zero] at hstop
  omega

/-- A sum that overflows after a run that fits is one the checked build stops at. -/
theorem fitsChecked_none {next : Nat × SegmentMeta} {after : List (Nat × SegmentMeta)} :
    ∀ {run : List (Nat × SegmentMeta)} {rows : UInt64},
      rows.toNat + totalRows run ≤ max target_rows.toNat 1 →
      2 ^ 64 ≤ rows.toNat + totalRows run + next.2.rows.toNat →
      fitsChecked target_rows rows (run ++ next :: after) = none
  | [], rows, _, hover => by
      rw [List.nil_append, fitsChecked, if_neg (by simp only [totalRows] at hover; simpa using hover)]
  | m :: run, rows, hle, hover => by
      rw [totalRows_cons] at hle hover
      have hmax : max target_rows.toNat 1 < 2 ^ 64 := by
        have := target_rows.toNat_lt
        omega
      have hfit : rows.toNat + m.2.rows.toNat < 2 ^ 64 := by omega
      have hsum : (rows + m.2.rows).toNat = rows.toNat + m.2.rows.toNat := by
        rw [UInt64.toNat_add]
        exact Nat.mod_eq_of_lt hfit
      have hnext : rows + m.2.rows ≤ max target_rows 1 := by
        rw [UInt64.le_iff_toNat_le, toNat_max_one]
        omega
      rw [List.cons_append, fitsChecked, if_pos hfit, if_pos hnext,
        fitsChecked_none (by omega) (by omega)]
      rfl

/-! ## A pass over such a catalog -/

/-- Where the sums fit, a build that checks runs a pass as one that does not. -/
theorem compactFromChecked_eq {pq : Parquet Props Writer} {source_id : Int} {stream : String}
    {spec : CompactSpec Props} {merge : MetadataMerge Run} (h : RunsAdd spec.target_rows metas) :
    ∀ (pos : Nat) (done : Compacted),
      compactFromChecked pq source_id stream spec merge metas pos done =
        compactFrom pq source_id stream spec merge metas pos done := by
  intro pos
  induction hn : metas.length - pos using Nat.strongRecOn generalizing pos with
  | ind n ih =>
    intro done
    subst hn
    obtain ⟨hplan, htotal⟩ := h.plan pos
    rw [compactFromChecked, compactFrom, hplan]
    by_cases hpos : pos < metas.length
    case neg => rw [if_neg hpos, if_neg hpos]
    rw [if_pos hpos, if_pos hpos]
    dsimp only
    by_cases hplanned : fits spec.target_rows 0 (metas.drop pos) < 2
    case pos => rw [if_pos hplanned, if_pos hplanned, ih _ (by omega) _ rfl]
    rw [if_neg hplanned, if_neg hplanned]
    funext d faults
    refine Prog.run_bind_congr fun out d' faults' hout => ?_
    obtain ⟨-, rfl, hconcat⟩ := (runs_concatParquet (R := fun _ _ => True) _).returned hout
    obtain ⟨bytes, consumed⟩ := out
    dsimp only
    by_cases hcut : consumed < 2
    case pos => rw [if_pos hcut, if_pos hcut, ih _ (by omega) _ rfl]
    rw [if_neg hcut, if_neg hcut]
    -- the rows of what was consumed are among those that were planned
    have hfit : totalRows ((metas.drop pos).take consumed) < 2 ^ 64 := by
      have hle := hconcat.length_le (Nat.not_lt.mp hcut)
      simp only [List.length_map, List.length_take] at hle
      have htake := totalRows_take_le ((metas.drop pos).take
        (fits spec.target_rows 0 (metas.drop pos))) consumed
      rw [List.take_take, Nat.min_eq_left (by omega)] at htake
      have hmax := spec.target_rows.toNat_lt
      omega
    rw [if_pos hfit]
    rcases ((metas.drop pos).take consumed).head? with _ | first
    · rfl
    rcases ((metas.drop pos).take consumed).getLast? with _ | last
    · rfl
    dsimp only
    refine Prog.run_bind_congr fun _ d'' faults'' _ => ?_
    rw [ih _ (by omega) _ rfl]

/-! ## What a pass merges -/

/-- How many rows the catalog counts in the segments at `seqs`. -/
def Archive.rowsAt (a : Archive) (k : StreamKey) (seqs : List Nat) : Nat :=
  (seqs.map fun seq => ((a.catalog k).get? seq).elim 0 fun c => c.seg_meta.rows.toNat).sum

/-- A merge that counts the rows of its run, which are no more than the target. -/
def MergesWithin (source_id : Int) (stream : String) (target_rows : UInt64)
    (e : Archive × Write) : Prop :=
  ∃ run seq seg_meta bytes, e.2 = .merge source_id stream run seq seg_meta bytes ∧
    seg_meta.rows.toNat = e.1.rowsAt (streamKey source_id stream) run ∧
    e.1.rowsAt (streamKey source_id stream) run ≤ target_rows.toNat

/-- Whatever the segments hold and whatever strikes the pass: no sum overflows, so that a
build that checks does the same, and each merge has the rows it says, within the target. -/
def PlansWithin (d : Disk) (source_id : Int) (stream : String) (target_rows : UInt64) : Prop :=
  ∀ (Props Writer Run : Type) (pq : Parquet Props Writer) (merge : MetadataMerge Run)
    (spec : CompactSpec Props) (faults : List (Fault StorageFailure)),
    spec.target_rows = target_rows →
    compactStreamWithChecked pq source_id stream spec merge d faults =
        compactStreamWith pq source_id stream spec merge d faults ∧
      ∃ merges, (compactStreamWith pq source_id stream spec merge d faults).2.1.log =
          d.log ++ merges ∧
        ∀ e ∈ merges, MergesWithin source_id stream target_rows e

variable {pq : Parquet Props Writer} {source_id : Int} {stream : String}

theorem rowsAt_entries {a : Archive} : ∀ {run : List (Nat × SegmentCols)},
    (∀ e ∈ run, e ∈ (a.catalog (streamKey source_id stream)).entries) →
      a.rowsAt (streamKey source_id stream) (run.map Prod.fst) = rowSum run
  | [], _ => rfl
  | e :: run, h => by
      have hget := OrdMap.get?_eq_some.mpr (h e (by simp))
      have hrest : a.rowsAt _ (run.map Prod.fst) = rowSum run :=
        rowsAt_entries fun f hf => h f (by simp [hf])
      simp only [Archive.rowsAt, rowSum, List.map_cons, List.sum_cons, hget, Option.elim_some] at hrest ⊢
      rw [hrest]

theorem totalRows_metasOf (es : List (Nat × SegmentCols)) : totalRows (metasOf es) = rowSum es := by
  rw [totalRows, metasOf, List.map_map]
  rfl

/-- **A run of a catalog whose sums fit is merged within the target.** -/
theorem Replaces.within {spec : CompactSpec Props} {merge : MetadataMerge Run} {a : Archive}
    {es : List (Nat × SegmentCols)} {pos consumed : Nat} {bytes : Bytes}
    {first last : Nat × SegmentMeta}
    (h : Replaces pq source_id stream spec merge (metasOf es) pos a bytes consumed first last)
    (hadd : RunsAdd spec.target_rows (metasOf es))
    (hpos : ∀ e ∈ es, 1 ≤ e.2.seg_meta.rows.toNat)
    (hmem : ∀ e ∈ es.drop pos, e ∈ (a.catalog (streamKey source_id stream)).entries) :
    MergesWithin source_id stream spec.target_rows
      (a, replacement source_id stream (metasOf es) pos bytes consumed first last) := by
  have hdrop : (metasOf es).drop pos = metasOf (es.drop pos) := by simp [metasOf, List.map_drop]
  have htake : ((metasOf es).drop pos).take consumed = metasOf ((es.drop pos).take consumed) := by
    rw [hdrop]
    simp [metasOf, List.map_take]
  obtain ⟨hlen, -⟩ := h.mergeOf hmem
  have hplanned := h.concat.length_le h.two
  simp only [plannedBlobs, List.length_map, List.length_take] at hplanned
  -- the run is a part of what was planned
  have hle : totalRows (((metasOf es).drop pos).take consumed) ≤ max spec.target_rows.toNat 1 := by
    have htotal := (hadd.plan pos).2
    have hpart := totalRows_take_le (((metasOf es).drop pos).take
      (fits spec.target_rows 0 ((metasOf es).drop pos))) consumed
    rw [List.take_take, Nat.min_eq_left (by omega)] at hpart
    omega
  have hmax := spec.target_rows.toNat_lt
  have hrows : a.rowsAt (streamKey source_id stream)
      ((((metasOf es).drop pos).take consumed).map Prod.fst) =
        totalRows (((metasOf es).drop pos).take consumed) := by
    rw [htake, totalRows_metasOf, metasOf, List.map_map]
    exact rowsAt_entries fun e he => hmem e (List.mem_of_mem_take he)
  -- two segments of one row at least
  have htwo : 2 ≤ totalRows (((metasOf es).drop pos).take consumed) := by
    have hlength : 2 ≤ ((es.drop pos).take consumed).length := by
      rw [List.length_take]
      have := h.two
      omega
    have hsub : ∀ e ∈ (es.drop pos).take consumed, 1 ≤ e.2.seg_meta.rows.toNat := fun e he =>
      hpos e (List.mem_of_mem_drop (List.mem_of_mem_take he))
    rw [htake, totalRows_metasOf, rowSum]
    have hsum := List.length_le_sum_of_one_le
      (((es.drop pos).take consumed).map fun e => e.2.seg_meta.rows.toNat) (by
        intro n hn
        obtain ⟨e, he, rfl⟩ := List.mem_map.mp hn
        exact hsub e he)
    rw [List.length_map] at hsum
    omega
  refine ⟨_, _, _, _, rfl, ?_, ?_⟩
  · rw [hrows]
    exact toNat_sum _ _ (show totalRows (((metasOf es).drop pos).take consumed) < 2 ^ 64 by omega)
  · rw [hrows]
    omega

/-- **Every pass over a catalog whose sums fit stays within its target.** -/
theorem plansWithin_of_runsAdd {d : Disk} {target_rows : UInt64}
    (hpos : ∀ c ∈ d.db.runs (streamKey source_id stream), 1 ≤ c.seg_meta.rows.toNat)
    (h : RunsAdd target_rows (d.db.readSegmentMeta source_id stream)) :
    PlansWithin d source_id stream target_rows := by
  rintro Props Writer Run pq merge spec faults rfl
  constructor
  · refine Prog.run_bind_congr fun metas d' faults' hmetas => ?_
    have hread : Prog.Runs (fun _ _ => True)
        (RewriteM.query fun a => a.readSegmentMeta source_id stream) d
        (fun metas _ => metas = d.db.readSegmentMeta source_id stream) fun _ _ => True :=
      .read (fun metas hm => (Except.ok.inj hm).symm) (fun _ _ => trivial) fun _ => trivial
    obtain ⟨-, rfl⟩ := hread.returned hmetas
    rw [compactFromChecked_eq h]
  · -- every transaction of the pass is a turn's
    let k := streamKey source_id stream
    let es := (d.db.catalog k).entries
    let R : Disk → Disk → Prop := fun d₁ d₂ => ∃ merges, d₂.log = d₁.log ++ merges ∧
      ∀ e ∈ merges, MergesWithin source_id stream spec.target_rows e
    have hes : ∀ e ∈ es, 1 ≤ e.2.seg_meta.rows.toNat := fun e he =>
      hpos e.2 (List.mem_map.mpr ⟨e, he, rfl⟩)
    have hruns : Prog.Runs R (compactStreamWith pq source_id stream spec merge) d
        (fun _ _ => True) fun _ _ => True := by
      refine (runs_pass rfl (pass_init d) (fun hpass ht => ⟨?_, (hpass.turn ht).2⟩)
        fun hpass hdown => ?_).mono (fun _ _ _ => trivial) fun _ _ h => h
      · cases ht with
        | alone => exact .refl
        | cut => exact .refl
        | merged hr happly =>
            obtain ⟨front, hfront, -⟩ := hpass.front
            refine .single ⟨_, rfl, fun e he => ?_⟩
            rw [List.mem_singleton.mp he]
            exact hr.within h hes fun e he => hfront ▸ List.mem_append_right _ he
      · cases hdown
        exact .single ⟨[], (List.append_nil _).symm, by simp⟩
    have hsteps := hruns.steps faults
    generalize (compactStreamWith pq source_id stream spec merge d faults).2.1 = d' at hsteps ⊢
    induction hsteps with
    | refl => exact ⟨[], (List.append_nil _).symm, by simp⟩
    | tail _ hstep ih =>
        obtain ⟨merges, hlog, hall⟩ := ih
        obtain ⟨merges', hlog', hall'⟩ := hstep
        refine ⟨merges ++ merges', by rw [hlog', hlog, List.append_assoc], fun e he => ?_⟩
        exact (List.mem_append.mp he).elim (hall e) (hall' e)

/-! ## Where a sum overflows -/

/-- A library that opens every file. -/
def openAll : Parquet Unit Unit where
  writer_props := ()
  key_value_metadata _ := none
  set_key_value_metadata props _ := props
  openFile _ := .ok
    { schema := { fields := [], metadata := ∅ }, key_value := none, num_rows := 0
      batches := .ok [] }
  record_batch _ rows := .ok rows
  try_new _ _ := .ok ()
  write w _ := .ok w
  close _ := .ok []

/-- A merge that begins no run. -/
def noMerge : MetadataMerge Unit where
  start _ := none
  extend _ _ := (false, ())
  finish _ := []

theorem concatParquet_noMerge {props : Unit} {policy : SchemaPolicy} {d : Disk} {seq : Nat}
    {seqs : List Nat} {blob : Bytes} (h : d.db.readSegmentBytes source_id stream seq = some blob) :
    concatParquet openAll (seq :: seqs)
      (fun seq => RewriteM.query fun a => a.readSegmentBytes source_id stream seq) props policy
      noMerge stream d [] = (.ok ([], 1), d, []) := by
  have hopen : openRun openAll noMerge policy stream
      (fun seq => RewriteM.query fun a => a.readSegmentBytes source_id stream seq) .empty
      (seq :: seqs) d [] = (.ok .empty, d, []) := by
    unfold openRun
    rw [Prog.run_bind_ok (RewriteM.run_query _ d), h]
    cases policy <;> rfl
  rw [concatParquet, Prog.run_bind_ok hopen]
  rfl

/-- What is stored of the segments a pass planned with. -/
def Stored (a : Archive) (source_id : Int) (stream : String) (metas : List (Nat × SegmentMeta)) :
    Prop :=
  ∀ m ∈ metas, ∃ blob, a.readSegmentBytes source_id stream m.1 = some blob

theorem concat_planned {spec : CompactSpec Unit} {d : Disk}
    (h : Stored d.db source_id stream metas) {pos planned : Nat} (hpos : pos < metas.length)
    (htwo : ¬ planned < 2) : concatParquet openAll (((metas.drop pos).take planned).map Prod.fst)
      (fun seq => RewriteM.query fun a => a.readSegmentBytes source_id stream seq)
      (spec.writer_props.getD openAll.writer_props) spec.schema noMerge stream d [] =
        (.ok ([], 1), d, []) := by
  obtain ⟨blob, hblob⟩ := h metas[pos] (List.getElem_mem hpos)
  obtain ⟨n, rfl⟩ : ∃ n, planned = n + 1 := ⟨planned - 1, by omega⟩
  rw [List.drop_eq_getElem_cons hpos, List.take_succ_cons, List.map_cons]
  exact concatParquet_noMerge hblob

/-- A pass that merges nothing goes through every position. -/
theorem compactFrom_noMerge {spec : CompactSpec Unit} {d : Disk}
    (h : Stored d.db source_id stream metas) : ∀ (pos : Nat) (done : Compacted),
      compactFrom openAll source_id stream spec noMerge metas pos done d [] = (.ok done, d, []) := by
  intro pos
  induction hn : metas.length - pos using Nat.strongRecOn generalizing pos with
  | ind n ih =>
    intro done
    subst hn
    rw [compactFrom]
    by_cases hpos : pos < metas.length
    case neg =>
      rw [if_neg hpos]
      rfl
    rw [if_pos hpos]
    dsimp only
    by_cases hplanned : fits spec.target_rows 0 (metas.drop pos) < 2
    case pos => rw [if_pos hplanned, ih _ (by omega) _ rfl]
    rw [if_neg hplanned, Prog.run_bind_ok (concat_planned h hpos hplanned)]
    exact ih _ (by omega) _ rfl done

/-- A build that checks does not get past a position where a sum overflows. -/
theorem compactFromChecked_noMerge {spec : CompactSpec Unit} {d : Disk} {p : Nat}
    (h : Stored d.db source_id stream metas) (hp : p < metas.length)
    (hnone : fitsChecked spec.target_rows 0 (metas.drop p) = none) :
    ∀ (pos : Nat) (done : Compacted), pos ≤ p →
      (compactFromChecked openAll source_id stream spec noMerge metas pos done d []).1 =
        .killed := by
  intro pos
  induction hn : metas.length - pos using Nat.strongRecOn generalizing pos with
  | ind n ih =>
    intro done hle
    subst hn
    have hpos : pos < metas.length := by omega
    rw [compactFromChecked, if_pos hpos]
    rcases hplan : fitsChecked spec.target_rows 0 (metas.drop pos) with _ | planned
    · rfl
    have hlt : pos < p := by
      rcases Nat.lt_or_eq_of_le hle with hlt | rfl
      · exact hlt
      · exact absurd (hplan.symm.trans hnone) (by simp)
    dsimp only
    by_cases hplanned : planned < 2
    case pos =>
      rw [if_pos hplanned]
      exact ih _ (by omega) _ rfl done (by omega)
    rw [if_neg hplanned, Prog.run_bind_ok (concat_planned h hpos hplanned)]
    exact ih _ (by omega) _ rfl done hlt

theorem stored_readSegmentMeta (a : Archive) :
    Stored a source_id stream (a.readSegmentMeta source_id stream) := by
  intro m hm
  obtain ⟨e, he, rfl⟩ := List.mem_map.mp hm
  exact ⟨e.2.bytes, by rw [readSegmentBytes, OrdMap.get?_eq_some.mpr he]; rfl⟩

/-- A sum that overflows stops a build that checks, and not the other. -/
theorem runsAdd_of_plansWithin {d : Disk} {target_rows : UInt64}
    (h : PlansWithin d source_id stream target_rows) :
    RunsAdd target_rows (d.db.readSegmentMeta source_id stream) := by
  intro before run next after hmetas hle
  by_contra hover
  let spec : CompactSpec Unit := { target_rows, writer_props := none, schema := .stopAtChange }
  have hstored : Stored d.db source_id stream _ := stored_readSegmentMeta d.db
  have hnone : fitsChecked target_rows 0
      ((d.db.readSegmentMeta source_id stream).drop before.length) = none := by
    have hzero : (0 : UInt64).toNat = 0 := rfl
    rw [hmetas, List.append_assoc, List.drop_left]
    exact fitsChecked_none (by omega) (by omega)
  have hlt : before.length < (d.db.readSegmentMeta source_id stream).length := by
    rw [hmetas]
    simp
  obtain ⟨hsame, -⟩ := h Unit Unit Unit openAll noMerge spec [] rfl
  have hread := RewriteM.run_query (fun a => a.readSegmentMeta source_id stream) d
  rw [compactStreamWithChecked, compactStreamWith, Prog.run_bind_ok hread, Prog.run_bind_ok hread,
    compactFrom_noMerge hstored] at hsame
  have hkilled := compactFromChecked_noMerge hstored hlt
    (show fitsChecked spec.target_rows 0 _ = none from hnone) 0
    { before := (d.db.readSegmentMeta source_id stream).length
      after := (d.db.readSegmentMeta source_id stream).length
      merges := 0 } (Nat.zero_le _)
  rw [hsame] at hkilled
  cases hkilled

/-- **The planning of a pass is right exactly where its sums fit**: no sum overflows and no
merge goes past the target, in any pass, if and only if every run that fits the target adds
up with the next segment in 64 bits. -/
theorem plansWithin_iff {d : Disk} {target_rows : UInt64}
    (hpos : ∀ c ∈ d.db.runs (streamKey source_id stream), 1 ≤ c.seg_meta.rows.toNat) :
    PlansWithin d source_id stream target_rows ↔
      RunsAdd target_rows (d.db.readSegmentMeta source_id stream) :=
  ⟨runsAdd_of_plansWithin, plansWithin_of_runsAdd hpos⟩

theorem plansWithin_iff_twoSegments : PlansWithin twoSegments 1 "cpu" 10 ↔
    RunsAdd 10 (twoSegments.db.readSegmentMeta 1 "cpu") :=
  plansWithin_iff (by decide)

end

/-! ## A sum that wraps -/

/-- A segment of one stamp that says it has `rows` rows. -/
def claiming (rows : UInt64) (ts : Int64) (b : UInt8) : Adopted where
  stream := "cpu"
  seg_meta := { rows, first_ts := ts, last_ts := ts }
  bytes := [b]
  caller_index := none

/-- A new file that adopted ten rows, and then all but five of what a `u64` can count. -/
def overfull : World :=
  (World.create .table).run
    [.message .idle (.addSource { labels := ∅, metadata := ∅, clock_anchor_wall_ns := 0 } none) [],
      .message .idle (.adoptSegment 1 (claiming 10 1 7)) [],
      .message .idle (.adoptSegment 1 (claiming (0 - 5) 2 8)) []]

theorem overfull_metas : overfull.disk.db.readSegmentMeta 1 "cpu" =
    [(0, (claiming 10 1 7).seg_meta), (1, (claiming (0 - 5) 2 8).seg_meta)] := by
  decide +kernel

def toHundred : CompactSpec Unit :=
  { target_rows := 100, writer_props := none, schema := .stopAtChange }

/-- The two segments are merged to one of five rows, or the build panics. -/
theorem planning_wraps_overfull :
    (overfull.disk.db.readSegmentMeta 1 "cpu").map (·.2.rows.toNat) = [10, 2 ^ 64 - 5] ∧
      ((compactStreamWith byteParquet 1 "cpu" toHundred anyMetadata overfull.disk
        []).2.1.db.readSegmentMeta 1 "cpu").map (·.2.rows.toNat) = [5] ∧
      (compactStreamWithChecked byteParquet 1 "cpu" toHundred anyMetadata overfull.disk []).1 =
        .killed ∧
      ¬ PlansWithin overfull.disk 1 "cpu" 100 := by
  have hread := RewriteM.run_query (fun a => a.readSegmentMeta 1 "cpu") overfull.disk
  have hconcat : concatParquet byteParquet [0, 1]
      (fun seq => RewriteM.query fun a => a.readSegmentBytes 1 "cpu" seq) () .stopAtChange
      anyMetadata "cpu" overfull.disk [] = (.ok ([7, 8], 2), overfull.disk, []) := rfl
  have hmerged : (compactStreamWith byteParquet 1 "cpu" toHundred anyMetadata overfull.disk
      []).1.isOk = true ∧ ((compactStreamWith byteParquet 1 "cpu" toHundred anyMetadata
        overfull.disk []).2.1.db.readSegmentMeta 1 "cpu").map (·.2.rows.toNat) = [5] := by
    rw [compactStreamWith, Prog.run_bind_ok hread, overfull_metas,
      run_compactFrom_merged (by decide) (by decide) hconcat (by decide) rfl rfl rfl,
      run_compactFrom_end (by decide)]
    exact ⟨rfl, by decide +kernel⟩
  have hkilled : (compactStreamWithChecked byteParquet 1 "cpu" toHundred anyMetadata overfull.disk
      []).1 = .killed := by
    rw [compactStreamWithChecked, Prog.run_bind_ok hread, overfull_metas, compactFromChecked,
      if_pos (by decide)]
    rfl
  refine ⟨by rw [overfull_metas]; decide, hmerged.2, hkilled, fun h => ?_⟩
  -- the build that does not check returns
  obtain ⟨hsame, -⟩ := h Unit Bytes Unit byteParquet anyMetadata toHundred [] rfl
  have hreturns := hmerged.1
  rw [← hsame, hkilled] at hreturns
  cases hreturns

end Dendro
