import Dendro.Lib.Unwinding
import Dendro.Writer.FaultFree
import Dendro.Writer.World

/-!
# The sources of one tick do not see one another

A tick carries rows of many sources in one transaction. Where a constraint refuses it, its parts
are tried one by one, so what one source brings decides by which of the two ways another
source's rows are stored. `Ticked` says that both ways store the parts that fit; here is that
whether a part fits depends on its own source alone, and then a source finds after the tick what
its own entries make of it.

An observer of one source sees its row, its catalogs and its WAL (`SameFor`), and the tick is a
fold that unwinds for it.
-/

namespace Dendro

open WriterM

/-! ## What is seen of one source -/

/-- The archives hold the same of one source. -/
structure Archive.SameFor (id : Int) (a b : Archive) : Prop where
  source : a.sources.get? id = b.sources.get? id
  segments : ∀ stream, a.readSegments id stream = b.readSegments id stream
  catalog : ∀ stream, a.catalog (streamKey id stream) = b.catalog (streamKey id stream)
  wal : ∀ stream, a.walOf (streamKey id stream) = b.walOf (streamKey id stream)

namespace Archive

variable {id : Int} {a b : Archive}

theorem sameFor_equivalence (id : Int) : Equivalence (SameFor id) where
  refl _ := ⟨rfl, fun _ => rfl, fun _ => rfl, fun _ => rfl⟩
  symm h := ⟨h.source.symm, fun stream => (h.segments stream).symm,
    fun stream => (h.catalog stream).symm, fun stream => (h.wal stream).symm⟩
  trans h h' := ⟨h.source.trans h'.source, fun stream => (h.segments stream).trans
    (h'.segments stream), fun stream => (h.catalog stream).trans (h'.catalog stream),
    fun stream => (h.wal stream).trans (h'.wal stream)⟩

/-- What readers of the source are given is the same. -/
theorem SameFor.readWal (h : SameFor id a b) (stream : String) :
    a.readWal id stream = b.readWal id stream := by
  unfold Archive.readWal
  rw [h.wal]

theorem SameFor.liveWal (h : SameFor id a b) (stream : String) :
    a.liveWal id stream = b.liveWal id stream := by
  have hlive : a.live (streamKey id stream) = b.live (streamKey id stream) := by
    unfold live isLive watermark
    rw [h.wal, h.catalog]
  unfold Archive.liveWal
  rw [hlive]

/-! ## A part of the tick -/

/-- The WAL with one more row, seen from a stream. -/
theorem walOf_insert (a : Archive) (k k' : StreamKey) (ts : Int64) (c : WalCols) :
    ({ a with wal := a.wal.insert (toLex (k', ts)) c } : Archive).walOf k =
      if k = k' then (a.walOf k).insert ts c else a.walOf k := by
  unfold walOf
  split
  · rename_i hk
    rw [hk]
    exact OrdMap.group_insert_self _ _ _ _
  · rename_i hk
    exact OrdMap.group_insert_ne _ _ _ hk

theorem SameFor.insertWalRow (h : SameFor id a b) (r : WalRow) :
    Except.Alike (SameFor id) (Archive.insertWalRow id a r) (Archive.insertWalRow id b r) := by
  have hkey : a.wal.get? (toLex (streamKey id r.stream, r.ts)) =
      b.wal.get? (toLex (streamKey id r.stream, r.ts)) := by
    have hwal := congrArg (fun m => OrdMap.get? m r.ts) (h.wal r.stream)
    simpa [walOf] using hwal
  unfold Archive.insertWalRow checkSource
  dsimp only
  rw [hkey, h.source]
  split
  · exact .error
  · split
    · refine .ok ⟨h.source, h.segments, h.catalog, fun stream => ?_⟩
      rw [walOf_insert, walOf_insert, h.wal stream]
    · exact .error

theorem takePart_respects {t : Int × List WalRow} (ht : t.1 = id) (h : SameFor id a b) :
    SameFor id (a.takePart t) (b.takePart t) := by
  have hrows : Except.Alike (SameFor id) (insertWalRows t.1 t.2 a) (insertWalRows t.1 t.2 b) := by
    rw [ht]
    exact Except.Alike.foldlM (fun r _ _ h' => h'.insertWalRow r) t.2 h
  unfold takePart
  rw [insertWalRowsBatch_single, insertWalRowsBatch_single]
  revert hrows
  generalize insertWalRows t.1 t.2 a = x
  generalize insertWalRows t.1 t.2 b = y
  rintro (h' | -)
  · exact h'
  · exact h

theorem takePart_hides {t : Int × List WalRow} (ht : t.1 ≠ id) (a : Archive) :
    SameFor id (a.takePart t) a := by
  rcases takePart_cases a t with h | ⟨e, -, h⟩
  · have happ := appended_insertWalRows h
    rw [happ.frame]
    refine ⟨rfl, fun _ => rfl, fun _ => rfl, fun stream => OrdMap.ext_mem fun e => ?_⟩
    have hnone : (t.2.filter fun r => streamKey t.1 r.stream = streamKey id stream) = [] := by
      refine List.filter_eq_nil_iff.mpr fun r _ hr => ht ?_
      simpa using congrArg (fun k => (ofLex k).1) (of_decide_eq_true hr)
    have hperm := happ.wal (streamKey id stream)
    rw [hnone] at hperm
    exact hperm.mem_iff
  · rw [h]
    exact (sameFor_equivalence id).refl a

end Archive

/-! ## The tick -/

section Tick

variable {id : Int} {m : Caches} {ticks ticks' : List (Int × List WalRow)}

/-- What one entry of a tick leaves of the file. -/
def takeTick (m : Caches) (a : Archive) (t : Int × List WalRow) : Archive :=
  if belowFloor m t then a else a.takePart (t.1, t.2.filter fun r => !shadows m t.1 r)

theorem takeTick_unwinds (m : Caches) (id : Int) :
    Unwinds (Archive.SameFor id) (fun t : Int × List WalRow => decide (t.1 = id)) (takeTick m) where
  equivalence := Archive.sameFor_equivalence id
  respects a b t ht h := by
    unfold takeTick
    split
    · exact h
    · exact Archive.takePart_respects (of_decide_eq_true ht) h
  hides a t ht := by
    unfold takeTick
    split
    · exact (Archive.sameFor_equivalence id).refl a
    · refine Archive.takePart_hides (t := (t.1, _)) ?_ a
      exact of_decide_eq_false ht

/-- The parts that are tried are what the floors and the watermarks leave of the entries. -/
theorem foldl_admitted (m : Caches) (ticks : List (Int × List WalRow)) (a : Archive) :
    (admitted m ticks).foldl Archive.takePart a = ticks.foldl (takeTick m) a := by
  have hkept : ∀ kept : List (Int × List WalRow), (dropShadowed m kept).foldl Archive.takePart a =
      kept.foldl (fun a t => a.takePart (t.1, t.2.filter fun r => !shadows m t.1 r)) a := by
    intro kept
    unfold dropShadowed
    split
    · rw [List.foldl_filterMap]
      refine List.foldl_ext _ _ _ fun b t _ => ?_
      dsimp only
      split
      · rename_i u hu
        split at hu
        · exact absurd hu (by simp)
        · rw [Option.some.inj hu]
      · rename_i hu
        split at hu
        · rename_i hempty
          rw [List.isEmpty_iff.mp hempty]
          rfl
        · exact absurd hu (by simp)
    · rename_i hclear
      refine List.foldl_ext _ _ _ fun b t ht => ?_
      have hall : (t.2.filter fun r => !shadows m t.1 r) = t.2 := by
        refine List.filter_eq_self.mpr fun r hr => ?_
        by_contra hs
        exact hclear (List.any_eq_true.mpr ⟨t, ht, List.any_eq_true.mpr ⟨r, hr, by simpa using hs⟩⟩)
      rw [hall]
  unfold admitted
  rw [hkept, List.foldl_filter]
  refine List.foldl_ext _ _ _ fun b t _ => ?_
  unfold takeTick
  cases belowFloor m t <;> rfl

/-- What one entry of a tick adds to the counts of shadowed rows. -/
def countTick (m : Caches) (counts : OrdMap Int UInt64) (t : Int × List WalRow) :
    OrdMap Int UInt64 :=
  (t.2.filter (shadows m t.1)).foldl (fun counts _ =>
    counts.insert t.1 ((counts.get? t.1).getD 0 + 1)) counts

theorem countTick_unwinds (m : Caches) (id : Int) :
    Unwinds (fun c c' : OrdMap Int UInt64 => c.get? id = c'.get? id)
      (fun t : Int × List WalRow => decide (t.1 = id)) (countTick m) where
  equivalence := ⟨fun _ => rfl, Eq.symm, Eq.trans⟩
  respects c c' t ht h := by
    obtain rfl := of_decide_eq_true ht
    unfold countTick
    induction t.2.filter (shadows m t.1) generalizing c c' with
    | nil => exact h
    | cons r rows ih =>
        refine ih _ _ ?_
        rw [OrdMap.get?_insert_self, OrdMap.get?_insert_self, h]
  hides c t ht := by
    have hne : id ≠ t.1 := fun h => of_decide_eq_false ht h.symm
    unfold countTick
    induction t.2.filter (shadows m t.1) generalizing c with
    | nil => rfl
    | cons r rows ih =>
        rw [List.foldl_cons, ih, OrdMap.get?_insert_ne _ _ hne]

/-- Entries for one source stay so through any filter on entries. -/
theorem filter_own {p : Int × List WalRow → Bool}
    (h : (ticks.filter fun t => t.1 = id) = ticks'.filter fun t => t.1 = id) :
    ((ticks.filter p).filter fun t => t.1 = id) = (ticks'.filter p).filter fun t => t.1 = id := by
  rw [List.filter_comm, h, List.filter_comm]

/-- What a source finds after a tick, in the file and in its count of dropped rows, is the
same. -/
structure WriterState.AlikeFor (id : Int) (s s' : WriterState) : Prop where
  wal : ∀ stream, s.db.readWal id stream = s'.db.readWal id stream
  live : ∀ stream, s.db.liveWal id stream = s'.db.liveWal id stream
  segments : ∀ stream, s.db.readSegments id stream = s'.db.readSegments id stream
  shadowed : s.mem.shadowed.get? id = s'.mem.shadowed.get? id

/-- **The sources of one tick are isolated.** Two ticks with the same entries for one source, and
whatever else for others, leave the same of that source: its rows, and the count of those that
were dropped as shadowed. -/
theorem tick_isolates (s : WriterState) (id : Int) (ticks ticks' : List (Int × List WalRow))
    (h : (ticks.filter fun t => t.1 = id) = ticks'.filter fun t => t.1 = id) :
    ∃ s₁ s₂, commitTick ticks s [] = (.ok (), s₁, []) ∧
      commitTick ticks' s [] = (.ok (), s₂, []) ∧ s₁.AlikeFor id s₂ := by
  have hgoes : ∀ ticks, ∃ s', commitTick ticks s [] = (.ok (), s', []) ∧ Ticked ticks s s' := by
    intro ticks
    rcases goes_commitTick (s := s) ticks with ⟨_, s', hr, h'⟩ | ⟨_, _, -, hf⟩
    · exact ⟨s', hr, h'⟩
    · exact hf.elim
  obtain ⟨s₁, hr₁, h₁⟩ := hgoes ticks
  obtain ⟨s₂, hr₂, h₂⟩ := hgoes ticks'
  have hdb : Archive.SameFor id s₁.db s₂.db := by
    rw [h₁.db, h₂.db, foldl_admitted, foldl_admitted]
    exact (takeTick_unwinds s.mem id).foldl_congr h ((Archive.sameFor_equivalence id).refl s.db)
  refine ⟨s₁, s₂, hr₁, hr₂, hdb.readWal, hdb.liveWal, hdb.segments, ?_⟩
  rw [h₁.shadowed, h₂.shadowed]
  exact (countTick_unwinds s.mem id).foldl_congr (filter_own h) rfl

end Tick

/-- A tick of one row, alone and beside a row of a source that is not there: the first is one
transaction, the second is refused and replayed. -/
theorem tick_isolates_unknownBeside :
    ∃ s₁ s₂, commitTick [(1, [{ stream := "cpu", ts := 5, wall_offset := 0, row := [1] }])]
        firstSource [] = (.ok (), s₁, []) ∧
      commitTick [(2, [{ stream := "cpu", ts := 5, wall_offset := 0, row := [2] }]),
          (1, [{ stream := "cpu", ts := 5, wall_offset := 0, row := [1] }])]
        firstSource [] = (.ok (), s₂, []) ∧ s₁.AlikeFor 1 s₂ :=
  tick_isolates firstSource 1 _ _ (by decide)

end Dendro
