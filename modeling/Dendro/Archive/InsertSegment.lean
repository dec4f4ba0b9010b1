import Dendro.Archive.Disk
import Dendro.Lib.Savepoint

/-!
# Inserting a segment, statement by statement

`Archive.insertSegment` is what an insert does when it is done. Here is `insert_segment_sql` as the
statements it makes on a connection, any of which can fail, inside a transaction or outside one. A
statement that fails changes nothing.

With a table of indexes there are up to three statements between a savepoint and its release, and
the code says that they land together or not at all, whether or not the caller is inside a
transaction. `insertSegmentSql_failsIn_iff` is when that is so.
-/

namespace Dendro

open Connection

/-! ## The statements -/

/-- `INSERT INTO segments`. -/
def insertSegmentRow (context : String) (source_id : Int) (stream : String) (seq : Nat)
    (cols : SegmentCols) (a : Archive) : Except Error Archive := do
  let key := toLex (streamKey source_id stream, seq)
  if (a.segments.get? key).isSome then
    throw (uniqueError context "segments.source_id, segments.stream, segments.seq")
  a.checkSource context source_id
  return { a with segments := a.segments.insert key cols }

/-- `DELETE FROM segment_indexes`, of one segment. -/
def deleteSegmentIndex (source_id : Int) (stream : String) (seq : Nat) (a : Archive) :
    Except Error Archive :=
  .ok { a with
    segment_indexes := a.segment_indexes.erase (toLex (streamKey source_id stream, seq)) }

/-- `INSERT INTO segment_indexes`; the row references the segment's. -/
def insertSegmentIndex (context : String) (source_id : Int) (stream : String) (seq : Nat)
    (index : Bytes) (a : Archive) : Except Error Archive := do
  let key := toLex (streamKey source_id stream, seq)
  if (a.segment_indexes.get? key).isSome then
    throw (uniqueError context
      "segment_indexes.source_id, segment_indexes.stream, segment_indexes.seq")
  if (a.segments.get? key).isNone then
    throw (foreignKeyError context)
  return { a with segment_indexes := a.segment_indexes.insert key index }

/-- A savepoint that is not open. -/
def noSavepoint (context name : String) : Error :=
  .sqlite context (.sqliteFailure .unknown s!"no such savepoint: {name}")

/-- Shared by `Archive::insert_segment` and `Transaction::insert_segment`. -/
def insertSegmentSql (layout : IndexLayout) (source_id : Int) (stream : String) (seq : Nat)
    (seg_meta : SegmentMeta) (bytes : Bytes) (caller_index : Option Bytes) :
    Prog (Connection Archive) SqliteError Error Unit :=
  let context := s!"failed to insert segment {stream}#{seq}"
  let failed := Error.sqlite context
  match layout, caller_index with
  | .column, caller_index =>
    onDb failed (insertSegmentRow context source_id stream seq { seg_meta, bytes, caller_index })
  | .table, index => do
    savepoint failed "segment_insert"
    let inserted ← Prog.attempt do
      onDb failed
        (insertSegmentRow context source_id stream seq { seg_meta, bytes, caller_index := none })
      onDb failed (deleteSegmentIndex source_id stream seq)
      match index with
      | some index => onDb failed (insertSegmentIndex context source_id stream seq index)
      | none => pure ()
    match inserted with
    | .ok () => release failed (noSavepoint context) "segment_insert"
    | .error e =>
      -- what comes of the clean-up is not looked at
      let _ ← Prog.attempt do
        rollbackTo failed (noSavepoint context) "segment_insert"
        release failed (noSavepoint context) "segment_insert"
      Prog.fail e
  | .absent, _ =>
    onDb failed
      (insertSegmentRow context source_id stream seq { seg_meta, bytes, caller_index := none })

/-- The statements an insert with a table of indexes makes under its savepoint. -/
def segmentStatements (source_id : Int) (stream : String) (seq : Nat) (seg_meta : SegmentMeta)
    (bytes : Bytes) (caller_index : Option Bytes) : List (Archive → Except Error Archive) :=
  let context := s!"failed to insert segment {stream}#{seq}"
  insertSegmentRow context source_id stream seq { seg_meta, bytes, caller_index := none } ::
    deleteSegmentIndex source_id stream seq ::
      caller_index.toList.map (insertSegmentIndex context source_id stream seq)

section

variable {source_id : Int} {stream : String} {seq : Nat} {seg_meta : SegmentMeta} {bytes : Bytes}
  {caller_index : Option Bytes}

theorem insertSegmentSql_table :
    insertSegmentSql .table source_id stream seq seg_meta bytes caller_index =
      nested (Error.sqlite s!"failed to insert segment {stream}#{seq}")
        (noSavepoint s!"failed to insert segment {stream}#{seq}") "segment_insert"
        (Prog.forEach (onDb (Error.sqlite s!"failed to insert segment {stream}#{seq}"))
          (segmentStatements source_id stream seq seg_meta bytes caller_index)) := by
  unfold insertSegmentSql nested
  dsimp only
  refine congrArg (savepoint _ _ >>= ·) (funext fun _ => ?_)
  refine congrArg₂ (Prog.attempt · >>= ·) ?_ (funext fun r => ?_)
  · cases caller_index with
    | none => rfl
    | some index =>
        have hlast : ∀ m : Prog (Connection Archive) SqliteError Error Unit,
            (m >>= fun _ => pure ()) = m := fun m => by
          funext c faults
          rw [Prog.run_bind]
          rcases m c faults with ⟨_ | e | -, c', rest⟩ <;> rfl
        simp only [segmentStatements, Option.toList_some, List.map_cons, List.map_nil,
          Prog.forEach, hlast]
  · rcases r with e | -
    · rfl
    · rfl

/-- The layouts without a table of indexes make one statement, which cannot be half done. -/
theorem insertSegmentSql_one {layout : IndexLayout} (h : layout ≠ .table) (source_id : Int)
    (stream : String) (seq : Nat) (seg_meta : SegmentMeta) (bytes : Bytes)
    (caller_index : Option Bytes) :
    insertSegmentSql layout source_id stream seq seg_meta bytes caller_index =
      onDb (Error.sqlite s!"failed to insert segment {stream}#{seq}")
        (insertSegmentRow s!"failed to insert segment {stream}#{seq}" source_id stream seq
          { seg_meta, bytes, caller_index := if layout = .column then caller_index else none }) := by
  cases layout with
  | table => exact absurd rfl h
  | column => rfl
  | absent => rfl

theorem insertSegmentIndex_ok {a : Archive} (context : String) (index : Bytes)
    (hfree : a.segment_indexes.get? (toLex (streamKey source_id stream, seq)) = none)
    (hthere : (a.segments.get? (toLex (streamKey source_id stream, seq))).isSome = true) :
    insertSegmentIndex context source_id stream seq index a = .ok { a with
      segment_indexes :=
        a.segment_indexes.insert (toLex (streamKey source_id stream, seq)) index } := by
  rw [insertSegmentIndex]
  simp only [hfree, Option.isSome_none, Bool.false_eq_true, if_false, ← Option.not_isSome, hthere,
    Bool.not_true]
  rfl

/-- The statements of an insert, made one after the other, do what it does. -/
theorem segmentStatements_insertSegment {a : Archive} (h : a.layout = .table) :
    (segmentStatements source_id stream seq seg_meta bytes caller_index).foldlM
      (fun a f => f a) a = a.insertSegment source_id stream seq seg_meta bytes caller_index := by
  rw [segmentStatements, List.foldlM_cons, Archive.insertSegment, insertSegmentRow]
  dsimp only
  split
  · rfl
  · rcases hsource : a.checkSource s!"failed to insert segment {stream}#{seq}" source_id with e | -
    · rfl
    · rw [h]
      cases caller_index with
      | none => rfl
      | some index =>
        -- the index row goes where there is none any more, and under a segment that is there
        let key := toLex (streamKey source_id stream, seq)
        have hindex := insertSegmentIndex_ok (a := { a with
            segments := a.segments.insert key { seg_meta, bytes, caller_index := none }
            segment_indexes := a.segment_indexes.erase key })
          s!"failed to insert segment {stream}#{seq}" index
          ((OrdMap.get?_erase _ key key).trans (if_pos rfl))
          (congrArg Option.isSome (OrdMap.get?_insert_self _ key _))
        rw [h] at hindex
        change (insertSegmentIndex _ source_id stream seq index _ >>= pure) = _
        exact (congrArg (· >>= pure) hindex).trans rfl

/-- An insert that goes through is one, and leaves nothing open. -/
theorem insertSegmentSql_ok {c c' : Connection Archive} {faults rest : List (Fault SqliteError)}
    (h : insertSegmentSql c.db.layout source_id stream seq seg_meta bytes caller_index c faults =
      (.ok (), c', rest)) :
    c.db.insertSegment source_id stream seq seg_meta bytes caller_index = .ok c'.db ∧
      c'.opened = c.opened := by
  by_cases hlayout : c.db.layout = .table
  · rw [hlayout, insertSegmentSql_table] at h
    obtain ⟨hdone, hopened⟩ := nested_ok _ _ h
    rw [segmentStatements_insertSegment hlayout] at hdone
    exact ⟨hdone, hopened⟩
  · rw [insertSegmentSql_one hlayout] at h
    obtain ⟨hdone, hopened⟩ := onDb_ok _ h
    refine ⟨?_, hopened⟩
    rw [← hdone, Archive.insertSegment, insertSegmentRow]
    dsimp only
    split
    · rfl
    · refine congrArg (c.db.checkSource _ source_id >>= ·) (funext fun _ => ?_)
      rcases hl : c.db.layout with _ | _ | _
      · exact absurd hl hlayout
      · rfl
      · rfl

/-- What is asked of a connection on which an insert failed: the tables are as they were, nothing
that the insert opened is still open, and to insert again is as if for the first time. -/
structure AsBefore (insert : Prog (Connection Archive) SqliteError Error Unit)
    (c c' : Connection Archive) : Prop where
  segments : c'.db.segments = c.db.segments
  segment_indexes : c'.db.segment_indexes = c.db.segment_indexes
  opened : c'.opened = c.opened
  again : ∀ faults, insert c' faults = insert c faults

theorem AsBefore.refl (insert : Prog (Connection Archive) SqliteError Error Unit)
    (c : Connection Archive) : AsBefore insert c c :=
  ⟨rfl, rfl, rfl, fun _ => rfl⟩

/-- **When a segment insert is all or nothing.** Under every failure of its statements, and
whatever is open on the connection: always where there is no table of indexes; where there is one,
exactly if none of the statements that close the savepoint fails. -/
theorem insertSegmentSql_failsIn_iff (layout : IndexLayout) (source_id : Int) (stream : String)
    (seq : Nat) (seg_meta : SegmentMeta) (bytes : Bytes) (caller_index : Option Bytes)
    (c : Connection Archive) (faults : List (Fault SqliteError)) :
    FailsIn
        (AsBefore (insertSegmentSql layout source_id stream seq seg_meta bytes caller_index) c)
        (insertSegmentSql layout source_id stream seq seg_meta bytes caller_index) c faults ↔
      layout ≠ .table ∨
        Closes (segmentStatements source_id stream seq seg_meta bytes caller_index) c.db faults := by
  by_cases hlayout : layout = .table
  · subst hlayout
    rw [insertSegmentSql_table, nested_failsIn_iff _ _ (AsBefore.refl _ c) fun _ h => h.opened]
    simp
  · refine iff_of_true (fun e c' rest h => ?_) (.inl hlayout)
    rw [insertSegmentSql_one hlayout] at h
    obtain rfl := onDb_err _ h
    exact AsBefore.refl _ c'

end

/-- An insert of one row's segment, and the connection of a writer between two transactions. -/
def firstCpu : Prog (Connection Archive) SqliteError Error Unit :=
  insertSegmentSql .table 1 "cpu" 0 { rows := 1, first_ts := 10, last_ts := 10 } [7] none

def idle : Connection Archive :=
  { db := (Archive.create .table).insertSource ⟨∅, ∅, 0⟩ "u", opened := [] }

/-- The release is a commit, and finds the file busy. -/
def busyRelease : List (Fault SqliteError) :=
  [.none, .none, .none, .fails (.sqliteFailure .databaseBusy "database is locked")]

/-- The segment is left in an open savepoint. The error is one to try again after, and to try again
is refused, where a first attempt goes through. -/
theorem insertSegmentSql_busyRelease :
    ¬FailsIn (AsBefore firstCpu idle) firstCpu idle busyRelease ∧
      (∃ e c', firstCpu idle busyRelease = (.err e, c', []) ∧ e.isRetryable = true ∧
        c'.opened ≠ [] ∧
        ∃ e', (firstCpu c' []).1 = .err e' ∧ e'.isConstraint = true) ∧
      (firstCpu idle []).1 = .ok () := by
  have hrun : ∃ e c', firstCpu idle busyRelease = (.err e, c', []) ∧ e.isRetryable = true ∧
      c'.opened ≠ [] ∧ ∃ e', (firstCpu c' []).1 = .err e' ∧ e'.isConstraint = true :=
    ⟨_, _, rfl, rfl, by decide, _, rfl, rfl⟩
  refine ⟨fun h => ?_, hrun, rfl⟩
  obtain ⟨e, c', hfails, -, hopened, -⟩ := hrun
  exact hopened (h _ _ _ hfails).opened

end Dendro
