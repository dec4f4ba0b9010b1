import Dendro.Archive.Inline
import Dendro.Archive.Rooted
import Dendro.Rewrite.Copy

/-!
# What a copy inserts

What a copy makes of a source is a function of the source and the spec (`sourceCopy`), and the
program inserts just that, under a new id, or gives up where the function does
(`copySource_goes`). Nothing else in the destination changes.

The destination is described in the form that keeps every index beside its segment (`inline`),
so that one description serves either layout.
-/

namespace Dendro

open Archive

/-- What a copy inserts of one segment. -/
structure Part where
  seg_meta : SegmentMeta
  bytes : Bytes
  index : Option Bytes
  deriving DecidableEq

/-- What a copy inserts of one source. -/
structure SourceCopy where
  cols : SourceCols
  segments : List Encoded
  offsets : List (Int64 × Int64)
  callers : List (String × CallerRow)

/-- A source that has nothing but its row. -/
def SourceCopy.bare (cols : SourceCols) : SourceCopy :=
  { cols, segments := [], offsets := [], callers := [] }

/-- A stream's segments numbered from 0. -/
def renumbered (table : String) (parts : List Part) : List Encoded :=
  parts.mapIdx fun seq p =>
    { stream := table, seq, seg_meta := p.seg_meta, bytes := p.bytes, caller_index := p.index }

/-- An archive with a copied source under an id. -/
def Archive.place (a : Archive) (id : Int) (c : SourceCopy) : Archive :=
  { a with
    sources := a.sources.insert id c.cols
    segments := a.segments.insertAll (c.segments.map fun e =>
      (toLex (streamKey id e.stream, e.seq), storedCols a.layout e.seg_meta e.bytes e.caller_index))
    clock_offsets := a.clock_offsets.insertAll (c.offsets.map fun o => (toLex (id, o.1), o.2))
    caller_rows := a.caller_rows ++ c.callers.map fun e => (streamKey id e.1, e.2) }

section

variable {Props Writer : Type} (pq : Parquet Props Writer) (spec : CopySpec Props)
  (encoder : SegmentEncoder)

/-! ## What is inserted -/

def segmentPart (keep_columns : Option ColumnFilter) (seg_meta : SegmentMeta) (bytes : Bytes)
    (index : Option Bytes) : Except Error (Option Part) := do
  let out ← trimmed pq spec keep_columns bytes index
  return out.map fun t => { seg_meta, bytes := t.1, index := t.2 }

def tailPart (keep_columns : Option ColumnFilter) (rec : SourceRow) (table : String)
    (tail : List WalRow) : Except Error (Option Part) :=
  match tail.head?, tail.getLast? with
  | some first, some last =>
    if last.ts < spec.start || first.ts > spec.end_ then .ok none
    else do
      match ← materialize encoder
          { source_id := rec.id, source_uuid := rec.uuid, stream := table } tail with
      | some segment => segmentPart pq spec keep_columns segment.segMeta segment.bytes segment.index
      | none => return none
  | _, _ => .ok none

/-- The segments of a stream in a copy. -/
def streamParts (src : Archive) (rec : SourceRow) (table : String) : Except Error (List Part) :=
  if spec.accepts table then do
    let keep_columns := spec.keep_columns.filter fun k => k.projects table
    let sealedParts ← (src.segmentsOverlapping rec.id table spec.start spec.end_).mapM
      fun s => segmentPart pq spec keep_columns s.seg_meta s.bytes s.caller_index
    let tail ← tailPart pq spec encoder keep_columns rec table (src.liveWal rec.id table)
    return sealedParts.reduceOption ++ tail.toList
  else .ok []

/-- The row of a copied source. -/
def copiedCols (mint : Int → String) (rec : SourceRow) : SourceCols :=
  { rec.toSourceCols with
    identity := spec.seed rec
    uuid := some (rec.uuid.getD (mint rec.id)) }

/-- The caller's rows of one name in a copy. -/
def copiedCallerRows (src : Archive) (rec : SourceRow) (name : String) :
    List (String × CallerRow) :=
  if spec.accepts name then
    (src.readCallerRows rec.id name spec.start spec.end_).map (name, ·)
  else []

/-- A source in a copy. -/
def sourceCopy (mint : Int → String) (src : Archive) (rec : SourceRow) :
    Except Error SourceCopy := do
  checkEncoder rec.id rec.identity.metadata encoder
  let segments ← (src.allStreams rec.id).mapM fun table => do
    return renumbered table (← streamParts pq spec encoder src rec table)
  return {
    cols := copiedCols spec mint rec
    segments := segments.flatten
    offsets := src.readClockOffsets rec.id
    callers := (src.callerRowStreams rec.id).flatMap (copiedCallerRows spec src rec) }

end

/-! ## Inserting it -/

/-- `f` is `f₀` with a copied source under an id. -/
structure Grafted (f₀ : ArchiveFile) (id : Int) (c : SourceCopy) (f : ArchiveFile) : Prop where
  db : f.db.inline = f₀.db.inline.place id c
  layout : f.db.layout = f₀.db.layout
  documents : f.documents = f₀.documents

variable {f₀ f : ArchiveFile} {id : Int} {c : SourceCopy}

theorem Grafted.sources (h : Grafted f₀ id c f) : f.db.sources = f₀.db.sources.insert id c.cols :=
  congrArg Archive.sources h.db

theorem Grafted.hasSource (h : Grafted f₀ id c f) : f.db.HasSource id := by
  rw [HasSource, h.sources, OrdMap.get?_insert_self]
  rfl

/-- The statement finds no row at a new key, and the source. -/
theorem insertSegment_new {a : Archive} {stream : String} {seq : Nat} {m : SegmentMeta}
    {bytes : Bytes} {index : Option Bytes}
    (hnew : a.segments.get? (toLex (streamKey id stream, seq)) = none) (hid : a.HasSource id) :
    ∃ a', a.insertSegment id stream seq m bytes index = .ok a' := by
  unfold HasSource at hid
  unfold insertSegment checkSource
  dsimp only
  rw [hnew, hid, if_neg (by simp), if_pos rfl]
  cases a.layout <;> exact ⟨_, rfl⟩

/-- **One segment more.** -/
theorem Grafted.segment (h : Grafted f₀ id c f) (hr : f₀.db.Rooted) (hid : ¬f₀.db.HasSource id)
    (e : Encoded) (hnew : ∀ e' ∈ c.segments, e'.stream = e.stream → e'.seq ≠ e.seq) :
    ∃ db, f.db.insertSegment id e.stream e.seq e.seg_meta e.bytes e.caller_index = .ok db ∧
      Grafted f₀ id { c with segments := c.segments ++ [e] } { f with db } := by
  have hfree : f.db.segments.get? (toLex (streamKey id e.stream, e.seq)) = none := by
    have hinline : f.db.inline.segments.get? (toLex (streamKey id e.stream, e.seq)) = none := by
      rw [h.db]
      refine (OrdMap.get?_insertAll_of_not_mem (fun x hx => ?_) _).trans ?_
      · obtain ⟨e', he', rfl⟩ := List.mem_map.mp hx
        intro hkey
        obtain ⟨hstream, hseq⟩ := Prod.mk.inj (toLex.injective hkey)
        exact hnew e' he' (Prod.mk.inj (toLex.injective hstream)).2 hseq
      · rw [get?_inline, hr.segments_none hid]
        rfl
    rwa [get?_inline, Option.map_eq_none_iff] at hinline
  obtain ⟨db, hdb⟩ : ∃ db, f.db.insertSegment id e.stream e.seq e.seg_meta e.bytes e.caller_index =
      .ok db := insertSegment_new hfree h.hasSource
  refine ⟨db, hdb, ?_, ?_, h.documents⟩
  · have hinsert : f.db.inline.insertSegment id e.stream e.seq e.seg_meta e.bytes e.caller_index =
        (f.db.insertSegment id e.stream e.seq e.seg_meta e.bytes e.caller_index).map Archive.inline :=
      insertSegment_inline _ _ _
    rw [hdb] at hinsert
    have hframe := (insertSegment_ok hinsert).2
    refine hframe.trans ?_
    rw [h.db]
    unfold place
    dsimp only
    rw [List.map_append, OrdMap.insertAll_append]
    rfl
  · exact (congrArg Archive.layout (insertSegment_ok hdb).2).trans h.layout

/-- One clock observation more. -/
theorem Grafted.offset (h : Grafted f₀ id c f) (hr : f₀.db.Rooted) (hid : ¬f₀.db.HasSource id)
    (o : Int64 × Int64) (hnew : ∀ o' ∈ c.offsets, o'.1 ≠ o.1) :
    ∃ db, f.db.insertClockOffset id o.1 o.2 = .ok db ∧
      Grafted f₀ id { c with offsets := c.offsets ++ [o] } { f with db } := by
  have hoffsets : f.db.clock_offsets = f₀.db.clock_offsets.insertAll
      (c.offsets.map fun o => (toLex (id, o.1), o.2)) := congrArg Archive.clock_offsets h.db
  have hfree : f.db.clock_offsets.get? (toLex (id, o.1)) = none := by
    rw [hoffsets]
    refine (OrdMap.get?_insertAll_of_not_mem (fun x hx => ?_) _).trans (hr.offsets_none hid _)
    obtain ⟨o', ho', rfl⟩ := List.mem_map.mp hx
    intro hkey
    exact hnew o' ho' (Prod.mk.inj (toLex.injective hkey)).2
  refine ⟨{ f.db with clock_offsets := f.db.clock_offsets.insert (toLex (id, o.1)) o.2 }, ?_, ?_,
    h.layout, h.documents⟩
  · have hsource := h.hasSource
    unfold HasSource at hsource
    unfold insertClockOffset checkSource
    dsimp only
    rw [hfree, hsource]
    rfl
  · have hdb := h.db
    unfold place at hdb ⊢
    dsimp only at hdb ⊢
    rw [List.map_append, OrdMap.insertAll_append]
    refine (congrArg (fun a : Archive =>
      { a with clock_offsets := a.clock_offsets.insert (toLex (id, o.1)) o.2 }) hdb).trans ?_
    rfl

/-- The caller's rows of one name more. -/
theorem Grafted.callers (h : Grafted f₀ id c f) (name : String) (rows : List CallerRow) :
    ∃ db, f.db.insertCallerRows id name rows = .ok db ∧
      Grafted f₀ id { c with callers := c.callers ++ rows.map (name, ·) } { f with db } := by
  refine ⟨{ f.db with caller_rows := f.db.caller_rows ++ rows.map (streamKey id name, ·) }, ?_, ?_,
    h.layout, h.documents⟩
  · have hsource := h.hasSource
    unfold HasSource at hsource
    unfold insertCallerRows checkSource
    rw [hsource]
    split <;> rfl
  · have hdb := h.db
    unfold place at hdb ⊢
    dsimp only at hdb ⊢
    rw [List.map_append, List.map_map, ← List.append_assoc]
    exact congrArg (fun a : Archive =>
      { a with caller_rows := a.caller_rows ++ rows.map (streamKey id name, ·) }) hdb

/-- The source's row is written again. -/
theorem Grafted.update {cols : SourceCols} (h : Grafted f₀ id (.bare cols) f)
    (u : SourceCols → SourceCols) :
    Grafted f₀ id (.bare (u cols)) { f with db := f.db.updateSource id u } := by
  have hget : f.db.sources.get? id = some cols := by
    rw [h.sources]
    exact OrdMap.get?_insert_self _ _ _
  refine ⟨?_, ?_, h.documents⟩
  · show (f.db.updateSource id u).inline = _
    rw [← updateSource_inline, h.db]
    unfold updateSource place
    dsimp only
    have hself : (f₀.db.inline.sources.insert id (SourceCopy.bare cols).cols).get? id = some cols :=
      OrdMap.get?_insert_self _ _ _
    rw [hself]
    dsimp only
    refine congrArg (fun s => ({ f₀.db.inline.place id (.bare cols) with sources := s } : Archive))
      (OrdMap.ext_get? fun k => ?_)
    rw [OrdMap.get?_insert, OrdMap.get?_insert, OrdMap.get?_insert]
    split <;> rfl
  · exact (congrArg Archive.layout (updateSource_tables f.db id u)).trans h.layout

/-! ## The program -/

namespace CopyM

theorem run_fetch {α : Type} (context : String) (x : α) (f : ArchiveFile) :
    fetch context x f [] = (.ok x, f, []) :=
  Prog.run_read_nil _ rfl

theorem run_execute {context : String} {stmt : Archive → Except Error Archive} {db : Archive}
    (h : stmt f.db = .ok db) : execute context stmt f [] = (.ok (), { f with db }, []) := by
  unfold execute
  rw [Prog.run_call_nil, h]

theorem run_insertSource (f : ArchiveFile) (seed : SourceMeta) (uuid : String) :
    insertSource seed uuid f [] =
      (.ok f.db.nextSourceId, { f with db := f.db.insertSource seed uuid }, []) := rfl

end CopyM

/-- A part that is inserted at a `seq`. -/
def Part.numbered (p : Part) (table : String) (seq : Nat) : Encoded :=
  { stream := table, seq, seg_meta := p.seg_meta, bytes := p.bytes, caller_index := p.index }

theorem renumbered_concat (table : String) (parts : List Part) (p : Part) :
    renumbered table (parts ++ [p]) =
      renumbered table parts ++ [p.numbered table parts.length] := by
  rw [renumbered, List.mapIdx_append, List.mapIdx_singleton, Nat.zero_add]
  rfl

theorem mem_renumbered {table : String} {parts : List Part} {e : Encoded}
    (h : e ∈ renumbered table parts) : e.stream = table ∧ e.seq < parts.length := by
  obtain ⟨i, hi, rfl⟩ := List.mem_mapIdx.mp h
  exact ⟨rfl, hi⟩

theorem reduceOption_concat {α : Type} (l : List (Option α)) (a : Option α) :
    (l ++ [a]).reduceOption = l.reduceOption ++ a.toList := by
  rw [List.reduceOption_append]
  cases a <;> rfl

/-- A stream's copy has inserted these parts so far. -/
def Filling (f₀ : ArchiveFile) (id : Int) (c : SourceCopy) (table : String) (parts : List Part)
    (f : ArchiveFile) : Prop :=
  Grafted f₀ id { c with segments := c.segments ++ renumbered table parts } f

section

variable {Props Writer : Type} {pq : Parquet Props Writer} {spec : CopySpec Props}
  {encoder : SegmentEncoder} {table : String} (hr : f₀.db.Rooted) (hid : ¬f₀.db.HasSource id)
  (hnew : ∀ e ∈ c.segments, e.stream ≠ table)

include hr hid hnew

theorem copySegment_follows {parts : List Part} (h : Filling f₀ id c table parts f)
    (keep_columns : Option ColumnFilter) (m : SegmentMeta) (bytes : Bytes) (index : Option Bytes) :
    Prog.Follows (copySegment pq spec keep_columns id table parts.length m bytes index) f
      (segmentPart pq spec keep_columns m bytes index) fun part seq f' =>
        seq = (parts ++ part.toList).length ∧ Filling f₀ id c table (parts ++ part.toList) f' := by
  refine Prog.Follows.lift_bind fun out _ => ?_
  cases out with
  | none => exact .pure ⟨by simp, by simpa using h⟩
  | some t =>
    -- no segment of the copy has this stream and this `seq`
    have hfree : ∀ e ∈ c.segments ++ renumbered table parts, e.stream = table →
        e.seq ≠ parts.length := by
      intro e he hstream
      rcases List.mem_append.mp he with he | he
      · exact absurd hstream (hnew e he)
      · exact (mem_renumbered he).2.ne
    let p : Part := { seg_meta := m, bytes := t.1, index := t.2 }
    obtain ⟨db, hdb, hgrafted⟩ := Grafted.segment h hr hid (p.numbered table parts.length) hfree
    refine Prog.Follows.run_step (CopyM.run_execute hdb) (.pure ⟨by simp, ?_⟩)
    unfold Filling
    rw [Option.map_some, Option.toList_some, renumbered_concat, ← List.append_assoc]
    exact hgrafted

theorem copyTail_follows {parts : List Part} (h : Filling f₀ id c table parts f)
    (keep_columns : Option ColumnFilter) (rec : SourceRow) (tail : List WalRow) :
    Prog.Follows (copyTail pq spec encoder keep_columns rec id table parts.length tail) f
      (tailPart pq spec encoder keep_columns rec table tail) fun part _ f' =>
        Filling f₀ id c table (parts ++ part.toList) f' := by
  have hnothing : Filling f₀ id c table (parts ++ (none : Option Part).toList) f := by
    simpa using h
  unfold copyTail tailPart
  rcases tail.head? with _ | first
  · exact .pure hnothing
  rcases tail.getLast? with _ | last
  · exact .pure hnothing
  refine .ite (fun _ => .pure hnothing) fun _ => .lift_bind fun out _ => ?_
  cases out with
  | none => exact .pure hnothing
  | some segment =>
    exact (copySegment_follows hr hid hnew h keep_columns _ _ _).mono fun _ _ _ _ h => h.2

/-- **A stream's copy inserts its parts, numbered from 0.** -/
theorem copyStream_follows (h : Grafted f₀ id c f) (src : Archive) (rec : SourceRow) :
    Prog.Follows (copyStream pq spec encoder src rec id table) f
      (streamParts pq spec encoder src rec table) fun parts _ f' =>
        Filling f₀ id c table parts f' := by
  have hstart : Filling f₀ id c table [] f := by
    unfold Filling
    rw [renumbered, List.mapIdx_nil, List.append_nil]
    exact h
  unfold copyStream streamParts
  refine .ite (fun _ => ?_) fun _ => .pure hstart
  dsimp only
  generalize spec.keep_columns.filter (fun k => k.projects table) = keep_columns
  refine .run_step (CopyM.run_fetch _ _ f) ?_
  refine .bind (Q := fun cs seq f' => seq = cs.reduceOption.length ∧
    Filling f₀ id c table cs.reduceOption f') ?_ ?_
  · refine Prog.Follows.foldEach (I := fun _ cs seq f' => seq = cs.reduceOption.length ∧
      Filling f₀ id c table cs.reduceOption f') ?_ ⟨rfl, hstart⟩
    rintro done s rest cs seq f' - ⟨rfl, hfilling⟩
    refine (copySegment_follows hr hid hnew hfilling keep_columns _ _ _).mono ?_
    intro part seq f'' _ hturn
    rw [reduceOption_concat]
    exact hturn
  · rintro cs _ f' - ⟨rfl, hfilling⟩
    refine .run_step (CopyM.run_fetch _ _ f') ?_
    refine .bind (copyTail_follows hr hid hnew hfilling keep_columns rec _) ?_
    intro part seq f'' _ hfilling'
    exact .pure hfilling'

end

/-! ### One source -/

/-- A source's row as it is inserted. -/
def seededCols (seed : SourceMeta) (uuid : String) : SourceCols :=
  { identity := seed, uuid := some uuid, complete := false, heartbeat := none,
    heartbeat_interval_ns := none }

theorem Grafted.insertSource (f : ArchiveFile) (seed : SourceMeta) (uuid : String) :
    Grafted f f.db.nextSourceId (.bare (seededCols seed uuid))
      { f with db := f.db.insertSource seed uuid } where
  db := by
    unfold place SourceCopy.bare
    rw [List.map_nil, List.map_nil, List.map_nil, List.append_nil]
    rfl
  layout := rfl
  documents := rfl

theorem copyComplete_goes {cols : SourceCols} (h : Grafted f₀ id (.bare cols) f)
    (hcols : cols.complete = false) (rec : SourceRow) :
    Prog.Goes (copyComplete rec id) f
      (fun _ f' => Grafted f₀ id (.bare { cols with complete := rec.complete }) f')
      fun _ _ => False := by
  unfold copyComplete
  by_cases hcomplete : rec.complete = true
  · rw [if_pos hcomplete, hcomplete]
    exact .inl ⟨_, _, CopyM.run_execute rfl, h.update fun s => { s with complete := true }⟩
  · have hfalse : rec.complete = false := by simpa using hcomplete
    rw [if_neg hcomplete, hfalse, ← hcols]
    exact .pure h

theorem copyHeartbeat_goes {cols : SourceCols} (h : Grafted f₀ id (.bare cols) f)
    (hcols : cols.heartbeat = none ∧ cols.heartbeat_interval_ns = none) (rec : SourceRow) :
    Prog.Goes (copyHeartbeat rec id) f
      (fun _ f' => Grafted f₀ id (.bare
        { cols with
          heartbeat := rec.heartbeat, heartbeat_interval_ns := rec.heartbeat_interval_ns }) f')
      fun _ _ => False := by
  unfold copyHeartbeat
  by_cases hset : (rec.heartbeat.isSome || rec.heartbeat_interval_ns.isSome) = true
  · rw [if_pos hset]
    exact .inl ⟨_, _, CopyM.run_execute rfl, h.update fun s =>
      { s with
        heartbeat := rec.heartbeat, heartbeat_interval_ns := rec.heartbeat_interval_ns }⟩
  · -- there is nothing to carry, and the row has nothing
    have hnone : rec.heartbeat = none ∧ rec.heartbeat_interval_ns = none := by
      simpa using hset
    rw [if_neg hset, hnone.1, hnone.2]
    obtain ⟨identity, uuid, complete, heartbeat, interval⟩ := cols
    obtain ⟨rfl, rfl⟩ := hcols
    exact .pure h

theorem copyOffsets_goes (hr : f₀.db.Rooted) (hid : ¬f₀.db.HasSource id)
    {offsets : List (Int64 × Int64)} (hnd : (offsets.map Prod.fst).Nodup) (hc : c.offsets = [])
    (h : Grafted f₀ id c f) :
    Prog.Goes (Prog.forEach (fun o => CopyM.execute "failed to insert clock offset" fun a =>
        a.insertClockOffset id o.1 o.2) offsets) f
      (fun _ f' => Grafted f₀ id { c with offsets } f') fun _ _ => False := by
  have hstart : Grafted f₀ id { c with offsets := [] } f := by
    rwa [← hc]
  refine (Prog.Goes.forEach (I := fun rest f' => ∃ done, offsets = done ++ rest ∧
    Grafted f₀ id { c with offsets := done } f') ?_ ⟨[], rfl, hstart⟩).mono ?_ fun _ _ h => h
  · rintro o rest f' ⟨done, hsplit, hgrafted⟩
    have hfree : ∀ o' ∈ done, o'.1 ≠ o.1 := by
      rw [hsplit, List.map_append, List.map_cons] at hnd
      intro o' ho' heq
      exact (List.nodup_append.mp hnd).2.2 _ (List.mem_map_of_mem ho') _ List.mem_cons_self heq
    obtain ⟨db, hdb, hnext⟩ := hgrafted.offset hr hid o hfree
    exact .inl ⟨_, _, CopyM.run_execute hdb, done ++ [o], by simp [hsplit], hnext⟩
  · rintro - f' ⟨done, hsplit, hgrafted⟩
    rwa [hsplit, List.append_nil]

theorem copyCallers_goes {Props : Type} {spec : CopySpec Props} {src : Archive} {rec : SourceRow}
    {names : List String} (hc : c.callers = []) (h : Grafted f₀ id c f) :
    Prog.Goes (Prog.forEach (copyCallerRows spec src rec id) names) f
      (fun _ f' => Grafted f₀ id { c with callers := names.flatMap (copiedCallerRows spec src rec) }
        f') fun _ _ => False := by
  have hstart : Grafted f₀ id { c with callers := [] } f := by
    rwa [← hc]
  refine (Prog.Goes.forEach (I := fun rest f' => ∃ done, names = done ++ rest ∧
    Grafted f₀ id { c with callers := done.flatMap (copiedCallerRows spec src rec) } f') ?_
      ⟨[], rfl, hstart⟩).mono ?_ fun _ _ h => h
  · rintro name rest f' ⟨done, hsplit, hgrafted⟩
    unfold copyCallerRows
    by_cases haccepts : spec.accepts name = true
    · rw [if_pos haccepts]
      obtain ⟨db, hdb, hnext⟩ := hgrafted.callers name
        (src.readCallerRows rec.id name spec.start spec.end_)
      have hrun : (CopyM.fetch s!"failed to query caller rows for {name}"
          (src.readCallerRows rec.id name spec.start spec.end_) >>= fun rows =>
            CopyM.execute s!"failed to insert a caller row for {name}"
              (·.insertCallerRows id name rows)) f' [] = (.ok (), { f' with db }, []) := by
        rw [Prog.run_bind_ok (CopyM.run_fetch _ _ f'), CopyM.run_execute hdb]
      refine .inl ⟨_, _, hrun, done ++ [name], by simp [hsplit], ?_⟩
      rw [List.flatMap_append, List.flatMap_singleton, copiedCallerRows, if_pos haccepts]
      exact hnext
    · rw [if_neg haccepts]
      refine .pure ⟨done ++ [name], by simp [hsplit], ?_⟩
      rw [List.flatMap_append, List.flatMap_singleton, copiedCallerRows, if_neg haccepts,
        List.append_nil]
      exact hgrafted
  · rintro - f' ⟨done, hsplit, hgrafted⟩
    rwa [hsplit, List.append_nil]

section

variable {Props Writer : Type} (pq : Parquet Props Writer) (spec : CopySpec Props)
  (encoder : SegmentEncoder) (mint : Int → String)

/-- **A source's copy inserts what `sourceCopy` says, under the next id.** -/
theorem copySource_follows (hr : f.db.Rooted) (src : Archive) (copied : Nat) (rec : SourceRow) :
    Prog.Follows (copySource pq spec encoder mint src copied rec) f
      (sourceCopy pq spec encoder mint src rec) fun c n f' =>
        n = copied + 1 ∧ Grafted f f.db.nextSourceId c f' := by
  have hid : ¬f.db.HasSource f.db.nextSourceId := not_hasSource_next
  refine .lift_bind fun _ _ => .run_step (CopyM.run_insertSource f _ _) ?_
  have hinsert := Grafted.insertSource f (spec.seed rec) (rec.uuid.getD (mint rec.id))
  generalize f.db.nextSourceId = id at hid hinsert ⊢
  refine .step (copyComplete_goes hinsert rfl rec) fun _ f₁ hcomplete => ?_
  refine .step (copyHeartbeat_goes hcomplete ⟨rfl, rfl⟩ rec) fun _ f₂ hheartbeat => ?_
  have hcols : Grafted f id (.bare (copiedCols spec mint rec)) f₂ := hheartbeat
  refine .run_step (CopyM.run_fetch _ _ f₂) ?_
  -- what was inserted so far is of the streams that are done, and no stream comes twice
  have hnd : (src.allStreams rec.id).Nodup := OrdMap.keys_nodup _
  refine .bind (Q := fun segments _ f' => Grafted f id
    { SourceCopy.bare (copiedCols spec mint rec) with segments := segments.flatten } f') ?_ ?_
  · refine (Prog.Follows.forEach (I := fun done segments f' => Grafted f id
      { SourceCopy.bare (copiedCols spec mint rec) with segments := segments.flatten } f' ∧
        ∀ e ∈ segments.flatten, e.stream ∈ done) ?_ ⟨hcols, by simp⟩).mono fun _ _ _ _ h => h.1
    rintro done table rest segments f' hsplit ⟨hgrafted, hdone⟩
    have hnew : ∀ e ∈ segments.flatten, e.stream ≠ table := by
      rintro e he rfl
      rw [hsplit] at hnd
      exact (List.nodup_append.mp hnd).2.2 _ (hdone e he) _ List.mem_cons_self rfl
    refine Prog.Follows.value ((copyStream_follows hr hid hnew hgrafted src rec).mono ?_)
    intro parts _ f'' _ hfilling
    rw [List.flatten_append, List.flatten_singleton]
    refine ⟨hfilling, fun e he => ?_⟩
    rcases List.mem_append.mp he with he | he
    · exact List.mem_append_left _ (hdone e he)
    · rw [(mem_renumbered he).1]
      simp
  intro segments _ f₃ _ hsegments
  refine .run_step (CopyM.run_fetch _ _ f₃) ?_
  refine .step (copyOffsets_goes hr hid (OrdMap.keys_nodup _) rfl hsegments) fun _ f₄ hoffsets => ?_
  refine .run_step (CopyM.run_fetch _ _ f₄) ?_
  exact .step (copyCallers_goes rfl hoffsets) fun _ f₅ hcallers => .pure ⟨rfl, hcallers⟩

end

end Dendro
