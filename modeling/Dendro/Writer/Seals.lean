import Dendro.SegmentContract
import Dendro.Writer.FaultFree
import Dendro.Writer.World

/-!
# A seal over a list of names

The writer reads, encodes and numbers every stream that a seal names before one transaction
inserts them all, and nothing looks for a name that is there twice. Such a name is encoded
twice from the same rows and numbered twice from the same `seq`, so the transaction is refused
over its primary key and the writer stops; unless the encoder makes nothing of the rows, and
then the name adds nothing however often it is there.
-/

namespace Dendro

open WriterM

/-! ## Numbering -/

/-- A file, however it came about, and the thread that opened it. -/
def World.opened (disk : Disk) : World := { disk, mem := some (.seed disk.db) }

theorem numbered_seed (disk : Disk) : Numbered { disk, mem := .seed disk.db } :=
  fun k => seed_numbered disk.db k

theorem numbered_invariant : Invariant (fun _ _ => True) (fun _ => True) Numbered where
  seed disk _ := numbered_seed disk
  disk _ _ := trivial
  step := by
    intro env msg s s' _ hs h k
    rcases hs.stream k with ⟨-, hstep⟩ | ⟨w, -, hstep⟩
    · exact hstep.numbered (h k)
    · exact hstep.numbered (h k)
  beat := trivial

/-- **Whatever happened to a file since a thread opened it, the thread numbers past it.** -/
theorem numbered_run (disk : Disk) (events : List Event) {m : Caches}
    (hm : ((World.opened disk).run events).mem = some m) :
    Numbered { disk := ((World.opened disk).run events).disk, mem := m } := by
  have hopened : (World.opened disk).Kept (fun _ => True) Numbered := by
    refine ⟨trivial, fun m' hm' => ?_⟩
    obtain rfl := Option.some.inj hm'
    exact numbered_seed disk
  refine (numbered_invariant.run hopened fun e _ => ?_).thread m hm
  cases e <;> exact trivial

/-! ## Names that repeat -/

/-- What is there once in a list is where it was once repeats are gone. -/
theorem filter_eraseDups {α : Type} [DecidableEq α] {p : α → Bool} : ∀ (l : List α),
    (∀ a, p a = true → l.count a ≤ 1) → l.eraseDups.filter p = l.filter p
  | [], _ => rfl
  | a :: l, h => by
      have hrest : ∀ b, p b = true → (l.filter fun b => !(b == a)).count b ≤ 1 := by
        intro b hb
        have hle := h b hb
        have hsub := (List.filter_sublist (p := fun b => !(b == a)) (l := l)).count_le b
        rw [List.count_cons] at hle
        omega
      rw [List.eraseDups_cons, List.filter_cons, List.filter_cons, filter_eraseDups _ hrest,
        List.filter_filter]
      have hsame : (l.filter fun b => p b && !(b == a)) = l.filter p := by
        refine List.filter_congr fun b hb => ?_
        by_cases hba : b = a
        · subst hba
          cases hp : p b with
          | false => rfl
          | true =>
              have hle := h b hp
              have hpos := List.count_pos_iff.mpr hb
              rw [List.count_cons_self] at hle
              omega
        · simp [hba]
      rw [hsame]
  termination_by l => l.length
  decreasing_by
    have := List.length_filter_le (fun b => !(b == a)) l
    simp only [List.length_cons]
    omega

/-! ## The batch of a seal -/

section Batch

variable {env : Env} {s : WriterState} {source_id : Int} {uuid : Option String} {max_rows : Nat}

/-- What encoding one stream adds to a batch where the encoder honours its contract. -/
def encodedStream (env : Env) (s : WriterState) (source_id : Int) (uuid : Option String)
    (max_rows : Nat) (acc : Batch) (stream : String) : Batch :=
  let parts := partsOf env s source_id uuid max_rows stream
  match parts.getLast?.bind fun tail =>
    (s.db.liveWal source_id stream).reverse.find? (·.ts = tail.last_ts) with
  | none => acc
  | some r => (acc.1 ++ numbered stream (nextSeq s.mem source_id stream) parts, observe acc.2 r)

/-- The whole batch. -/
def encodedBatch (env : Env) (s : WriterState) (source_id : Int) (uuid : Option String)
    (max_rows : Nat) (batch : List String) : Batch :=
  batch.foldl (encodedStream env s source_id uuid max_rows) ([], none)

/-- Whether the encoder makes a segment of a stream's live rows. -/
def makesSegments (env : Env) (s : WriterState) (source_id : Int) (uuid : Option String)
    (max_rows : Nat) (stream : String) : Bool :=
  !(partsOf env s source_id uuid max_rows stream).isEmpty

/-- A stream that makes no segment adds nothing. -/
theorem encodedStream_skip {acc : Batch} {stream : String}
    (h : makesSegments env s source_id uuid max_rows stream = false) :
    encodedStream env s source_id uuid max_rows acc stream = acc := by
  unfold makesSegments at h
  rw [Bool.not_eq_false', List.isEmpty_iff] at h
  unfold encodedStream
  rw [h]
  rfl

/-- **Repeats of names that make no segments change nothing.** -/
theorem encodedBatch_eraseDups {batch : List String}
    (h : ∀ stream, 1 < batch.count stream →
      makesSegments env s source_id uuid max_rows stream = false) :
    encodedBatch env s source_id uuid max_rows batch.eraseDups =
      encodedBatch env s source_id uuid max_rows batch := by
  have hskip : ∀ batch : List String, encodedBatch env s source_id uuid max_rows batch =
      (batch.filter (makesSegments env s source_id uuid max_rows)).foldl
        (encodedStream env s source_id uuid max_rows) ([], none) := by
    intro batch
    unfold encodedBatch
    rw [List.foldl_filter]
    congr 1
    funext acc stream
    split
    · rfl
    · rename_i hmakes
      exact encodedStream_skip (by simpa using hmakes)
  rw [hskip, hskip batch, filter_eraseDups batch]
  intro stream hmakes
  by_contra hcount
  rw [h stream (not_le.mp hcount)] at hmakes
  exact absurd hmakes (by simp)

variable (hh : env.encoder.Honours)
include hh

/-- The parts of a stream, and the row that the last of them ends at. -/
theorem partsOf_honours (stream : String) :
    splitSeal env.encoder ⟨source_id, uuid, stream⟩ (s.db.liveWal source_id stream) max_rows =
        .ok (partsOf env s source_id uuid max_rows stream) ∧
      ∀ tail, (partsOf env s source_id uuid max_rows stream).getLast? = some tail →
        ∃ r, (s.db.liveWal source_id stream).reverse.find? (·.ts = tail.last_ts) = some r := by
  have hasc := s.db.liveWal_ascending source_id stream
  obtain ⟨parts, hparts⟩ := hh.splitSeal_ok ⟨source_id, uuid, stream⟩ hasc max_rows
  have hof : partsOf env s source_id uuid max_rows stream = parts := by
    unfold partsOf
    rw [hparts]
  rw [hof]
  refine ⟨hparts, fun tail htail => ?_⟩
  obtain ⟨r, hr, hts⟩ := hh.splitSeal_last ⟨source_id, uuid, stream⟩ hasc hparts htail
  refine Option.isSome_iff_exists.mp (List.find?_isSome.mpr ⟨r, List.mem_reverse.mpr hr, ?_⟩)
  exact decide_eq_true hts

theorem goes_encodeStream (acc : Batch) (stream : String) :
    Prog.Goes (encodeStream env source_id uuid max_rows acc stream) s
      (fun acc' s' => acc' = encodedStream env s source_id uuid max_rows acc stream ∧ s = s')
      fun _ _ => False := by
  obtain ⟨hparts, hlast⟩ := @partsOf_honours env s source_id uuid max_rows hh stream
  unfold encodeStream
  refine Prog.Goes.bind (goes_query (f := fun a => .ok (a.liveWal source_id stream)) rfl) ?_
  rintro _ s ⟨rfl, rfl⟩
  split
  · rename_i hempty
    refine .bind (goes_query (f := fun a => .ok (a.readSegments source_id stream)) rfl) ?_
    rintro _ s ⟨rfl, rfl⟩
    have hnil : s.db.liveWal source_id stream = [] := List.isEmpty_iff.mp hempty
    refine .pure ⟨(encodedStream_skip ?_).symm, rfl⟩
    unfold makesSegments partsOf
    rw [hnil, splitSeal_nil]
    rfl
  · rw [hparts]
    refine .bind (Prog.Goes.lift (Q := fun parts s' =>
      parts = partsOf env s source_id uuid max_rows stream ∧ s = s') (fun parts h => ?_) nofun) ?_
    · exact ⟨(Except.ok.inj h).symm, rfl⟩
    · rintro _ s ⟨rfl, rfl⟩
      unfold encodedStream
      dsimp only
      rcases htail : (partsOf env s source_id uuid max_rows stream).getLast? with _ | tail
      · exact .pure ⟨rfl, rfl⟩
      · obtain ⟨r, hr⟩ := hlast tail htail
        simp only [hr, Option.bind_some]
        refine .bind goes_remembered ?_
        rintro _ s ⟨rfl, rfl⟩
        exact .pure ⟨rfl, rfl⟩

theorem encodedBatch_plan (batch : List String) : SealPlan env s source_id batch
    (encodedBatch env s source_id uuid max_rows batch).1 (partsOf env s source_id uuid max_rows) := by
  have hone : ∀ acc stream, (encodedStream env s source_id uuid max_rows acc stream).1 =
      acc.1 ++ numbered stream (nextSeq s.mem source_id stream)
        (partsOf env s source_id uuid max_rows stream) := by
    intro acc stream
    obtain ⟨-, hlast⟩ := @partsOf_honours env s source_id uuid max_rows hh stream
    unfold encodedStream
    dsimp only
    rcases htail : (partsOf env s source_id uuid max_rows stream).getLast? with _ | tail
    · rw [List.getLast?_eq_none_iff.mp htail, numbered_nil, List.append_nil]
      rfl
    · obtain ⟨r, hr⟩ := hlast tail htail
      rw [Option.bind_some, hr]
  have hfold : ∀ (batch : List String) (acc : Batch),
      (batch.foldl (encodedStream env s source_id uuid max_rows) acc).1 =
        acc.1 ++ batch.flatMap fun stream => numbered stream (nextSeq s.mem source_id stream)
          (partsOf env s source_id uuid max_rows stream) := by
    intro batch
    induction batch with
    | nil => exact fun acc => (List.append_nil _).symm
    | cons stream batch ih =>
        intro acc
        rw [List.foldl_cons, ih, hone, List.flatMap_cons, List.append_assoc]
  exact ⟨fun stream => ⟨uuid, partsOf_sealOf stream⟩, hfold batch ([], none)⟩

/-- What a seal prunes of a file, segment by segment. -/
def prunedBy (source_id : Int) (es : List Encoded) (a : Archive) : Archive :=
  es.foldl (fun a e => a.pruneWal source_id e.stream e.seg_meta.last_ts) a

omit hh in
theorem goes_prunes (es : List Encoded) :
    Prog.Goes (Prog.forEach (fun e => commit (.pruneWal source_id e.stream e.seg_meta.last_ts)) es) s
      (fun _ s' => s'.db = prunedBy source_id es s.db ∧ s'.mem = s.mem) fun _ _ => False := by
  refine Prog.Goes.forEach (I := fun (rest : List Encoded) (s' : WriterState) =>
    prunedBy source_id rest s'.db = prunedBy source_id es s.db ∧ s'.mem = s.mem) ?_ ⟨rfl, rfl⟩
  rintro e rest t ⟨hdb, hmem⟩
  refine (goes_commit_ok (w := .pruneWal source_id e.stream e.seg_meta.last_ts) rfl).mono ?_
    fun _ _ h => h
  rintro _ t' ⟨hdb', hmem'⟩
  refine ⟨?_, hmem'.trans hmem⟩
  rw [← hdb, hdb']
  rfl

omit hh in
theorem insertEncoded_succeeds {a : Archive} {e : Encoded} {cols : SourceCols}
    (hsource : a.sources.get? source_id = some cols)
    (hnew : (a.catalog (streamKey source_id e.stream)).get? e.seq = none) :
    ∃ b, Archive.insertEncoded source_id a e = .ok b := by
  have hnone : (a.segments.get? (toLex (streamKey source_id e.stream, e.seq))).isSome ≠ true := by
    rw [← OrdMap.get?_group]
    unfold Archive.catalog at hnew
    rw [hnew]
    exact Bool.false_ne_true
  unfold Archive.insertEncoded Archive.insertSegment
  dsimp only
  rw [if_neg hnone, Archive.checkSource_of_some hsource]
  cases a.layout <;> exact ⟨_, rfl⟩

omit hh in
/-- Segments at fresh `seq`s of a source that is there are inserted. -/
theorem Archive.Fresh.insert_ok {cols : SourceCols} : ∀ {encoded : List Encoded} {a : Archive},
    a.Fresh source_id encoded → a.sources.get? source_id = some cols →
      ∃ b, encoded.foldlM (Archive.insertEncoded source_id) a = .ok b ∧
        b.sources.get? source_id = some cols
  | [], a, _, hsource => ⟨a, rfl, hsource⟩
  | e :: es, a, hfresh, hsource => by
      have hfree := hfresh.free _ (Archive.entry a.layout e)
        (by rw [Archive.entries_cons, if_pos rfl]; exact List.mem_cons_self)
      obtain ⟨b, hb⟩ := insertEncoded_succeeds hsource hfree
      have hsources : b.sources = a.sources := by rw [(Archive.insertSegment_ok hb).2]
      obtain ⟨c, hc, hcs⟩ := (hfresh.tail hb).insert_ok (hsources ▸ hsource)
      exact ⟨c, Except.foldlM_cons_eq_ok.mpr ⟨b, hb, hc⟩, hcs⟩

omit hh in
/-- **A seal is only ever refused by a constraint.** -/
theorem seal_constraint {a : Archive} {batch : List String} {encoded : List Encoded}
    {observation : Option (Int64 × Int64)} {e : Error}
    (h : (Write.seal source_id batch encoded observation).apply a = .error e) :
    e.isConstraint = true := by
  have hencoded : ∀ (encoded : List Encoded) (a : Archive),
      encoded.foldlM (Archive.insertEncoded source_id) a = .error e → e.isConstraint = true := by
    intro encoded
    induction encoded with
    | nil => exact fun _ h => absurd h (by simp [pure, Except.pure])
    | cons x encoded ih =>
        intro a h
        rcases Except.foldlM_cons_eq_error.mp h with h | ⟨b, -, h⟩
        · exact insertSegment_constraint h
        · exact ih b h
  rcases Except.bind_eq_error.mp h with h | ⟨b, -, h⟩
  · exact hencoded encoded a h
  · cases observation with
    | none => exact absurd h Except.pure_ne_error
    | some o => exact insertClockOffset_constraint h

/-- **A seal inserts its batch and prunes, or a constraint refuses it.** -/
theorem goes_sealBatch {cols : SourceCols} (hsource : s.db.sources.get? source_id = some cols)
    {batch : List String} {encoded : List Encoded} {observation : Option (Int64 × Int64)}
    (hbatch : encodedBatch env s source_id cols.uuid max_rows batch = (encoded, observation)) :
    Prog.Goes (sealBatch env source_id batch max_rows) s
      (fun _ s' => ∃ db, (Write.seal source_id batch encoded observation).apply s.db = .ok db ∧
        s'.db = prunedBy source_id (lastParts encoded) db ∧
        s'.mem = sealed source_id s.mem encoded)
      fun e _ => e.isConstraint = true ∧
        (Write.seal source_id batch encoded observation).apply s.db = .error e := by
  have huuid : s.db.sourceUuid source_id = .ok cols.uuid := by
    unfold Archive.sourceUuid
    rw [hsource]
  unfold sealBatch
  refine Prog.Goes.bind (goes_query huuid) ?_
  rintro _ s ⟨rfl, rfl⟩
  refine .bind ((Prog.Goes.foldEach_foldl (goes_encodeStream hh) batch ([], none)).mono
    (fun _ _ h => h) fun _ _ h => h.elim) ?_
  rintro ⟨encoded', observation'⟩ s ⟨heq, rfl⟩
  obtain ⟨rfl, rfl⟩ := Prod.mk.inj (heq.trans hbatch)
  refine .bind (Q := fun _ s' => ∃ db,
    (Write.seal source_id batch encoded' observation').apply s.db = .ok db ∧
      s'.db = db ∧ s'.mem = s.mem) (goes_commit (fun db hdb => ?_) fun e he => ?_) ?_
  · exact ⟨db, hdb, run_db_of_ok hdb, rfl⟩
  · exact ⟨seal_constraint he, he⟩
  · rintro _ s' ⟨db, hdb, hs', hmem⟩
    refine .bind (.update (Q := fun _ t => t.db = db ∧ t.mem = sealed source_id s.mem encoded')
      ⟨hs', by rw [← hmem]⟩) ?_
    rintro _ t ⟨ht, htmem⟩
    refine (goes_prunes _).mono ?_ fun _ _ h => h.elim
    rintro _ t' ⟨ht', htmem'⟩
    exact ⟨db, hdb, by rw [ht', ht], htmem'.trans htmem⟩

/-- **The transaction of a seal goes through exactly when no name that is there twice makes a
segment.** -/
theorem seal_applies_iff (hnumbered : Numbered s) {cols : SourceCols}
    (hsource : s.db.sources.get? source_id = some cols) (batch : List String) :
    (∃ db, (Write.seal source_id batch (encodedBatch env s source_id uuid max_rows batch).1
        (encodedBatch env s source_id uuid max_rows batch).2).apply s.db = .ok db) ↔
      ∀ stream, 1 < batch.count stream →
        makesSegments env s source_id uuid max_rows stream = false := by
  have hfresh := (@encodedBatch_plan env s source_id uuid max_rows hh batch).fresh_iff hnumbered
  have hparts : ∀ stream, makesSegments env s source_id uuid max_rows stream = false ↔
      partsOf env s source_id uuid max_rows stream = [] := by
    intro stream
    unfold makesSegments
    rw [Bool.not_eq_false', List.isEmpty_iff]
  simp only [hparts]
  rw [← hfresh]
  constructor
  · rintro ⟨db, hdb⟩
    obtain ⟨b, hsealed, -⟩ := seal_apply_ok hdb
    exact hsealed.fresh
  · intro h
    obtain ⟨b, hb, hbs⟩ := h.insert_ok hsource
    rcases hobs : (encodedBatch env s source_id uuid max_rows batch).2 with _ | ⟨ts, offset⟩
    · exact ⟨b, Except.bind_eq_ok.mpr ⟨b, hb, rfl⟩⟩
    · obtain ⟨c, hc⟩ := insertClockOffset_ok ts offset hbs
      exact ⟨c, Except.bind_eq_ok.mpr ⟨b, hb, hc⟩⟩

end Batch

/-! ## The message -/

section Seal

variable {env : Env} {s : WriterState} {source_id : Int} {max_rows : Nat}

/-- Which names leave the deferred list does not depend on repeats. -/
theorem undeferBatch_eraseDups (source_id : Int) (batch : List String)
    (deferred : OrdMap StreamKey Nat) :
    undeferBatch source_id batch.eraseDups deferred = undeferBatch source_id batch deferred := by
  have hget : ∀ (batch : List String) (deferred : OrdMap StreamKey Nat) (k : StreamKey),
      (undeferBatch source_id batch deferred).get? k =
        if k ∈ batch.map (streamKey source_id) then none else deferred.get? k := by
    intro batch
    induction batch with
    | nil => exact fun deferred k => (if_neg List.not_mem_nil).symm
    | cons stream batch ih =>
        intro deferred k
        have hstep := ih (deferred.erase (streamKey source_id stream)) k
        unfold undeferBatch at hstep ⊢
        rw [List.foldl_cons, hstep, OrdMap.get?_erase, List.map_cons]
        by_cases hk : k = streamKey source_id stream <;> simp [hk]
  refine OrdMap.ext_get? fun k => ?_
  rw [hget, hget]
  simp only [List.mem_map, List.mem_eraseDups]

/-- The message seals and leaves this file and these caches. -/
def SealsTo (env : Env) (s : WriterState) (source_id : Int) (batch : List String) (max_rows : Nat)
    (db : Archive) (mem : Caches) : Prop :=
  ∃ s', handle env (.seal source_id batch max_rows) s [] = (.ok .done, s', []) ∧ s'.db = db ∧
    s'.mem = mem

theorem goes_seal (hh : env.encoder.Honours) {cols : SourceCols}
    (hsource : s.db.sources.get? source_id = some cols) {batch : List String}
    {encoded : List Encoded} {observation : Option (Int64 × Int64)}
    (hbatch : encodedBatch env s source_id cols.uuid max_rows batch = (encoded, observation)) :
    Prog.Goes (handle env (.seal source_id batch max_rows)) s
      (fun r s' => r = .done ∧ ∃ db,
        (Write.seal source_id batch encoded observation).apply s.db = .ok db ∧
        s'.db = prunedBy source_id (lastParts encoded) db ∧
        s'.mem = { sealed source_id s.mem encoded with
          deferred := undeferBatch source_id batch (sealed source_id s.mem encoded).deferred })
      fun _ _ => ∃ e, (Write.seal source_id batch encoded observation).apply s.db = .error e := by
  have hbatch' := goes_sealBatch hh hsource hbatch
  unfold handle handleSeal
  refine Prog.Goes.bind (Q := fun _ s' => ∃ db,
    (Write.seal source_id batch encoded observation).apply s.db = .ok db ∧
      s'.db = prunedBy source_id (lastParts encoded) db ∧
      s'.mem = { sealed source_id s.mem encoded with
        deferred := undeferBatch source_id batch (sealed source_id s.mem encoded).deferred }) ?_ ?_
  · refine Prog.Goes.bind (Q := fun r s' => (r = .ok () ∧ ∃ db,
      (Write.seal source_id batch encoded observation).apply s.db = .ok db ∧
        s'.db = prunedBy source_id (lastParts encoded) db ∧
        s'.mem = sealed source_id s.mem encoded) ∨
      ∃ e, r = .error e ∧ e.isConstraint = true ∧
        (Write.seal source_id batch encoded observation).apply s.db = .error e) ?_ ?_
    · exact (Prog.Goes.retry hbatch' (fun e _ h => Error.isConstraint_not_isRetryable h.1) 3).attempt
        (fun _ _ h => .inl ⟨rfl, h⟩) fun e _ h => .inr ⟨e, rfl, h⟩
    · rintro _ s' (⟨rfl, db, hdb, hs', hmem⟩ | ⟨e, rfl, hconstraint, he⟩)
      · exact .update ⟨db, hdb, hs', by rw [← hmem]⟩
      · dsimp only
        rw [if_neg (by rw [Error.isConstraint_not_isRetryable hconstraint]; exact Bool.false_ne_true)]
        exact .fail ⟨e, he⟩
  · rintro _ s' h
    exact .pure ⟨rfl, h⟩

/-- A seal whose transaction goes through succeeds, and what it leaves depends on its batch only. -/
theorem sealsTo_of_ok (hh : env.encoder.Honours) {cols : SourceCols}
    (hsource : s.db.sources.get? source_id = some cols) {batch : List String} {B : Batch}
    (hbatch : encodedBatch env s source_id cols.uuid max_rows batch = B) {db : Archive}
    (hdb : (Write.seal source_id batch B.1 B.2).apply s.db = .ok db) :
    SealsTo env s source_id batch max_rows (prunedBy source_id (lastParts B.1) db)
      { sealed source_id s.mem B.1 with
        deferred := undeferBatch source_id batch (sealed source_id s.mem B.1).deferred } := by
  rcases goes_seal hh hsource hbatch with
    ⟨_, s', hrun, rfl, db', hdb', hs', hmem⟩ | ⟨_, _, _, e, he⟩
  · obtain rfl : db' = db := Except.ok.inj (hdb'.symm.trans hdb)
    exact ⟨s', hrun, hs', hmem⟩
  · exact absurd (he.symm.trans hdb) (by simp)

/-- A seal that succeeds committed its transaction. -/
theorem SealsTo.applies (hh : env.encoder.Honours) {cols : SourceCols}
    (hsource : s.db.sources.get? source_id = some cols) {batch : List String} {db : Archive}
    {mem : Caches} (h : SealsTo env s source_id batch max_rows db mem) : ∃ db',
      (Write.seal source_id batch (encodedBatch env s source_id cols.uuid max_rows batch).1
        (encodedBatch env s source_id cols.uuid max_rows batch).2).apply s.db = .ok db' := by
  obtain ⟨s', hrun, -, -⟩ := h
  rcases @goes_seal env s source_id max_rows hh cols hsource batch _ _ rfl with
    ⟨_, _, _, -, db', hdb', -⟩ | ⟨e, s'', hrun', -⟩
  · exact ⟨db', hdb'⟩
  · exact absurd (congrArg Prod.fst (hrun.symm.trans hrun')) (by simp)

/-- **A seal over repeated names is the seal over distinct ones exactly when no repeated name
makes a segment.** For any file and whatever happened to it since a thread opened it: a name
that is there twice and whose live rows make a segment stops the writer, and any other name can
be repeated. -/
theorem seal_repeats_iff (disk : Disk) (events : List Event) {m : Caches}
    (hm : ((World.opened disk).run events).mem = some m) (env : Env) (hh : env.encoder.Honours)
    (source_id : Int) {cols : SourceCols}
    (hsource : ((World.opened disk).run events).disk.db.sources.get? source_id = some cols)
    (batch : List String) (max_rows : Nat) :
    let s : WriterState := { disk := ((World.opened disk).run events).disk, mem := m }
    (∃ db mem, SealsTo env s source_id batch max_rows db mem ∧
        SealsTo env s source_id batch.eraseDups max_rows db mem) ↔
      ∀ stream, 1 < batch.count stream →
        splitSeal env.encoder ⟨source_id, cols.uuid, stream⟩ (s.db.liveWal source_id stream)
          max_rows = .ok [] := by
  intro s
  have hmakes : ∀ stream, splitSeal env.encoder ⟨source_id, cols.uuid, stream⟩
      (s.db.liveWal source_id stream) max_rows = .ok [] ↔
        makesSegments env s source_id cols.uuid max_rows stream = false := by
    intro stream
    unfold makesSegments
    rw [(@partsOf_honours env s source_id cols.uuid max_rows hh stream).1, Bool.not_eq_false',
      List.isEmpty_iff]
    exact ⟨Except.ok.inj, congrArg _⟩
  have happlies := @seal_applies_iff env s source_id cols.uuid max_rows hh
    (numbered_run disk events hm) cols hsource batch
  simp only [hmakes]
  constructor
  · rintro ⟨db, mem, hseal, -⟩
    exact happlies.mp (hseal.applies hh hsource)
  · intro h
    obtain ⟨db, hdb⟩ := happlies.mpr h
    have hdistinct := sealsTo_of_ok hh hsource (encodedBatch_eraseDups h) hdb
    rw [undeferBatch_eraseDups] at hdistinct
    exact ⟨_, _, sealsTo_of_ok hh hsource rfl hdb, hdistinct⟩

end Seal

/-! ### A name that is there twice -/

theorem oneRow_honours (r : WalRow) : (oneRow r).Honours where
  answers ctx before rows _ := by
    unfold SegmentEncoder.answer oneRow
    dsimp only
    split
    · split <;> exact ⟨_, rfl⟩
    · exact ⟨_, rfl⟩
  spans ctx before rows s _ h := by
    unfold SegmentEncoder.answer oneRow at h
    dsimp only at h
    split at h
    · split at h
      · rename_i hrows
        injection h with h
        obtain rfl := Option.some.inj h
        exact ⟨[], [r], [], by simpa using hrows, rfl, rfl, rfl⟩
      · injection h with h
        exact absurd h (by simp)
    · injection h with h
      exact absurd h (by simp)

/-- One row of a stream that has never sealed. -/
def cpuAtFive : WalRow := { stream := "cpu", ts := 5, wall_offset := 0, row := [1] }

/-- A source with the one row. -/
def oneRowRun : List Event :=
  [.message Env.idle (.addSource { labels := ∅, metadata := ∅, clock_anchor_wall_ns := 0 } none) [],
    .message Env.idle (.wal [(1, [cpuAtFive])]) []]

/-- The thread that took the row. -/
def oneRowState : WriterState :=
  let w := (World.opened (.create .table)).run oneRowRun
  { disk := w.disk, mem := w.mem.getD (.seed w.disk.db) }

theorem seal_repeats_iff_cpu : ∃ db mem,
    SealsTo { Env.idle with encoder := oneRow cpuAtFive } oneRowState 1 ["cpu", "mem", "mem"] 10
        db mem ∧
      SealsTo { Env.idle with encoder := oneRow cpuAtFive } oneRowState 1
        ["cpu", "mem", "mem"].eraseDups 10 db mem := by
  refine (seal_repeats_iff (.create .table) oneRowRun rfl _ (oneRow_honours cpuAtFive) 1 rfl
    ["cpu", "mem", "mem"] 10).mpr fun stream hcount => ?_
  have hmem : stream = "mem" := by
    by_contra hne
    rw [List.count_cons, List.count_cons_of_ne (Ne.symm hne), List.count_cons_of_ne (Ne.symm hne),
      List.count_nil] at hcount
    split at hcount <;> omega
  subst hmem
  rfl

/-- A seal that names the stream twice stops the writer; the seal that names it once does not. -/
theorem seal_repeated_name_fails :
    (oneRow cpuAtFive).Honours ∧
      (∃ db mem, SealsTo { Env.idle with encoder := oneRow cpuAtFive } oneRowState 1 ["cpu"] 10
        db mem) ∧
      ¬ ∃ db mem, SealsTo { Env.idle with encoder := oneRow cpuAtFive } oneRowState 1
        ["cpu", "cpu"] 10 db mem := by
  refine ⟨oneRow_honours cpuAtFive, ⟨_, _, _, rfl, rfl, rfl⟩, ?_⟩
  rintro ⟨db, mem, s', hrun, -⟩
  have hrefused : ∃ e s'', handle { Env.idle with encoder := oneRow cpuAtFive }
      (.seal 1 ["cpu", "cpu"] 10) oneRowState [] = (.err e, s'', []) := ⟨_, _, rfl⟩
  obtain ⟨e, s'', he⟩ := hrefused
  exact absurd (congrArg Prod.fst (hrun.symm.trans he)) (by simp)

end Dendro
