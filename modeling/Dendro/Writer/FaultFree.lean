import Dendro.Writer.Steps

/-!
# What a message does when no call fails

`handle_runs` says what any run of a handler can do, and so nothing about whether it succeeds.
Here is what the handlers of the messages a subscriber sends leave behind where every call goes
through: a source is added under a new id with the identity it was given, a change of identity
keeps what the writer maintains, and no row refused by a constraint stops the thread.
-/

namespace Dendro

open WriterM

/-! ## Refusals -/

namespace Archive

theorem checkSource_constraint {a : Archive} {context : String} {source_id : Int} {e : Error}
    (h : a.checkSource context source_id = .error e) : e.isConstraint = true := by
  unfold checkSource at h
  split at h
  · exact absurd h (by simp)
  · obtain rfl := Except.error.inj h
    rfl

theorem checkSource_of_some {a : Archive} {context : String} {source_id : Int} {cols : SourceCols}
    (h : a.sources.get? source_id = some cols) : a.checkSource context source_id = .ok () := by
  unfold checkSource
  rw [h]
  rfl

theorem insertWalRow_constraint {a : Archive} {source_id : Int} {r : WalRow} {e : Error}
    (h : insertWalRow source_id a r = .error e) : e.isConstraint = true := by
  unfold insertWalRow at h
  dsimp only at h
  split at h
  · obtain rfl := Except.error.inj h
    rfl
  · rcases Except.bind_eq_error.mp h with h | ⟨_, -, h⟩
    · exact checkSource_constraint h
    · exact absurd h Except.pure_ne_error

/-- **A tick is only ever refused by a constraint.** -/
theorem insertWalRowsBatch_constraint : ∀ {ticks : List (Int × List WalRow)} {a : Archive}
    {e : Error}, insertWalRowsBatch ticks a = .error e → e.isConstraint = true
  | [], _, _, h => absurd h (by simp [insertWalRowsBatch, pure, Except.pure])
  | t :: ticks, a, e, h => by
      have hrows : ∀ (rows : List WalRow) (a : Archive), insertWalRows t.1 rows a = .error e →
          e.isConstraint = true := by
        intro rows
        induction rows with
        | nil => exact fun _ h => absurd h (by simp [insertWalRows, pure, Except.pure])
        | cons r rows ih =>
            intro a h
            rcases Except.foldlM_cons_eq_error.mp h with h | ⟨b, -, h⟩
            · exact insertWalRow_constraint h
            · exact ih b h
      rcases Except.foldlM_cons_eq_error.mp h with h | ⟨b, -, h⟩
      · exact hrows t.2 a h
      · exact insertWalRowsBatch_constraint h

/-! ## Source rows -/

theorem nextSourceId_fresh (a : Archive) : a.sources.get? a.nextSourceId = none := by
  rw [OrdMap.get?_eq_none]
  intro v hv
  have hkey : a.nextSourceId ∈ a.sources.keys := List.mem_map.mpr ⟨_, hv, rfl⟩
  unfold nextSourceId at hkey
  rcases hmax : a.sources.keys.max? with _ | m
  · rw [List.max?_eq_none_iff] at hmax
    exact absurd hkey (by simp [hmax])
  · have hle := (List.max?_eq_some_iff.mp hmax).2 _ hkey
    rw [hmax, Option.getD_some] at hle
    omega

theorem get?_updateSource (a : Archive) (source_id id : Int) (f : SourceCols → SourceCols) :
    (a.updateSource source_id f).sources.get? id =
      if id = source_id then (a.sources.get? id).map f else a.sources.get? id := by
  unfold updateSource
  split
  · rename_i cols hcols
    rw [OrdMap.get?_insert]
    split
    · rename_i hid
      rw [hid, hcols]
      rfl
    · rfl
  · rename_i hnone
    split
    · rename_i hid
      rw [hid, hnone]
      rfl
    · rfl

/-- `a` is `a₀` but for the row of one source, of which `P` holds. -/
structure RowAt (a₀ : Archive) (id : Int) (P : SourceCols → Prop) (a : Archive) : Prop where
  frame : a = { a₀ with sources := a.sources }
  others : ∀ id' ≠ id, a.sources.get? id' = a₀.sources.get? id'
  row : ∃ cols, a.sources.get? id = some cols ∧ P cols

section RowAt

variable {a₀ a : Archive} {id : Int} {P P' : SourceCols → Prop}

theorem RowAt.refl {cols : SourceCols} (h : a.sources.get? id = some cols) :
    RowAt a id (· = cols) a := ⟨rfl, fun _ _ => rfl, cols, h, rfl⟩

theorem RowAt.mono (h : RowAt a₀ id P a) (hP : ∀ cols, P cols → P' cols) : RowAt a₀ id P' a := by
  obtain ⟨cols, hcols, hp⟩ := h.row
  exact ⟨h.frame, h.others, cols, hcols, hP cols hp⟩

theorem RowAt.updateSource {f : SourceCols → SourceCols} (h : RowAt a₀ id P a)
    (hf : ∀ cols, P cols → P' (f cols)) : RowAt a₀ id P' (a.updateSource id f) where
  frame := by
    rw [updateSource_tables, h.frame]
  others id' hne := by
    rw [get?_updateSource, if_neg hne]
    exact h.others id' hne
  row := by
    obtain ⟨cols, hcols, hp⟩ := h.row
    refine ⟨f cols, ?_, hf cols hp⟩
    rw [get?_updateSource, if_pos rfl, hcols]
    rfl

theorem RowAt.updateSourceOrFail {f : SourceCols → SourceCols} (h : RowAt a₀ id P a) :
    a.updateSourceOrFail id f = .ok (a.updateSource id f) := by
  obtain ⟨cols, hcols, -⟩ := h.row
  unfold Archive.updateSourceOrFail
  rw [hcols]
  rfl

end RowAt

end Archive

/-! ## Calls that go through -/

section Calls

variable {s : WriterState} {α : Type}

theorem run_db_of_ok {w : Write} {db : Archive} (h : w.apply s.db = .ok db) : (s.run w).db = db := by
  rw [run_of_ok h]

theorem run_db_of_error {w : Write} {e : Error} (h : w.apply s.db = .error e) :
    (s.run w).db = s.db := by
  rw [run_of_error h]

theorem goes_query {f : Archive → Except Error α} {a : α} (h : f s.db = .ok a)
    {E : Error → WriterState → Prop} :
    Prog.Goes (query f) s (fun a' s' => a' = a ∧ s' = s) E := by
  refine .read (fun a' ha' => ⟨?_, rfl⟩) fun e he => ?_
  · rw [h] at ha'
    exact (Except.ok.inj ha').symm
  · rw [h] at he
    exact absurd he (by simp)

theorem goes_remembered {E : Error → WriterState → Prop} :
    Prog.Goes remembered s (fun m s' => m = s.mem ∧ s = s') E := by
  unfold remembered
  refine Prog.Goes.bind (.state (Q := fun t s' => s = t ∧ s = s') ⟨rfl, rfl⟩) ?_
  rintro _ s ⟨rfl, rfl⟩
  exact .pure ⟨rfl, rfl⟩

theorem goes_commit {w : Write} {Q : Unit → WriterState → Prop} {E : Error → WriterState → Prop}
    (hok : ∀ db, w.apply s.db = .ok db → Q () (s.run w))
    (herr : ∀ e, w.apply s.db = .error e → E e (s.run w)) : Prog.Goes (commit w) s Q E := by
  refine .call (fun _ s' h => ?_) fun e s' h => ?_
  · obtain ⟨rfl, ⟨db, ha, -⟩ | ⟨e, -, he⟩⟩ := commit_cases h
    · exact hok db ha
    · exact absurd he (by simp)
  · obtain ⟨rfl, ⟨db, -, hr⟩ | ⟨e', ha, hr⟩⟩ := commit_cases h
    · exact absurd hr (by simp)
    · obtain rfl := Except.error.inj hr
      exact herr e ha

/-- A transaction that no constraint refuses. -/
theorem goes_commit_ok {w : Write} {db : Archive} (h : w.apply s.db = .ok db)
    {E : Error → WriterState → Prop} :
    Prog.Goes (commit w) s (fun _ s' => s'.db = db ∧ s'.mem = s.mem) E := by
  refine goes_commit (fun db' h' => ?_) fun e he => ?_
  · rw [h] at h'
    obtain rfl := Except.ok.inj h'
    exact ⟨run_db_of_ok h, rfl⟩
  · rw [h] at he
    exact absurd he (by simp)

/-- A message of data whose transaction goes through. -/
theorem goes_commitData {w : Write} {db : Archive} (h : w.apply s.db = .ok db) :
    Prog.Goes (commitData w) s (fun _ s' => s'.db = db ∧ s'.mem.knows = s.mem.knows)
      fun _ _ => False := by
  unfold commitData
  refine Prog.Goes.bind (Q := fun r s' => r = .ok () ∧ s'.db = db ∧ s'.mem = s.mem) ?_ ?_
  · refine Prog.Goes.attempt (E := fun _ _ => False)
      (Prog.Goes.retry (goes_commit_ok h) (fun _ _ h => h.elim) 3) (fun _ _ h' => ⟨rfl, h'⟩)
      fun _ _ h' => h'.elim
  · rintro _ s' ⟨rfl, hdb, hmem⟩
    exact .update ⟨hdb, by rw [← hmem]; rfl⟩

end Calls

/-! ## Rows, entries and observations -/

section Data

variable {s : WriterState} {env : Env}

theorem insertCallerRows_ok {a : Archive} {source_id : Int} {cols : SourceCols} (stream : String)
    (rows : List CallerRow) (h : a.sources.get? source_id = some cols) :
    ∃ a', a.insertCallerRows source_id stream rows = .ok a' := by
  unfold Archive.insertCallerRows
  rw [Archive.checkSource_of_some h]
  split
  · exact ⟨_, rfl⟩
  · exact ⟨_, rfl⟩

/-- An entry for a source that is there is stored, whatever it is. -/
theorem goes_callerRows {source_id : Int} {cols : SourceCols} (stream : String)
    (rows : List CallerRow) (h : s.db.sources.get? source_id = some cols) :
    Prog.Goes (handle env (.callerRows source_id stream rows)) s
      (fun _ s' => s.db.insertCallerRows source_id stream rows = .ok s'.db ∧
        s'.mem.knows = s.mem.knows) fun _ _ => False := by
  obtain ⟨a', ha'⟩ := insertCallerRows_ok stream rows h
  unfold handle
  refine (goes_commitData (w := .callerRows source_id stream rows) ha').bind fun _ s' h' => ?_
  exact .pure ⟨by rw [ha', h'.1], h'.2⟩

theorem insertClockOffset_constraint {a : Archive} {source_id : Int} {ts offset : Int64} {e : Error}
    (h : a.insertClockOffset source_id ts offset = .error e) : e.isConstraint = true := by
  unfold Archive.insertClockOffset at h
  dsimp only at h
  split at h
  · exact absurd h (by simp [pure, Except.pure])
  · rcases Except.bind_eq_error.mp h with h | ⟨_, -, h⟩
    · exact Archive.checkSource_constraint h
    · exact absurd h Except.pure_ne_error

theorem insertClockOffset_ok {a : Archive} {source_id : Int} {cols : SourceCols} (ts offset : Int64)
    (h : a.sources.get? source_id = some cols) :
    ∃ a', a.insertClockOffset source_id ts offset = .ok a' := by
  unfold Archive.insertClockOffset
  dsimp only
  split
  · exact ⟨_, rfl⟩
  · rw [Archive.checkSource_of_some h]
    exact ⟨_, rfl⟩

/-- An observation for a source that is there is stored. -/
theorem goes_clockOffset {source_id : Int} {cols : SourceCols} (ts offset : Int64)
    (h : s.db.sources.get? source_id = some cols) :
    Prog.Goes (handle env (.clockOffset source_id ts offset)) s
      (fun _ s' => s.db.insertClockOffset source_id ts offset = .ok s'.db ∧
        s'.mem.knows = s.mem.knows) fun _ _ => False := by
  obtain ⟨a', ha'⟩ := insertClockOffset_ok ts offset h
  unfold handle
  refine (goes_commitData (w := .clockOffset source_id ts offset) ha').bind fun _ s' h' => ?_
  exact .pure ⟨by rw [ha', h'.1], h'.2⟩

end Data

/-! ## Ticks -/

/-- What storing one source's part of a tick leaves: the part, or nothing where a constraint
refuses it. -/
def Archive.takePart (a : Archive) (t : Int × List WalRow) : Archive :=
  (insertWalRowsBatch [t] a).toOption.getD a

namespace Archive

variable {a a' : Archive} {t : Int × List WalRow}

theorem insertWalRowsBatch_single (a : Archive) (t : Int × List WalRow) :
    insertWalRowsBatch [t] a = insertWalRows t.1 t.2 a := by
  unfold insertWalRowsBatch
  rw [List.foldlM_cons]
  exact bind_pure _

theorem takePart_of_ok (h : insertWalRowsBatch [t] a = .ok a') : a.takePart t = a' := by
  rw [takePart, h]
  rfl

theorem takePart_of_error {e : Error} (h : insertWalRowsBatch [t] a = .error e) :
    a.takePart t = a := by
  rw [takePart, h]
  rfl

/-- A part is taken whole or not at all. -/
theorem takePart_cases (a : Archive) (t : Int × List WalRow) :
    insertWalRows t.1 t.2 a = .ok (a.takePart t) ∨
      ∃ e, insertWalRows t.1 t.2 a = .error e ∧ a.takePart t = a := by
  rcases h : insertWalRowsBatch [t] a with e | a'
  · refine .inr ⟨e, ?_, takePart_of_error h⟩
    rw [← insertWalRowsBatch_single, h]
  · refine .inl ?_
    rw [takePart_of_ok h, ← insertWalRowsBatch_single, h]

/-- Where the parts fit together, each fits where the ones before it were stored. -/
theorem foldl_takePart_of_ok : ∀ {ticks : List (Int × List WalRow)} {a a' : Archive},
    insertWalRowsBatch ticks a = .ok a' → ticks.foldl takePart a = a'
  | [], _, _, h => Except.ok.inj h
  | t :: ticks, a, a', h => by
      obtain ⟨b, hb, h'⟩ := Except.foldlM_cons_eq_ok.mp h
      rw [← insertWalRowsBatch_single] at hb
      rw [List.foldl_cons, takePart_of_ok hb]
      exact foldl_takePart_of_ok h'

theorem takePart_frame (a : Archive) (t : Int × List WalRow) :
    a.takePart t = { a with wal := (a.takePart t).wal } := by
  rcases takePart_cases a t with h | ⟨e, -, h⟩
  · exact (appended_insertWalRows h).frame
  · rw [h]

theorem foldl_takePart_frame : ∀ (ticks : List (Int × List WalRow)) (a : Archive),
    ticks.foldl takePart a = { a with wal := (ticks.foldl takePart a).wal }
  | [], _ => rfl
  | t :: ticks, a => by
      rw [List.foldl_cons, foldl_takePart_frame ticks (a.takePart t), takePart_frame a t]

end Archive

section Ticks

variable {s : WriterState} {env : Env}

/-- What a transaction of rows left, by how it ended. -/
inductive RowsEnd (ticks : List (Int × List WalRow)) (s : WriterState) :
    Except Error Unit → WriterState → Prop where
  | kept {s' : WriterState} : Archive.insertWalRowsBatch ticks s.db = .ok s'.db →
      s'.mem = s.mem → RowsEnd ticks s (.ok ()) s'
  | refused {s' : WriterState} (e : Error) : e.isConstraint = true →
      Archive.insertWalRowsBatch ticks s.db = .error e → s'.db = s.db → s'.mem = s.mem →
      RowsEnd ticks s (.error e) s'

theorem goes_commitRows (ticks : List (Int × List WalRow)) :
    Prog.Goes (Prog.attempt (withRetries (commit (.walRows ticks)))) s
      (fun r s' => RowsEnd ticks s r s') fun _ _ => False := by
  refine Prog.Goes.attempt (Q := fun _ s' => RowsEnd ticks s (.ok ()) s')
    (E := fun e s' => RowsEnd ticks s (.error e) s') ?_ (fun _ _ h => h) fun _ _ h => h
  refine Prog.Goes.retry (goes_commit (fun db hdb => ?_) fun e he => ?_) (fun e _ h => ?_) 3
  · exact .kept (by rw [run_db_of_ok hdb]; exact hdb) rfl
  · exact .refused e (Archive.insertWalRowsBatch_constraint he) he (run_db_of_error he) rfl
  · obtain _ | ⟨_, hc, -⟩ := h
    exact Error.isConstraint_not_isRetryable hc

theorem goes_commitSource (any : Bool) (t : Int × List WalRow) :
    Prog.Goes (commitSource any t) s (fun _ s' => s'.db = s.db.takePart t ∧ s'.mem = s.mem)
      fun _ _ => False := by
  unfold commitSource
  refine (goes_commitRows [t]).bind fun r s' h => ?_
  cases h with
  | kept hdb hmem => exact .pure ⟨(Archive.takePart_of_ok hdb).symm, hmem⟩
  | refused e hc he hdb hmem =>
      dsimp only
      rw [if_pos hc]
      exact .pure ⟨by rw [hdb, Archive.takePart_of_error he], hmem⟩

/-- What a tick left: every part that fits, and the count of its shadowed rows. -/
structure Ticked (ticks : List (Int × List WalRow)) (s s' : WriterState) : Prop where
  db : s'.db = (admitted s.mem ticks).foldl Archive.takePart s.db
  shadowed : s'.mem.shadowed =
    countShadowed s.mem (ticks.filter fun t => !belowFloor s.mem t)
  knows : s'.mem.knows = s.mem.knows

/-- **A tick stores the parts that fit**, whether they went in together or one by one, and never
stops the thread. -/
theorem goes_commitTick (ticks : List (Int × List WalRow)) :
    Prog.Goes (commitTick ticks) s (fun _ s' => Ticked ticks s s') fun _ _ => False := by
  -- everything but the parts themselves is settled before the first transaction
  let m := { s.mem with
    shadowed := countShadowed s.mem (ticks.filter fun t => !belowFloor s.mem t) }
  have hcommitted : ∀ s₁ : WriterState,
      s₁.db = (admitted s.mem ticks).foldl Archive.takePart s.db → s₁.mem = m →
      Prog.Goes committed s₁ (fun _ s' => Ticked ticks s s') fun _ _ => False := by
    intro s₁ hdb hmem
    refine .update ⟨hdb, ?_, ?_⟩
    · dsimp only
      rw [hmem]
    · dsimp only [Caches.knows]
      rw [hmem]
  unfold commitTick
  refine Prog.Goes.bind (Q := fun m' s' => s.mem = m' ∧ s = s') (.inl ⟨_, _, rfl, rfl, rfl⟩) ?_
  rintro _ _ ⟨rfl, rfl⟩
  refine Prog.Goes.bind (Q := fun _ s' => s'.db = s.db ∧ s'.mem = m) (.update ⟨rfl, rfl⟩) ?_
  rintro _ s₁ ⟨hdb₁, hmem₁⟩
  dsimp only
  split
  · rename_i hempty
    refine .pure ⟨?_, by rw [hmem₁], by rw [hmem₁]; rfl⟩
    rw [List.isEmpty_iff.mp hempty, hdb₁]
    rfl
  · refine (goes_commitRows _).bind fun r s₂ h₂ => ?_
    cases h₂ with
    | kept hdb₂ hmem₂ =>
        refine hcommitted s₂ ?_ (hmem₂.trans hmem₁)
        rw [← hdb₁, Archive.foldl_takePart_of_ok hdb₂]
    | refused e hc _ hdb₂ hmem₂ =>
        -- refused: each source's part of the tick on its own
        dsimp only
        rw [if_pos hc]
        refine (Prog.Goes.foldEach (I := fun rest _ s' => rest.foldl Archive.takePart s'.db =
          (admitted s.mem ticks).foldl Archive.takePart s.db ∧ s'.mem = m) ?_
          ⟨by rw [hdb₂, hdb₁], hmem₂.trans hmem₁⟩).bind fun any s₃ h₃ => ?_
        · intro any t rest s' h'
          refine (goes_commitSource any t).mono (fun _ s'' h'' => ⟨?_, h''.2.trans h'.2⟩)
            fun _ _ h'' => h''
          rw [h''.1]
          exact h'.1
        · split
          · exact hcommitted s₃ h₃.1 h₃.2
          · exact .pure ⟨h₃.1, by rw [h₃.2], by rw [h₃.2]; rfl⟩

/-- Only the WAL changed, and nothing that the thread knows of the file. -/
structure WalOnly (s s' : WriterState) : Prop where
  db : s'.db = { s.db with wal := s'.db.wal }
  knows : s'.mem.knows = s.mem.knows

/-- **A tick never stops the thread**, and adds to the WAL alone. -/
theorem goes_wal (ticks : List (Int × List WalRow)) :
    Prog.Goes (handle env (.wal ticks)) s (fun _ s' => WalOnly s s') fun _ _ => False := by
  unfold handle
  refine (goes_commitTick ticks).bind fun _ s' h => .pure ⟨?_, h.knows⟩
  rw [h.db]
  exact Archive.foldl_takePart_frame _ _

end Ticks

section Data

variable {s : WriterState} {env : Env}

/-! ## Adoption -/

/-- What an adoption left, by what it answered. -/
inductive AdoptEnd (source_id : Int) (segment : Adopted) (s : WriterState) :
    Except Error Bool → WriterState → Prop where
  /-- Every check passed and the segment was inserted. -/
  | inserted {s' : WriterState} : AdoptPlan s source_id segment →
      (Write.adopt source_id segment (nextSeq s.mem source_id segment.stream)).apply s.db
        = .ok s'.db →
      s'.mem = adopted source_id segment (nextSeq s.mem source_id segment.stream) s.mem →
      AdoptEnd source_id segment s (.ok true) s'
  | held {s' : WriterState} : takenForHeld s.mem source_id segment → s'.db = s.db →
      s'.mem = s.mem → AdoptEnd source_id segment s (.ok false) s'
  | refused {s' : WriterState} (e : Error) : s'.db = s.db → s'.mem = s.mem →
      AdoptEnd source_id segment s (.error e) s'

theorem insertSegment_constraint {a : Archive} {source_id : Int} {stream : String} {seq : Nat}
    {m : SegmentMeta} {bytes : Bytes} {ci : Option Bytes} {e : Error}
    (h : a.insertSegment source_id stream seq m bytes ci = .error e) : e.isConstraint = true := by
  unfold Archive.insertSegment at h
  dsimp only at h
  split at h
  · obtain rfl := Except.error.inj h
    rfl
  · rcases Except.bind_eq_error.mp h with h | ⟨_, -, h⟩
    · exact Archive.checkSource_constraint h
    · split at h <;> exact absurd h Except.pure_ne_error

section Adopt

variable {source_id : Int} {segment : Adopted}

theorem goes_adoptInsert (hrows : segment.seg_meta.rows ≠ 0)
    (hspan : segment.seg_meta.first_ts ≤ segment.seg_meta.last_ts)
    (hpast : ∀ w, s.mem.watermarks.get? (streamKey source_id segment.stream) = some w →
      w < segment.seg_meta.first_ts) :
    Prog.Goes (adoptSegment.insert source_id segment s.mem) s
      (fun inserted s' => AdoptEnd source_id segment s (.ok inserted) s')
      fun e s' => e.isRetryable = false ∧ AdoptEnd source_id segment s (.error e) s' := by
  unfold adoptSegment.insert
  refine (goes_query (a := s.db.liveWalSpan source_id segment.stream) rfl).bind ?_
  rintro live s' ⟨rfl, hs⟩
  subst hs
  dsimp only
  split
  · exact .fail ⟨rfl, .refused _ rfl rfl⟩
  · rename_i hnone
    have hplan : AdoptPlan s' source_id segment := by
      refine ⟨hrows, hspan, hpast, fun first hfirst => ?_⟩
      rw [hfirst, Option.filter_some] at hnone
      split at hnone
      · exact absurd hnone (by simp)
      · rename_i hle
        exact not_le.mp (by simpa using hle)
    refine Prog.Goes.bind (Q := fun _ s'' => (Write.adopt source_id segment
        (nextSeq s'.mem source_id segment.stream)).apply s'.db = .ok s''.db ∧ s''.mem = s'.mem)
      (goes_commit (fun db h => ?_) fun e h => ?_) ?_
    · exact ⟨by rw [run_db_of_ok h]; exact h, rfl⟩
    · exact ⟨Error.isConstraint_not_isRetryable (insertSegment_constraint h),
        .refused e (run_db_of_error h) rfl⟩
    · rintro _ s'' ⟨happly, hmem⟩
      refine Prog.Goes.bind (Q := fun _ s₃ => s₃.db = s''.db ∧
        s₃.mem = adopted source_id segment (nextSeq s'.mem source_id segment.stream) s'.mem)
        (.update ⟨rfl, by rw [← hmem]; rfl⟩) fun _ s₃ h₃ => ?_
      exact .pure (.inserted hplan (by rw [h₃.1]; exact happly) h₃.2)

/-- **An adoption is answered**, by what it did. -/
theorem goes_adoptSegment : Prog.Goes (handle env (.adoptSegment source_id segment)) s
    (fun r s' => ∃ inserted, r = .adopted inserted ∧ AdoptEnd source_id segment s inserted s')
    fun _ _ => False := by
  have hadopt : Prog.Goes (adoptSegment source_id segment) s
      (fun inserted s' => AdoptEnd source_id segment s (.ok inserted) s')
      fun e s' => e.isRetryable = false ∧ AdoptEnd source_id segment s (.error e) s' := by
    unfold adoptSegment
    dsimp only
    split
    · exact .fail ⟨rfl, .refused _ rfl rfl⟩
    · rename_i hpossible
      simp only [Bool.or_eq_true, decide_eq_true_eq, not_or, not_lt] at hpossible
      refine Prog.Goes.bind (Q := fun m s' => s.mem = m ∧ s = s') (.inl ⟨_, _, rfl, rfl, rfl⟩) ?_
      rintro _ _ ⟨rfl, rfl⟩
      split
      · rename_i w hw
        split
        · rename_i hle
          exact .pure (.held ⟨hpossible.1, hpossible.2, w, hw, hle⟩ rfl rfl)
        · split
          · exact .fail ⟨rfl, .refused _ rfl rfl⟩
          · rename_i hpast
            refine goes_adoptInsert hpossible.1 hpossible.2 fun w' hw' => ?_
            rw [hw] at hw'
            exact Option.some.inj hw' ▸ not_le.mp hpast
      · rename_i hw
        exact goes_adoptInsert hpossible.1 hpossible.2 fun w' hw' =>
          absurd hw' (by rw [hw]; simp)
  unfold handle
  refine Prog.Goes.bind (Q := fun r s' => AdoptEnd source_id segment s r s') ?_ fun r s' h =>
    .pure ⟨r, rfl, h⟩
  exact .attempt (.retry hadopt (fun _ _ h => h.1) 3) (fun _ _ h => h) fun _ _ h => h.2

end Adopt

/-! ## Identity -/

/-- The keys of a source's metadata that its own archive's writer maintains. -/
def maintained : List String := [keys.ENCODER, keys.WRITER_SESSIONS]

/-- The maps agree on every key that no writer maintains. -/
def Agree (m m' : StringMap) : Prop := ∀ key ∉ maintained, m.get? key = m'.get? key

theorem agree_insertAll {m m' : StringMap} {es : List (String × String)} (h : Agree m m')
    (hes : ∀ e ∈ es, e.1 ∈ maintained) : Agree (m.insertAll es) m' := by
  intro key hkey
  have hne : ∀ e ∈ es, e.1 ≠ key := by
    rintro e he rfl
    exact hkey (hes e he)
  rw [OrdMap.get?_insertAll_of_not_mem hne]
  exact h key hkey

/-- The row of a source that was just added: the identity it was given, and what the writer
maintains. -/
structure Seeded (seed : SourceMeta) (uuid : Option String) (cols : SourceCols) : Prop where
  labels : cols.identity.labels = seed.labels
  metadata : Agree cols.identity.metadata seed.metadata
  uuid : ∀ u, uuid = some u → cols.uuid = some u

/-- A handler that only changed the row of one source. -/
structure RowSet (s : WriterState) (id : Int) (P : SourceCols → Prop) (s' : WriterState) :
    Prop where
  row : s.db.RowAt id P s'.db
  knows : s'.mem.knows = s.mem.knows

section Row

variable {s₁ : WriterState} {id : Int} {P P' : SourceCols → Prop}

/-- An update of the row that must be there, and is. -/
theorem RowSet.commit {w : Write} {f : SourceCols → SourceCols} (h : RowSet s id P s₁)
    (hw : w.apply s₁.db = s₁.db.updateSourceOrFail id f) (hf : ∀ cols, P cols → P' (f cols)) :
    Prog.Goes (WriterM.commit w) s₁ (fun _ s' => RowSet s id P' s') fun _ _ => False := by
  rw [h.row.updateSourceOrFail] at hw
  refine (goes_commit_ok hw).mono (fun _ s' h' => ?_) fun _ _ h' => h'
  refine ⟨?_, by rw [h'.2]; exact h.knows⟩
  rw [h'.1]
  exact h.row.updateSource hf

theorem RowSet.metadata (h : RowSet s id P s₁) : ∃ cols, P cols ∧
    s₁.db.sourceMetadata id = .ok cols.identity.metadata := by
  obtain ⟨cols, hcols, hp⟩ := h.row.row
  refine ⟨cols, hp, ?_⟩
  unfold Archive.sourceMetadata
  rw [hcols]

/-- A patch of maintained keys. -/
theorem RowSet.patch {seed : SourceMeta} {uuid : Option String} {key v : String}
    (hkey : key ∈ maintained) (h : RowSet s id (Seeded seed uuid) s₁) :
    Prog.Goes (patchSourceMetadata id (OrdMap.ofList [(key, v)])) s₁
      (fun _ s' => RowSet s id (Seeded seed uuid) s') fun _ _ => False := by
  obtain ⟨cols, hcols, hmeta⟩ := h.metadata
  unfold patchSourceMetadata
  refine (goes_query hmeta).bind ?_
  rintro _ _ ⟨rfl, rfl⟩
  refine h.commit rfl fun cols' hcols' => ?_
  refine ⟨hcols'.labels, agree_insertAll hcols.metadata ?_, hcols'.uuid⟩
  intro e he
  have hone : (OrdMap.ofList [(key, v)] : StringMap).entries = [(key, v)] := rfl
  rw [hone, List.mem_singleton] at he
  rw [he]
  exact hkey

end Row

/-- The heartbeat of a source that is there, if it starts, is not part of its identity. -/
theorem RowSet.startHeartbeat {s₁ : WriterState} {id : Int} {seed : SourceMeta}
    {uuid : Option String} (h : RowSet s id (Seeded seed uuid) s₁) :
    Prog.Goes (startHeartbeat env id) s₁ (fun _ s' => RowSet s id (Seeded seed uuid) s')
      fun _ _ => False := by
  have hinterval : s.db.RowAt id (Seeded seed uuid)
      (s₁.db.setHeartbeatInterval id env.heartbeat_interval_ns) :=
    h.row.updateSource fun _ hcols => ⟨hcols.labels, hcols.metadata, hcols.uuid⟩
  have hrow : s.db.RowAt id (Seeded seed uuid)
      ((s₁.db.setHeartbeatInterval id env.heartbeat_interval_ns).beat [id]) :=
    hinterval.updateSource fun _ hcols => ⟨hcols.labels, hcols.metadata, hcols.uuid⟩
  unfold Dendro.startHeartbeat
  refine Prog.Goes.bind (Q := fun _ s' => RowSet s id (Seeded seed uuid) s') ?_ fun _ _ h' =>
    .pure h'
  refine Prog.Goes.attempt (E := fun _ _ => False) (goes_commit_ok rfl) (fun _ s' h' => ?_)
    fun _ _ h' => h'.elim
  exact ⟨by rw [h'.1]; exact hrow, by rw [h'.2]; exact h.knows⟩

/-- **A source is always added**, under an id that no source has, with the identity it was
given. -/
theorem goes_addSource (seed : SourceMeta) (uuid : Option String) :
    Prog.Goes (handle env (.addSource seed uuid)) s (fun r s' =>
      r = .added (.ok s.db.nextSourceId) ∧
        RowSet s s.db.nextSourceId (Seeded seed uuid) s') fun _ _ => False := by
  have hadd : Prog.Goes (addSource env seed uuid) s (fun id s' => id = s.db.nextSourceId ∧
      RowSet s s.db.nextSourceId (Seeded seed uuid) s') fun _ _ => False := by
    unfold addSource
    extract_lets go
    have hgo : ∀ u, (∀ u', uuid = some u' → u = u') → Prog.Goes (go u) s
        (fun id s' => id = s.db.nextSourceId ∧
          RowSet s s.db.nextSourceId (Seeded seed uuid) s') fun _ _ => False := by
      intro u hu
      refine Prog.Goes.bind (Q := fun s₁ s' => s = s₁ ∧ s = s') (.state ⟨rfl, rfl⟩) ?_
      rintro _ _ ⟨rfl, rfl⟩
      refine Prog.Goes.bind (Q := fun _ s' => RowSet s s.db.nextSourceId (Seeded seed uuid) s')
        ((goes_commit_ok rfl).mono (fun _ s₁ h₁ => ⟨?_, by rw [h₁.2]⟩) fun _ _ h => h)
        fun _ s₁ h₁ => ?_
      · rw [h₁.1]
        refine ⟨rfl, fun id' hne => OrdMap.get?_insert_ne _ _ hne, _,
          OrdMap.get?_insert_self _ _ _, rfl, fun _ _ => rfl, fun u' hu' => ?_⟩
        rw [hu u' hu']
      · refine Prog.Goes.bind (Q := fun _ s' => RowSet s s.db.nextSourceId (Seeded seed uuid) s') ?_
          fun _ s₂ h₂ => ?_
        · obtain ⟨cols, -, hmeta⟩ := h₁.metadata
          unfold recordSession
          refine (goes_query (a := env.mint 1) rfl).bind ?_
          rintro _ _ ⟨rfl, rfl⟩
          refine (goes_query hmeta).bind ?_
          rintro _ _ ⟨rfl, rfl⟩
          exact h₁.patch (by simp [maintained])
        · refine h₂.startHeartbeat.bind fun _ s₃ h₃ => ?_
          cases env.encoder.version with
          | none => exact .pure ⟨rfl, h₃⟩
          | some version =>
              exact (h₃.patch (by simp [maintained])).bind fun _ _ h₄ => .pure ⟨rfl, h₄⟩
    cases uuid with
    | some u => exact hgo u fun _ h => Option.some.inj h
    | none =>
        refine (goes_query (a := env.mint 0) rfl).bind ?_
        rintro _ _ ⟨rfl, rfl⟩
        exact hgo _ nofun
  unfold handle
  refine Prog.Goes.bind (Q := fun r s' => r = .ok s.db.nextSourceId ∧
      RowSet s s.db.nextSourceId (Seeded seed uuid) s')
    (.attempt hadd (fun id _ h => ⟨by rw [h.1], h.2⟩) fun _ _ h => h.elim) ?_
  rintro _ s₁ ⟨rfl, h₁⟩
  refine Prog.Goes.bind (Q := fun _ s' => RowSet s s.db.nextSourceId (Seeded seed uuid) s')
    (.update ⟨h₁.row, h₁.knows⟩) fun _ _ h₂ => .pure ⟨rfl, h₂⟩

/-- What a change of identity leaves of the row: the identity it was sent, and the writer's own
entries as they were. -/
structure Renamed (labels metadata : StringMap) (old cols : SourceCols) : Prop where
  labels : cols.identity.labels = labels
  metadata : Agree cols.identity.metadata metadata
  kept : ∀ key ∈ maintained, ∀ v, old.identity.metadata.get? key = some v →
    cols.identity.metadata.get? key = some v
  uuid : cols.uuid = old.uuid

theorem renamed_kept {labels metadata : StringMap} {old cols : SourceCols}
    (hlabels : cols.identity.labels = labels) (huuid : cols.uuid = old.uuid)
    (hmeta : cols.identity.metadata = metadata.insertAll (maintained.filterMap fun key =>
      (old.identity.metadata.get? key).map (key, ·))) : Renamed labels metadata old cols := by
  have hget : ∀ key, cols.identity.metadata.get? key =
      (if key ∈ maintained then old.identity.metadata.get? key else none).or
        (metadata.get? key) := by
    intro key
    rw [hmeta]
    exact OrdMap.get?_insertAll_filterMap _ _ _ _
  refine ⟨hlabels, fun key hkey => ?_, fun key hkey v hv => ?_, huuid⟩
  · rw [hget, if_neg hkey, Option.none_or]
  · rw [hget, if_pos hkey, hv, Option.some_or]

/-- **A change of identity of a source that is there is made.** -/
theorem goes_setIdentity {id : Int} {old : SourceCols} (labels metadata : StringMap)
    (h : s.db.sources.get? id = some old) :
    Prog.Goes (handle env (.setIdentity id labels metadata)) s
      (fun _ s' => RowSet s id (Renamed labels metadata old) s') fun _ _ => False := by
  have hrow : RowSet s id (· = old) s := ⟨.refl h, rfl⟩
  have hset : Prog.Goes (setSourceIdentity id labels metadata) s
      (fun _ s' => RowSet s id (Renamed labels metadata old) s') fun _ _ => False := by
    obtain ⟨_, rfl, hmeta⟩ := hrow.metadata
    unfold setSourceIdentity
    refine (goes_query hmeta).bind ?_
    rintro _ _ ⟨rfl, rfl⟩
    refine hrow.commit rfl fun cols hcols => ?_
    subst hcols
    exact renamed_kept rfl rfl rfl
  unfold handle
  refine Prog.Goes.bind (Q := fun _ s' => RowSet s id (Renamed labels metadata old) s') ?_
    fun _ _ h' => .pure h'
  exact .attempt (.retry hset (fun _ _ h' => h'.elim) 3) (fun _ _ h' => h') fun _ _ h' => h'.elim

end Data

end Dendro
