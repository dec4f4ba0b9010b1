import Mathlib.Data.List.Chain
import Dendro.Documents.EditProof

/-!
# One editor or many, one chain

Every write reads the newest revision and supersedes it in one transaction, so however the
transactions of several editors interleave, each revision of a document supersedes the one
before it.

A conditional write names the revision it read. Once another write has superseded that
revision it is `Spent`: a row stays where it is and the history after it only grows, so it is
never current again.
-/

namespace Dendro

/-! ## Editors -/

/-- What an editor can ask for. -/
inductive Call where
  /-- `put_document`, or with an expectation `put_document_if_current`. -/
  | put (kind name schema body : String) (expected : Option (Option String))
  | delete (kind name : String)
  deriving DecidableEq, Repr

/-- One call, with what SQLite hands to it and the faults that strike it. -/
structure Edit where
  call : Call
  stamp : Stamp
  faults : List (Fault SqliteError)
  deriving DecidableEq, Repr

/-- One transaction: its calls in order, and whether it commits. A call that gives up ends
the transaction only if the caller lets it. -/
structure Edits where
  calls : List Edit
  commits : Bool
  deriving DecidableEq, Repr

section

variable (json : String → Option String)

def Call.prog (stamp : Stamp) : Call → DocumentM (Option RevisionId)
  | .put kind name schema body expected => do
    let id ← DocumentFile.put json stamp kind name schema body expected
    return some id
  | .delete kind name => DocumentFile.delete stamp kind name

def Edit.outcome (e : Edit) (f : DocumentFile) : Outcome Error (Option RevisionId) :=
  (e.call.prog json e.stamp f e.faults).1

def Edit.apply (f : DocumentFile) (e : Edit) : DocumentFile :=
  (e.call.prog json e.stamp f e.faults).2.1

def Edits.apply (f : DocumentFile) (tx : Edits) : DocumentFile :=
  if tx.commits then tx.calls.foldl (Edit.apply json) f else f

/-- The transactions of any number of editors, in the order they are serialised. -/
def DocumentFile.run (f : DocumentFile) (txs : List Edits) : DocumentFile :=
  txs.foldl (Edits.apply json) f

/-- The calls whose transactions commit, in order. -/
def committedCalls (txs : List Edits) : List Edit :=
  (txs.filter (·.commits)).flatMap (·.calls)

/-- The calls of a run that are conditional writes expecting the revision `u`, and return. -/
def saves (u : String) : DocumentFile → List Edit → List Edit
  | _, [] => []
  | f, e :: es =>
    let later := saves u (e.apply json f) es
    match e.call with
    | .put _ _ _ _ expected =>
      if expected = some (some u) ∧ (e.outcome json f).isOk then e :: later else later
    | .delete _ _ => later

end

/-! ## Chains -/

/-- A document's history in one line: the first revision supersedes none, and each later one
the revision just before it. -/
structure OneChain (h : List DocumentRow) : Prop where
  first : ∀ r, h.head? = some r → r.supersedes = none
  next : h.IsChain fun a b => b.supersedes = some a.id

theorem OneChain.nil : OneChain [] := ⟨nofun, .nil⟩

/-- A revision that supersedes the newest one goes on the chain. -/
theorem OneChain.concat {h : List DocumentRow} {r : DocumentRow} (hh : OneChain h)
    (hr : r.supersedes = h.getLast?.map (·.id)) : OneChain (h ++ [r]) := by
  refine ⟨fun r' hr' => ?_, List.isChain_append.mpr ⟨hh.next, .singleton _, ?_⟩⟩
  · cases h with
    | nil =>
        obtain rfl := Option.some.inj hr'
        exact hr
    | cons r₀ rest => exact hh.first r' hr'
  · intro a ha b hb
    obtain rfl : r = b := Option.some.inj hb
    rw [hr, Option.mem_def.mp ha, Option.map_some]

namespace DocumentFile

/-- The uuids in a file. -/
def uuids (f : DocumentFile) : List String := f.rows.map (·.uuid)

/-- The history of a document: its revisions, oldest first. -/
def history (f : DocumentFile) (kind name : String) : List DocumentRow :=
  f.rows.filter (DocumentRow.isOf kind name)

/-- Every document's history is one chain. -/
def Chained (f : DocumentFile) : Prop := ∀ kind name, OneChain (f.history kind name)

theorem rows_of_documents {f : DocumentFile} {t : Documents} (h : f.documents = some t) :
    f.rows = t.rows := by
  rw [rows, h]
  rfl

/-- A write adds its row at the end. -/
theorem Wrote.rows {f f' : DocumentFile} {rev : NewRevision} {id : Int} (h : Wrote f rev id f') :
    f'.rows = f.rows ++ [rev.row id] := by
  obtain ⟨t, t', ht, ht', hins⟩ := h.tables
  rw [rows_of_documents ht, rows_of_documents ht']
  exact (Documents.insert_ok hins).2.1

/-- What an editor's call can do: nothing, or supersede the newest revision of a document. -/
inductive Revised (f f' : DocumentFile) : Prop
  | unchanged (h : f' = f)
  | superseded (rev : NewRevision) (id : Int) (hwrote : Wrote f rev id f')
      (hnewest : rev.supersedes = (f.history rev.kind rev.name).getLast?.map (·.id))

theorem put_revised (json : String → Option String) (stamp : Stamp)
    (kind name schema body : String) (expected : Option (Option String)) (f : DocumentFile)
    (faults : List (Fault SqliteError)) :
    Revised f (put json stamp kind name schema body expected f faults).2.1 := by
  rcases put_ends json stamp kind name schema body expected f faults with
    ⟨id, t, -, ht, -, hwrote⟩ | ⟨-, hsame⟩
  · refine .superseded _ id hwrote ?_
    rw [history, rows_of_documents ht]
    rfl
  · exact .unchanged hsame

theorem delete_revised (stamp : Stamp) (kind name : String) (f : DocumentFile)
    (faults : List (Fault SqliteError)) : Revised f (delete stamp kind name f faults).2.1 := by
  rcases delete_ends stamp kind name f faults with
    ⟨id, t, current, -, ht, hcurrent, -, hwrote⟩ | ⟨-, hsame⟩
  · refine .superseded _ id hwrote ?_
    rw [history, rows_of_documents ht]
    exact congrArg (Option.map (·.id)) hcurrent.symm
  · exact .unchanged hsame

theorem Revised.chained {f f' : DocumentFile} (h : Revised f f') (hf : f.Chained) :
    f'.Chained := by
  cases h with
  | unchanged h => exact h ▸ hf
  | superseded rev id hwrote hnewest =>
      intro kind name
      rw [history, hwrote.rows, List.filter_append]
      by_cases hof : (rev.row id).isOf kind name
      · rw [List.filter_cons_of_pos hof, List.filter_nil]
        obtain ⟨rfl, rfl⟩ := DocumentRow.isOf_iff.mp hof
        exact (hf rev.kind rev.name).concat hnewest
      · rw [List.filter_cons_of_neg hof, List.filter_nil, List.append_nil]
        exact hf kind name

theorem Revised.rows_grow {f f' : DocumentFile} (h : Revised f f') : f.rows <+: f'.rows := by
  cases h with
  | unchanged h => exact h ▸ List.prefix_rfl
  | superseded rev id hwrote => exact ⟨_, hwrote.rows.symm⟩

/-! ## Runs -/

section

variable (json : String → Option String)

/-- A put as a call leaves what the put leaves, and returns when it does. -/
theorem prog_put (stamp : Stamp) (kind name schema body : String)
    (expected : Option (Option String)) (f : DocumentFile) (faults : List (Fault SqliteError)) :
    ((Call.put kind name schema body expected).prog json stamp f faults).2.1 =
        (put json stamp kind name schema body expected f faults).2.1 ∧
      ((Call.put kind name schema body expected).prog json stamp f faults).1.isOk =
        (put json stamp kind name schema body expected f faults).1.isOk := by
  rw [Call.prog, Prog.run_bind]
  rcases put json stamp kind name schema body expected f faults with ⟨r | e | -, f', fs⟩ <;>
    exact ⟨rfl, rfl⟩

theorem apply_revised (e : Edit) (f : DocumentFile) : Revised f (e.apply json f) := by
  obtain ⟨call, stamp, faults⟩ := e
  cases call with
  | put kind name schema body expected =>
      rw [Edit.apply, (prog_put json stamp kind name schema body expected f faults).1]
      exact put_revised json stamp kind name schema body expected f faults
  | delete kind name => exact delete_revised stamp kind name f faults

/-- What each write keeps is kept by a run of them. -/
theorem foldl_apply_keeps {I : DocumentFile → Prop} (hstep : ∀ f f', I f → Revised f f' → I f') :
    ∀ (es : List Edit) (f : DocumentFile), I f → I (es.foldl (Edit.apply json) f)
  | [], _, hf => hf
  | e :: es, f, hf => foldl_apply_keeps hstep es _ (hstep f _ hf (apply_revised json e f))

/-- A transaction that is rolled back leaves nothing, so a run is its committed calls. -/
theorem run_eq (f : DocumentFile) (txs : List Edits) :
    f.run json txs = (committedCalls txs).foldl (Edit.apply json) f := by
  induction txs generalizing f with
  | nil => rfl
  | cons tx txs ih =>
      have hrun : f.run json (tx :: txs) = (tx.apply json f).run json txs := rfl
      rw [hrun, ih, committedCalls, committedCalls]
      rcases hc : tx.commits
      · rw [List.filter_cons_of_neg (by simp [hc]), Edits.apply, hc, if_neg (by simp)]
      · rw [List.filter_cons_of_pos (by simp [hc]), Edits.apply, hc, if_pos rfl,
          List.flatMap_cons, List.foldl_append]

/-- **Every history is a chain after every run.** -/
theorem run_chained (txs : List Edits) : (create.run json txs).Chained := by
  rw [run_eq]
  exact foldl_apply_keeps json (fun _ _ hf h => h.chained hf) _ _ fun _ _ => .nil

/-- **No stored revision changes**: a run only adds rows at the end. -/
theorem rows_grow_run (f : DocumentFile) (txs : List Edits) :
    f.rows <+: (f.run json txs).rows := by
  rw [run_eq]
  exact foldl_apply_keeps json (I := fun f' => f.rows <+: f'.rows)
    (fun _ _ hf h => hf.trans h.rows_grow) _ _ List.prefix_rfl

end

/-! ## Conditional writes -/

/-- What a put expects is the current document's uuid. -/
theorem current_uuid {f : DocumentFile} {t : Documents} (ht : f.documents = some t)
    (kind name : String) : (f.current kind name).map (·.uuid) =
      currentUuid ((t.newest kind name).map headOf) := by
  rw [current, ht, Option.bind_some]
  rcases t.newest kind name with _ | r
  · rfl
  · rcases hr : r.content with _ | ⟨schema, body⟩ <;>
      simp [DocumentRow.revision, hr, currentUuid, headOf]

/-- The revision `u` has been superseded by a later one of its document. -/
def Spent (f : DocumentFile) (u : String) : Prop :=
  ∃ r ∈ f.rows, r.uuid = u ∧ ∃ r' ∈ f.rows, r'.kind = r.kind ∧ r'.name = r.name ∧ r.id < r'.id

theorem Spent.mono {f f' : DocumentFile} {u : String} (h : f.Spent u) (hf : f.rows <+: f'.rows) :
    f'.Spent u := by
  obtain ⟨r, hr, hu, r', hr', hrest⟩ := h
  exact ⟨r, hf.subset hr, hu, r', hf.subset hr', hrest⟩

/-- A conditional write that returns finds its revision unspent, and spends it. -/
theorem put_spends {json : String → Option String} {stamp : Stamp}
    {kind name schema body u : String} {f : DocumentFile} {faults : List (Fault SqliteError)}
    (h : (put json stamp kind name schema body (some (some u)) f faults).1.isOk) :
    ¬f.Spent u ∧
      (put json stamp kind name schema body (some (some u)) f faults).2.1.Spent u := by
  rcases put_ends json stamp kind name schema body (some (some u)) f faults with
    ⟨id, t, -, ht, hmeets, hwrote⟩ | ⟨hnot, -⟩
  swap
  · rw [h] at hnot
    exact absurd hnot (by simp)
  obtain ⟨r, hnewest, rfl⟩ : ∃ r, t.newest kind name = some r ∧ r.uuid = u := by
    obtain ⟨d, hd, rfl⟩ := Option.map_eq_some_iff.mp (hmeets _ rfl)
    obtain ⟨r, hr, rfl⟩ := Option.map_eq_some_iff.mp (Option.filter_eq_some_iff.mp hd).1
    exact ⟨r, hr, rfl⟩
  obtain ⟨hr, hkind, hname⟩ := Documents.mem_of_newest hnewest
  have hrows := rows_of_documents ht
  constructor
  · rintro ⟨r₁, hr₁, hu, r', hr', hkind', hname', hlt⟩
    rw [hrows] at hr₁ hr'
    obtain rfl := Documents.eq_of_uuid hr₁ hr hu
    have hle := Documents.id_le_newest hnewest hr' (hkind'.trans hkind) (hname'.trans hname)
    omega
  · have hmem : ∀ r', r' ∈ t.rows ++ [(putRevision t stamp kind name schema body).row id] →
        r' ∈ (put json stamp kind name schema body (some (some r.uuid)) f faults).2.1.rows := by
      intro r' hr'
      rwa [hwrote.rows, hrows]
    refine ⟨r, hmem r (by simp [hr]), rfl,
      (putRevision t stamp kind name schema body).row id, hmem _ (by simp), hkind.symm,
      hname.symm, ?_⟩
    obtain ⟨t₁, t₂, ht₁, -, hins⟩ := hwrote.tables
    obtain rfl : t = t₁ := Option.some.inj (ht.symm.trans ht₁)
    obtain ⟨rfl, -, -⟩ := Documents.insert_ok hins
    exact Int.lt_add_one_of_le (Documents.id_le_lastId hr)

/-- Once `u` is spent, no write that expects it returns. -/
theorem saves_spent {json : String → Option String} {u : String} : ∀ (es : List Edit)
    (f : DocumentFile), f.Spent u → saves json u f es = []
  | [], _, _ => rfl
  | e :: es, f, hf => by
      have hlater : saves json u (e.apply json f) es = [] :=
        saves_spent es _ (hf.mono (apply_revised json e f).rows_grow)
      obtain ⟨call, stamp, faults⟩ := e
      cases call with
      | put kind name schema body expected =>
          rw [saves, hlater]
          refine if_neg ?_
          rintro ⟨rfl, hok⟩
          rw [Edit.outcome, (prog_put json stamp kind name schema body _ f faults).2] at hok
          exact (put_spends hok).1 hf
      | delete kind name => exact hlater

/-- **Of the writes that expect one revision at most one returns.** -/
theorem length_saves_le {json : String → Option String} {u : String} : ∀ (es : List Edit)
    (f : DocumentFile), (saves json u f es).length ≤ 1
  | [], _ => by simp [saves]
  | e :: es, f => by
      have hlater : (saves json u (e.apply json f) es).length ≤ 1 := length_saves_le es _
      rcases e with ⟨call, stamp, faults⟩
      cases call with
      | put kind name schema body expected =>
          rw [saves]
          dsimp only
          split
          · rename_i hsaved
            obtain ⟨rfl, hok⟩ := hsaved
            have hspent : (Edit.apply json f ⟨.put kind name schema body (some (some u)), stamp,
                faults⟩).Spent u := by
              have hput := prog_put json stamp kind name schema body (some (some u)) f faults
              rw [Edit.outcome, hput.2] at hok
              rw [Edit.apply, hput.1]
              exact (put_spends hok).2
            rw [saves_spent es _ hspent]
            simp
          · exact hlater
      | delete kind name => exact hlater

/-! ## Writes and what a reader sees -/

variable {json : String → Option String} {stamp : Stamp} {kind name schema body : String}

/-- A conditional write that returns named the current document; one that names it, and
whose arguments are good, returns. -/
theorem put_isOk {f : DocumentFile} {t : Documents} (ht : f.documents = some t)
    (hargs : Accepts json kind name schema body) (hu : stamp.uuid ∉ f.uuids)
    (expected : Option String) :
    (∀ faults, (put json stamp kind name schema body (some expected) f faults).1.isOk →
        expected = (f.current kind name).map (·.uuid)) ∧
      (expected = (f.current kind name).map (·.uuid) →
        (put json stamp kind name schema body (some expected) f []).1.isOk) := by
  have hcurrent := current_uuid ht kind name
  constructor
  · intro faults hok
    rcases put_ends json stamp kind name schema body (some expected) f faults with
      ⟨id, t', -, ht', hmeets, -⟩ | ⟨hnot, -⟩
    · obtain rfl : t = t' := Option.some.inj (ht.symm.trans ht')
      rw [hcurrent, hmeets _ rfl]
    · rw [hok] at hnot
      exact absurd hnot (by simp)
  · intro hexpected
    have hmeets : Meets t kind name (some expected) := by
      intro u hu
      rw [← hcurrent, ← Option.some.inj hu]
      exact hexpected.symm
    have hfresh : stamp.uuid ∉ t.uuids := by
      rwa [uuids, rows_of_documents ht] at hu
    obtain ⟨f', hrun⟩ := put_run ht hargs hmeets hfresh
    rw [hrun]
    rfl

/-- A delete that adds a revision had a document to delete; where there is one, and the key
is good, it adds one. -/
theorem delete_adds {f : DocumentFile} (hkey : checkKey kind name = .ok ())
    (hu : stamp.uuid ∉ f.uuids) :
    (∀ faults, (delete stamp kind name f faults).2.1.rows ≠ f.rows →
        (f.current kind name).isSome) ∧
      ((f.current kind name).isSome →
        ∃ r, (delete stamp kind name f []).2.1.rows = f.rows ++ [r]) := by
  constructor
  · intro faults hadds
    rcases delete_ends stamp kind name f faults with
      ⟨id, t, current, -, ht, hcurrent, hput, -⟩ | ⟨-, hsame⟩
    · obtain ⟨⟨schema, body⟩, hcontent⟩ := Option.isSome_iff_exists.mp hput
      simp [DocumentFile.current, ht, hcurrent, DocumentRow.revision, hcontent]
    · exact absurd (congrArg DocumentFile.rows hsame) hadds
  · intro hsome
    obtain ⟨d, hd⟩ := Option.isSome_iff_exists.mp hsome
    obtain ⟨r, hr, hrev⟩ := Option.bind_eq_some_iff.mp hd
    obtain ⟨t, ht, hnewest⟩ := Option.bind_eq_some_iff.mp hr
    have hput : r.content.isSome := by
      rcases hcontent : r.content with _ | ⟨schema, body⟩
      · simp [DocumentRow.revision, hcontent] at hrev
      · rfl
    have hfresh : stamp.uuid ∉ t.uuids := by
      rwa [uuids, rows_of_documents ht] at hu
    obtain ⟨f', hrun⟩ := delete_run ht hkey hnewest hput hfresh
    rcases delete_ends stamp kind name f [] with ⟨id, t', current, -, -, -, -, hwrote⟩ | ⟨hnot, -⟩
    · exact ⟨_, hwrote.rows⟩
    · rw [hrun] at hnot
      exact absurd rfl (hnot _)

/-- A file that has the table keeps it. -/
theorem run_documents (txs : List Edits) : (create.run json txs).documents.isSome := by
  rw [run_eq]
  refine foldl_apply_keeps json (I := fun f => f.documents.isSome) ?_ _ _ rfl
  rintro f f' hf (rfl | ⟨rev, id, hwrote, -⟩)
  · exact hf
  · obtain ⟨t, t', -, ht', -⟩ := hwrote.tables
    rw [ht']
    rfl

/-- **Without copies a document's history is one chain.** After any run of any editors'
transactions: every history is a chain; a later run changes no revision; a conditional write
with good arguments returns exactly when it names the current document; of the writes that
name one revision at most one returns; and a delete adds a revision exactly when there is a
document. What a call decides by is the file as its transaction finds it, which is what
`document` answers there. -/
theorem history_one_chain (json : String → Option String) (txs : List Edits) :
    (∀ kind name, OneChain ((create.run json txs).history kind name)) ∧
    (∀ later, (create.run json txs).rows <+: ((create.run json txs).run json later).rows) ∧
    (∀ u, (saves json u create (committedCalls txs)).length ≤ 1) ∧
    (∀ kind name, ∃ d, (document kind name (create.run json txs) []).1 = .ok d ∧
      (∀ stamp : Stamp, stamp.uuid ∉ (create.run json txs).uuids →
        (∀ schema body expected, Accepts json kind name schema body →
          (∀ faults, (put json stamp kind name schema body (some expected)
              (create.run json txs) faults).1.isOk → expected = d.map (·.uuid)) ∧
            (expected = d.map (·.uuid) → (put json stamp kind name schema body (some expected)
              (create.run json txs) []).1.isOk)) ∧
        (checkKey kind name = .ok () →
          (∀ faults, (delete stamp kind name (create.run json txs) faults).2.1.rows ≠
              (create.run json txs).rows → d.isSome) ∧
            (d.isSome → ∃ r, (delete stamp kind name (create.run json txs) []).2.1.rows =
              (create.run json txs).rows ++ [r])))) := by
  have hsome : (create.run json txs).documents.isSome := run_documents txs
  obtain ⟨t, ht⟩ := Option.isSome_iff_exists.mp hsome
  refine ⟨run_chained json txs, rows_grow_run json _, fun u => length_saves_le _ _,
    fun kind name => ⟨(create.run json txs).current kind name, ?_, fun stamp hu => ⟨?_, ?_⟩⟩⟩
  · rw [document_run]
  · intro schema body expected hargs
    exact put_isOk ht hargs hu expected
  · intro hkey
    exact delete_adds hkey hu

/-- A parser that has no complaint. -/
def anyJson : String → Option String := fun _ => none

/-- Two editors read the first revision, and each saves its edit over it. -/
def twoEditors : List Edits := [
  ⟨[⟨.put "view" "main" "view/1" "1" (some none), ⟨"a", 1⟩, []⟩], true⟩,
  ⟨[⟨.put "view" "main" "view/1" "2" (some (some "a")), ⟨"b", 2⟩, []⟩], true⟩,
  ⟨[⟨.put "view" "main" "view/1" "3" (some (some "a")), ⟨"c", 3⟩, []⟩], true⟩]

theorem history_one_chain_twoEditors :
    (put anyJson ⟨"d", 4⟩ "view" "main" "view/1" "4" (some (some "b"))
      (create.run anyJson twoEditors) []).1.isOk ∧
    ¬(put anyJson ⟨"d", 4⟩ "view" "main" "view/1" "4" (some (some "a"))
      (create.run anyJson twoEditors) []).1.isOk ∧
    ∃ r, (delete ⟨"d", 4⟩ "view" "main" (create.run anyJson twoEditors) []).2.1.rows =
      (create.run anyJson twoEditors).rows ++ [r] := by
  obtain ⟨-, -, -, hcalls⟩ := history_one_chain anyJson twoEditors
  obtain ⟨d, hd, hstamp⟩ := hcalls "view" "main"
  obtain ⟨hput, hdelete⟩ := hstamp ⟨"d", 4⟩ (by decide)
  have hcurrent : d.map (·.uuid) = some "b" := by
    have hrun : (document "view" "main" (create.run anyJson twoEditors) []).1 =
        .ok (some ⟨2, "b", "view", "main", "view/1", "2", 2, some 1⟩) := by decide
    rw [← Outcome.ok.inj (hrun.symm.trans hd)]
    rfl
  have hargs : ∀ body, Accepts anyJson "view" "main" "view/1" body :=
    fun _ => ⟨by decide, by decide, rfl⟩
  refine ⟨(hput _ _ _ (hargs "4")).2 hcurrent.symm, fun h => ?_, (hdelete (by decide)).2 ?_⟩
  · have := (hput _ _ _ (hargs "4")).1 [] h
    rw [hcurrent] at this
    exact absurd this (by decide)
  · rcases d with _ | d
    · simp at hcurrent
    · rfl

end DocumentFile

end Dendro
