import Dendro.Documents.Edit

/-!
# What one write does

A put or a delete either adds one row that supersedes the newest of its document, or it
leaves the file as it is, whatever fails on the way (`put_ends`, `delete_ends`). Where
nothing fails it is the arguments and the newest revision that decide (`put_run`,
`delete_run`).
-/

namespace Dendro

namespace DocumentFile

/-! ## What one write does -/

/-- A revision was written: the table has one row more. -/
structure Wrote (f : DocumentFile) (rev : NewRevision) (id : Int) (f' : DocumentFile) : Prop where
  version : f'.user_version = f.user_version
  tables : ∃ t t', f.documents = some t ∧ f'.documents = some t' ∧ t.insert rev = .ok (id, t')

theorem insertRevision_ends (rev : NewRevision) (f : DocumentFile) :
    Prog.Ends (insertRevision rev) f fun r f' => (∃ id, r = .ok id ∧ Wrote f rev id f') ∨
      r.isOk = false ∧ f' = f := by
  refine .call ?_ ?_ (fun _ => .inr ⟨rfl, rfl⟩) (.inr ⟨rfl, rfl⟩)
  · intro id f' h
    split at h
    · simp at h
    · rename_i t ht
      split at h
      · simp at h
      · rename_i id' t' hins
        obtain ⟨hid, rfl⟩ := Prod.mk.inj h
        obtain rfl := Except.ok.inj hid
        exact .inl ⟨id', rfl, rfl, t, t', ht, rfl, hins⟩
  · intro e f' h
    split at h
    · exact .inr ⟨rfl, (Prod.mk.inj h).2.symm⟩
    · split at h
      · exact .inr ⟨rfl, (Prod.mk.inj h).2.symm⟩
      · simp at h

/-- What a read of the table that goes through answers. -/
theorem of_query {α : Type} {context : String} {f : DocumentFile} {g : Documents → α} {a : α}
    (h : (match f.documents with
      | some t => .ok (g t)
      | none => .error (.sqlite context noTable) : Except Error α) = .ok a) :
    ∃ t, f.documents = some t ∧ a = g t := by
  rcases ht : f.documents with _ | t <;> rw [ht] at h
  · simp at h
  · exact ⟨t, rfl, (Except.ok.inj h).symm⟩

/-- The revision a put writes. -/
def putRevision (t : Documents) (stamp : Stamp) (kind name schema body : String) : NewRevision where
  uuid := stamp.uuid
  kind := kind
  name := name
  content := some (schema, body)
  created_wall_ns := stamp.now
  supersedes := (t.newest kind name).map (·.id)

/-- The revision a delete writes. -/
def deletion (stamp : Stamp) (kind name : String) (current : Int) : NewRevision where
  uuid := stamp.uuid
  kind := kind
  name := name
  content := none
  created_wall_ns := stamp.now
  supersedes := some current

/-- The arguments of a put, as it checks them before it looks at the archive. -/
structure Accepts (json : String → Option String) (kind name schema body : String) : Prop where
  key : checkKey kind name = .ok ()
  schema : checkSchema kind name schema = .ok ()
  body : checkJson json kind name body = .ok ()

/-- Whether a put's expectation is met by a table. -/
def Meets (t : Documents) (kind name : String) (expected : Option (Option String)) : Prop :=
  ∀ u, expected = some u → currentUuid ((t.newest kind name).map headOf) = u

theorem checkExpected_ok {kind name : String} {head : Option Head}
    {expected : Option (Option String)} :
    checkExpected kind name head expected = .ok () ↔
      ∀ u, expected = some u → currentUuid head = u := by
  cases expected with
  | none => simp [checkExpected]
  | some u =>
      simp only [checkExpected, Option.some.injEq, forall_eq']
      by_cases h : currentUuid head = u <;> simp [h]

theorem checkWritable_ends (f : DocumentFile) :
    Prog.Ends checkWritable f fun _ f' => f' = f := by
  unfold checkWritable
  refine .read_bind (fun _ => rfl) rfl fun found _ => ?_
  split
  · exact .fail rfl
  · exact .pure rfl

variable {json : String → Option String} {stamp : Stamp} {kind name schema body : String}
  {expected : Option (Option String)}

/-- **A put that returns has superseded the newest revision; any other has done nothing.** -/
theorem put_ends (json : String → Option String) (stamp : Stamp) (kind name schema body : String)
    (expected : Option (Option String)) (f : DocumentFile) :
    Prog.Ends (put json stamp kind name schema body expected) f fun r f' =>
      (∃ id t, r = .ok ⟨id, stamp.uuid⟩ ∧ f.documents = some t ∧ Meets t kind name expected ∧
        Wrote f (putRevision t stamp kind name schema body) id f') ∨ r.isOk = false ∧ f' = f := by
  unfold put
  refine .lift_bind (fun _ _ => .inr ⟨rfl, rfl⟩) fun _ _ => ?_
  refine .lift_bind (fun _ _ => .inr ⟨rfl, rfl⟩) fun _ _ => ?_
  refine .lift_bind (fun _ _ => .inr ⟨rfl, rfl⟩) fun _ _ => ?_
  refine .bind (checkWritable_ends f) ?_ (fun _ _ h => .inr ⟨rfl, h⟩) fun _ h => .inr ⟨rfl, h⟩
  rintro _ _ rfl
  refine .read_bind (fun _ => .inr ⟨rfl, rfl⟩) (.inr ⟨rfl, rfl⟩) fun head hhead => ?_
  obtain ⟨t, ht, rfl⟩ := of_query hhead
  refine .lift_bind (fun _ _ => .inr ⟨rfl, rfl⟩) fun _ hexpected => ?_
  refine .read_bind (fun _ => .inr ⟨rfl, rfl⟩) (.inr ⟨rfl, rfl⟩) fun uuid huuid => ?_
  obtain rfl := Except.ok.inj huuid
  refine .read_bind (fun _ => .inr ⟨rfl, rfl⟩) (.inr ⟨rfl, rfl⟩) fun now hnow => ?_
  obtain rfl := Except.ok.inj hnow
  refine .bind (insertRevision_ends _ _) ?_ ?_ ?_
  · rintro id f' (⟨id', hid, hwrote⟩ | ⟨hnot, -⟩)
    · obtain rfl := Outcome.ok.inj hid
      rw [Option.map_map] at hwrote
      exact .pure (.inl ⟨id, t, rfl, ht, checkExpected_ok.mp hexpected, hwrote⟩)
    · exact absurd hnot (by simp [Outcome.isOk])
  · rintro e f' (⟨id', hid, -⟩ | ⟨-, rfl⟩)
    · exact absurd hid (by simp)
    · exact .inr ⟨rfl, rfl⟩
  · rintro f' (⟨id', hid, -⟩ | ⟨-, rfl⟩)
    · exact absurd hid (by simp)
    · exact .inr ⟨rfl, rfl⟩

/-- **A delete has superseded the current document with a deletion, or done nothing.** -/
theorem delete_ends (stamp : Stamp) (kind name : String) (f : DocumentFile) :
    Prog.Ends (delete stamp kind name) f fun r f' =>
      (∃ id t current, r = .ok (some ⟨id, stamp.uuid⟩) ∧ f.documents = some t ∧
        t.newest kind name = some current ∧ current.content.isSome ∧
        Wrote f (deletion stamp kind name current.id) id f') ∨
      (∀ id, r ≠ .ok (some id)) ∧ f' = f := by
  unfold delete
  refine .lift_bind (fun _ _ => .inr ⟨nofun, rfl⟩) fun _ _ => ?_
  refine .read_bind (fun _ => .inr ⟨nofun, rfl⟩) (.inr ⟨nofun, rfl⟩) fun has _ => ?_
  split
  · exact .pure (.inr ⟨by simp, rfl⟩)
  refine .read_bind (fun _ => .inr ⟨nofun, rfl⟩) (.inr ⟨nofun, rfl⟩) fun head hhead => ?_
  obtain ⟨t, ht, rfl⟩ := of_query hhead
  split
  · exact .pure (.inr ⟨by simp, rfl⟩)
  rename_i current hcurrent
  obtain ⟨row, hrow, rfl⟩ := Option.map_eq_some_iff.mp (Option.filter_eq_some_iff.mp hcurrent).1
  have hput : row.content.isSome := by
    have := (Option.filter_eq_some_iff.mp hcurrent).2
    simpa [headOf, Option.isSome_iff_ne_none] using this
  refine .read_bind (fun _ => .inr ⟨nofun, rfl⟩) (.inr ⟨nofun, rfl⟩) fun uuid huuid => ?_
  obtain rfl := Except.ok.inj huuid
  refine .read_bind (fun _ => .inr ⟨nofun, rfl⟩) (.inr ⟨nofun, rfl⟩) fun now hnow => ?_
  obtain rfl := Except.ok.inj hnow
  refine .bind (insertRevision_ends _ _) ?_ ?_ ?_
  · rintro id f' (⟨id', hid, hwrote⟩ | ⟨hnot, -⟩)
    · obtain rfl := Outcome.ok.inj hid
      exact .pure (.inl ⟨id, t, row, rfl, ht, hrow, hput, hwrote⟩)
    · exact absurd hnot (by simp [Outcome.isOk])
  · rintro e f' (⟨id', hid, -⟩ | ⟨-, rfl⟩)
    · exact absurd hid (by simp)
    · exact .inr ⟨nofun, rfl⟩
  · rintro f' (⟨id', hid, -⟩ | ⟨-, rfl⟩)
    · exact absurd hid (by simp)
    · exact .inr ⟨nofun, rfl⟩

/-! ## What one write does where nothing fails -/

theorem hasDocuments_run (f : DocumentFile) :
    hasDocuments f [] = (.ok f.documents.isSome, f, []) := rfl

theorem mintUuid_run (stamp : Stamp) (f : DocumentFile) :
    mintUuid stamp f [] = (.ok stamp.uuid, f, []) := rfl

theorem wallNowNs_run (stamp : Stamp) (f : DocumentFile) :
    wallNowNs stamp f [] = (.ok stamp.now, f, []) := rfl

theorem query_run {α : Type} {context : String} {g : Documents → α} {f : DocumentFile}
    {t : Documents} (ht : f.documents = some t) : query context g f [] = (.ok (g t), f, []) := by
  unfold query
  exact Prog.run_read_nil _ (by rw [ht])

/-- A file that has the table takes documents. -/
theorem checkWritable_run {f : DocumentFile} {t : Documents} (ht : f.documents = some t) :
    checkWritable f [] = (.ok (), f, []) := by
  have hversion : ¬f.user_version < DOCUMENTS_SCHEMA_VERSION := by
    have htable := f.table
    rw [ht] at htable
    exact not_lt.mpr (of_decide_eq_true htable.symm)
  have hfound : Prog.read (Error.sqlite "failed to read the schema version")
      (fun f : DocumentFile => .ok f.user_version) f [] = (.ok f.user_version, f, []) := rfl
  unfold checkWritable
  rw [Prog.run_bind_ok hfound, if_neg hversion]
  rfl

theorem insertRevision_run {rev : NewRevision} {f : DocumentFile} {t : Documents}
    (ht : f.documents = some t) (hu : rev.uuid ∉ t.uuids)
    (hs : ∀ s, rev.supersedes = some s → ∃ r ∈ t.rows, r.id = s) :
    ∃ f', insertRevision rev f [] = (.ok (t.lastId + 1), f', []) := by
  obtain ⟨t', hins⟩ := Documents.insert_goes hu hs
  obtain ⟨version, documents, table⟩ := f
  obtain rfl : documents = some t := ht
  exact ⟨⟨version, some t', table⟩, by simp [insertRevision, Prog.run_call_nil, hins, withTable]⟩

/-- A put whose arguments are good and whose expectation is met goes through. -/
theorem put_run {f : DocumentFile} {t : Documents} (ht : f.documents = some t)
    (hargs : Accepts json kind name schema body) (hmeets : Meets t kind name expected)
    (hu : stamp.uuid ∉ t.uuids) :
    ∃ f', put json stamp kind name schema body expected f [] =
      (.ok ⟨t.lastId + 1, stamp.uuid⟩, f', []) := by
  obtain ⟨f', hins⟩ : ∃ f', insertRevision (putRevision t stamp kind name schema body) f [] =
      (.ok (t.lastId + 1), f', []) := by
    refine insertRevision_run ht hu fun s hs => ?_
    obtain ⟨r, hr, rfl⟩ := Option.map_eq_some_iff.mp hs
    exact ⟨r, (Documents.mem_of_newest hr).1, rfl⟩
  refine ⟨f', ?_⟩
  unfold put head
  rw [Prog.run_lift_bind hargs.key, Prog.run_lift_bind hargs.schema,
    Prog.run_lift_bind hargs.body, Prog.run_bind_ok (checkWritable_run ht),
    Prog.run_bind_ok (query_run ht), Prog.run_lift_bind (checkExpected_ok.mpr hmeets),
    Prog.run_bind_ok (mintUuid_run stamp f), Prog.run_bind_ok (wallNowNs_run stamp f),
    Option.map_map]
  exact Prog.run_bind_ok hins

/-- A delete of a document that is there goes through. -/
theorem delete_run {f : DocumentFile} {t : Documents} {current : DocumentRow}
    (ht : f.documents = some t) (hkey : checkKey kind name = .ok ())
    (hcurrent : t.newest kind name = some current) (hput : current.content.isSome)
    (hu : stamp.uuid ∉ t.uuids) :
    ∃ f', delete stamp kind name f [] = (.ok (some ⟨t.lastId + 1, stamp.uuid⟩), f', []) := by
  obtain ⟨f', hins⟩ : ∃ f', insertRevision (deletion stamp kind name current.id) f [] =
      (.ok (t.lastId + 1), f', []) := by
    refine insertRevision_run ht hu fun s hs => ?_
    obtain rfl := Option.some.inj hs
    exact ⟨current, (Documents.mem_of_newest hcurrent).1, rfl⟩
  have hhead : ((t.newest kind name).map headOf).filter (fun h => !h.deleted) =
      some (headOf current) := by
    rw [hcurrent, Option.map_some, Option.filter_some, if_pos]
    simpa [headOf, Option.isSome_iff_ne_none] using hput
  refine ⟨f', ?_⟩
  unfold delete head
  rw [Prog.run_lift_bind hkey, Prog.run_bind_ok (hasDocuments_run f), ht, if_neg (by simp),
    Prog.run_bind_ok (query_run ht), hhead]
  dsimp only
  rw [Prog.run_bind_ok (mintUuid_run stamp f), Prog.run_bind_ok (wallNowNs_run stamp f)]
  exact Prog.run_bind_ok hins

/-- The current document of a file. -/
def current (f : DocumentFile) (kind name : String) : Option Document :=
  (f.documents.bind fun t => t.newest kind name).bind fun r =>
    match r.revision with
    | .put d => some d
    | .delete _ => none

theorem document_run (f : DocumentFile) (kind name : String) :
    document kind name f [] = (.ok (f.current kind name), f, []) := by
  unfold document
  rw [Prog.run_bind_ok (hasDocuments_run f)]
  rcases ht : f.documents with _ | t
  · simp only [Option.isSome_none, current, ht]
    rfl
  · rw [if_neg (by simp)]
    unfold newest
    rw [Prog.run_bind_ok (query_run ht)]
    simp only [current, ht, Option.bind_some]
    rcases t.newest kind name with _ | r
    · rfl
    · rcases hr : r.revision with d | d
      · simp only [Option.map_some, Option.bind_some, hr]
        rfl
      · simp only [Option.map_some, Option.bind_some, hr]
        rfl

end DocumentFile

end Dendro
