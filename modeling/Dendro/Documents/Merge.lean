import Dendro.Documents.Forks

/-!
# Merging histories

A copy that nothing strikes carries every revision that the destination did not hold, or gives
up at one that both archives hold with different contents (`copyDocuments_goes`). It gives up
for no other reason (`Merged.not_conflict`), and once it went through it finds every revision
there (`Merged.again`).

In the words of the files (`Unified`), each document's history is its old one and then the
source's revisions that were missing, in the source's order, each superseding the revision
with the uuid that its original supersedes.
-/

namespace Dendro

namespace Documents

/-- Both tables hold a revision under one uuid, with different contents. -/
def Conflict (s d : Documents) : Prop :=
  ∃ r ∈ s.rows, ∃ m ∈ d.rows, m.uuid = r.uuid ∧ DocumentFile.same m r = false

theorem same_iff {m r : DocumentRow} : DocumentFile.same m r = true ↔
    m.kind = r.kind ∧ m.name = r.name ∧ m.content = r.content := by
  simp [DocumentFile.same, and_assoc]

variable {s d t : Documents} {c : Copying} {done rest new : List DocumentRow} {r held : DocumentRow}

/-- A revision that is held with other contents is a conflict with what the destination held. -/
theorem Carried.conflict (h : Carried s d done c t new) (hs : s.rows = done ++ r :: rest)
    (hheld : t.withUuid r.uuid = some held) (hdiff : DocumentFile.same held r = false) :
    Conflict s d := by
  obtain ⟨hmem, hu⟩ := withUuid_eq_some.mp hheld
  have hd : r.uuid ∈ d.uuids := (h.held_iff hs).mp (mem_uuids.mpr ⟨held, hmem, hu⟩)
  obtain ⟨m, hm, hmu⟩ := mem_uuids.mp hd
  obtain rfl : m = held := eq_of_uuid (h.extends.mem hm) hmem (hmu.trans hu.symm)
  exact ⟨r, by rw [hs]; simp, m, hm, hu, hdiff⟩

/-- What a copy has been over is in the table as the source has it. -/
theorem Carried.agrees (h : Carried s d done c t new) {m : DocumentRow} (hr : r ∈ done)
    (hm : m ∈ t.rows) (hu : m.uuid = r.uuid) : DocumentFile.same m r = true := by
  obtain ⟨m', hm', -, hu', hrest⟩ := h.ids r hr
  obtain rfl : m = m' := eq_of_uuid hm hm' (hu.trans hu'.symm)
  exact same_iff.mpr hrest

/-- A row that was made of a revision supersedes the row with the uuid that it supersedes. -/
theorem Carries.supersedes {p n : DocumentRow} (h : Carries s t p n) (hp : p ∈ s.rows) :
    (n.supersedes = none ↔ p.supersedes = none) ∧
      n.supersedes.bind (fun i => (t.withId i).map (·.uuid)) =
        p.supersedes.bind fun i => (s.withId i).map (·.uuid) := by
  rcases hsup : p.supersedes with _ | i
  · rw [h.root hsup]
    exact ⟨Iff.rfl, rfl⟩
  · obtain ⟨q, hq, rfl⟩ := s.references p hp i hsup
    obtain ⟨m, hm, hu, hn⟩ := h.link q hq hsup
    rw [hn, Option.bind_some, Option.bind_some, withId_eq_some.mpr ⟨hm, rfl⟩,
      withId_eq_some.mpr ⟨hq, rfl⟩, Option.map_some, Option.map_some, hu]
    exact ⟨by simp, rfl⟩

end Documents

namespace DocumentFile

open Documents

variable {s d t : Documents}

/-! ## A copy that nothing strikes -/

theorem copyRow_goes (hs : s.Linked) {r : DocumentRow} {rest : List DocumentRow} {c : Copying}
    {f : DocumentFile} (h : Amid s d (r :: rest) c f) :
    Prog.Goes (copyRow c r) f (Amid s d rest) fun _ _ => Conflict s d := by
  refine (copyRow_runs hs h).goes ?_
  obtain ⟨done, new, t, hrows, ht, hcarried, hlinked⟩ := h
  unfold copyRow
  refine .bind (Q := fun _ f' => f' = f) (.inl ⟨(), f, rfl, rfl⟩) ?_
  rintro _ f rfl
  refine .bind (Q := fun _ f' => f' = f) ?_ ?_
  · unfold ensure
    split
    · exact .pure rfl
    · exact .inl ⟨(), f, checkWritable_run ht, rfl⟩
  rintro _ f rfl
  refine .bind (Q := fun held f' => held = t.withUuid r.uuid ∧ f' = f)
    (.inl ⟨_, f, query_run ht, rfl, rfl⟩) ?_
  rintro _ f ⟨rfl, rfl⟩
  rcases hheld : t.withUuid r.uuid with _ | held
  · dsimp only
    refine .bind (Q := fun _ f' => f' = f) ?_ ?_
    · unfold baseline
      split
      · exact .pure rfl
      · exact .inl ⟨_, f, query_run ht, rfl⟩
    rintro before f rfl
    -- no constraint refuses the insert
    have hlink : ∀ i, (c.revision r).supersedes = some i → ∃ m ∈ t.rows, m.id = i := by
      intro i hi
      obtain ⟨m, hm, hid, -⟩ := hcarried.revision_link hs hrows i hi
      exact ⟨m, hm, hid⟩
    obtain ⟨f', hins⟩ := insertRevision_run ht (withUuid_eq_none.mp hheld) hlink
    exact .bind (Q := fun _ _ => True) (.inl ⟨_, f', hins, trivial⟩) fun _ _ _ => .pure trivial
  · dsimp only
    split
    · exact .pure trivial
    · rename_i hdiff
      exact .fail (hcarried.conflict hrows hheld (Bool.eq_false_of_not_eq_true hdiff))

theorem forksOf_goes {f : DocumentFile} (ht : f.documents = some t) (first_inserted : WithTop Int)
    (e : DocumentKey × (Option Head × Int)) {E : Error → DocumentFile → Prop} :
    Prog.Goes (forksOf first_inserted e) f (fun _ f' => f' = f) E := by
  unfold forksOf
  split
  · exact .pure rfl
  unfold forkOf
  refine .bind (Q := fun _ f' => f' = f) (.inl ⟨_, f, query_run ht, rfl⟩) ?_
  rintro ⟨reaches, shares⟩ f rfl
  dsimp only
  split
  · refine .bind (Q := fun _ f' => f' = f) (.inl ⟨_, f, query_run ht, rfl⟩) ?_
    rintro current f rfl
    exact .pure rfl
  · exact .pure rfl

/-- **A copy that nothing strikes goes through, or there is a conflict.** -/
theorem copyDocuments_goes {src f : DocumentFile} (hsrc : src.documents = some s)
    (hf : f.documents = some d) (hs : s.Linked) (hd : d.Linked) :
    Prog.Goes (copyDocuments src) f
      (fun report f' => ∃ t, f'.documents = some t ∧ Merged s d report t)
      fun _ _ => Conflict s d := by
  refine (copyDocuments_runs hsrc hf hs hd).goes ?_
  have hstart : Amid s d s.rows .start f := ⟨[], [], d, rfl, hf, .start s d, hd⟩
  unfold copyDocuments
  refine .bind (Q := fun has f' => has = true ∧ f' = f) (.inl ⟨true, f, ?_, rfl, rfl⟩) ?_
  · exact Prog.run_read_nil _ (by rw [hsrc]; rfl)
  rintro _ f ⟨rfl, rfl⟩
  rw [if_neg (by simp)]
  refine .bind (Q := fun _ f' => f' = f) (.inl ⟨(), f, rfl, rfl⟩) ?_
  rintro _ f rfl
  rw [rows, hsrc]
  refine .bind (.foldEach (I := Amid s d) (fun c r rest f h => copyRow_goes hs h) hstart) ?_
  rintro c f' ⟨done, new, t, -, ht, -⟩
  refine .bind (Q := fun _ f'' => f'' = f') (.inl ⟨(), f', rfl, rfl⟩) ?_
  rintro _ f' rfl
  refine Prog.Goes.mono (Q := fun _ f'' => f'' = f') (.foldEach (I := fun _ _ f'' => f'' = f') ?_ rfl)
    (fun _ _ _ => trivial) fun _ _ h => h
  rintro report e rest f'' rfl
  unfold reportDocument
  refine .bind (forksOf_goes ht c.first_inserted e) ?_
  rintro forked f'' rfl
  exact .pure rfl

/-- A copy that goes through met no conflict. -/
theorem Merged.not_conflict {report : CopiedDocuments} (h : Merged s d report t) :
    ¬Conflict s d := by
  obtain ⟨c, new, hcarried, -⟩ := h.carried
  rintro ⟨r, hr, m, hm, hu, hdiff⟩
  rw [hcarried.agrees hr (hcarried.extends.mem hm) hu] at hdiff
  cases hdiff

/-! ## Once more -/

/-- What a copy leaves is in no conflict with its source. -/
theorem Merged.settled {report : CopiedDocuments} (h : Merged s d report t) : ¬Conflict s t := by
  obtain ⟨c, new, hcarried, -⟩ := h.carried
  rintro ⟨r, hr, m, hm, hu, hdiff⟩
  rw [hcarried.agrees hr hm hu] at hdiff
  cases hdiff

/-- **A second copy adds nothing.** -/
theorem Merged.again {report report' : CopiedDocuments} {t' : Documents}
    (h : Merged s d report t) (h' : Merged s t report' t') :
    t' = t ∧ report' = { inserted := 0, current := [], forked := [] } := by
  obtain ⟨c, new, hcarried, -⟩ := h.carried
  obtain ⟨c', new', hcarried', rfl⟩ := h'.carried
  have hnone : t.brought s.rows = [] := by
    refine List.filter_eq_nil_iff.mpr fun r hr => ?_
    obtain ⟨m, hm, -, hu, -⟩ := hcarried.ids r hr
    simpa using mem_uuids.mpr ⟨m, hm, hu⟩
  have hcarries := hcarried'.carries
  rw [hnone] at hcarries
  obtain rfl : new' = [] := List.forall₂_nil_left_iff.mp hcarries
  have htouched : c'.touched.entries = [] := by
    refine List.eq_nil_iff_forall_not_mem.mpr fun e he => ?_
    have hget := OrdMap.get?_eq_some.mpr he
    have hempty := hcarried'.touched (ofLex e.1).1 (ofLex e.1).2
    rw [show toLex ((ofLex e.1).1, (ofLex e.1).2) = e.1 from rfl, hget] at hempty
    cases hempty
  refine ⟨Documents.ext (by rw [hcarried'.rows, List.append_nil]), ?_⟩
  rw [reportOf, htouched, hcarried'.inserted]
  rfl

/-! ## In the words of the files -/

/-- The uuid of the revision that `r`, a revision of `f`, supersedes. -/
def superseded (f : DocumentFile) (r : DocumentRow) : Option String :=
  r.supersedes.bind fun id => (f.rows.find? (·.id = id)).map (·.uuid)

/-- Both files hold a revision under one uuid, with different contents. -/
def Conflict (src dst : DocumentFile) : Prop :=
  ∃ r ∈ src.rows, ∃ m ∈ dst.rows, m.uuid = r.uuid ∧
    ¬(m.kind = r.kind ∧ m.name = r.name ∧ m.content = r.content)

instance (src dst : DocumentFile) : Decidable (src.Conflict dst) :=
  inferInstanceAs (Decidable (∃ r ∈ src.rows, ∃ m ∈ dst.rows, _))

/-- `n`, a revision of `dst`, is the revision `p` of `src` under an id of its own. -/
structure Imports (src dst : DocumentFile) (p n : DocumentRow) : Prop where
  uuid : n.uuid = p.uuid
  kind : n.kind = p.kind
  name : n.name = p.name
  content : n.content = p.content
  created : n.created_wall_ns = p.created_wall_ns
  root : n.supersedes = none ↔ p.supersedes = none
  superseded : dst.superseded n = src.superseded p

/-- `dst'` is `dst` with the revisions of `src` that it did not hold: each document's history is
its old one and then the revisions that were missing, in the source's order. -/
structure Unified (src dst dst' : DocumentFile) (inserted : Nat) : Prop where
  history : ∀ kind name, ∃ new, dst'.history kind name = dst.history kind name ++ new ∧
    List.Forall₂ (Imports src dst')
      ((src.history kind name).filter fun r => r.uuid ∉ dst.uuids) new
  inserted : dst'.rows.length = dst.rows.length + inserted

theorem rows_of_none {f : DocumentFile} (h : f.documents = none) : f.rows = [] := by
  rw [rows, h]
  rfl

theorem conflict_of_documents {src dst : DocumentFile} (hs : src.documents = some s)
    (hd : dst.documents = some d) : src.Conflict dst ↔ s.Conflict d := by
  have hsame : ∀ m r : DocumentRow,
      ¬(m.kind = r.kind ∧ m.name = r.name ∧ m.content = r.content) ↔ same m r = false := by
    intro m r
    rw [← same_iff, Bool.not_eq_true]
  simp only [DocumentFile.Conflict, Documents.Conflict, rows_of_documents hs,
    rows_of_documents hd, hsame]

theorem superseded_of_documents {f : DocumentFile} (ht : f.documents = some t) (r : DocumentRow) :
    f.superseded r = r.supersedes.bind fun i => (t.withId i).map (·.uuid) := by
  rw [superseded, rows_of_documents ht]
  rfl

theorem imports_of_carries {src dst' : DocumentFile} (hs : src.documents = some s)
    (ht : dst'.documents = some t) {p n : DocumentRow} (h : Carries s t p n) (hp : p ∈ s.rows) :
    Imports src dst' p n := by
  obtain ⟨hroot, hsup⟩ := h.supersedes hp
  refine ⟨h.uuid, h.kind, h.name, h.content, h.created, hroot, ?_⟩
  rw [superseded_of_documents ht, superseded_of_documents hs]
  exact hsup

theorem Merged.unified {src dst dst' : DocumentFile} (hs : src.documents = some s)
    (hd : dst.documents = some d) (ht : dst'.documents = some t) {report : CopiedDocuments}
    (h : Merged s d report t) : Unified src dst dst' report.inserted := by
  obtain ⟨c, new, hcarried, rfl⟩ := h.carried
  constructor
  · intro kind name
    refine ⟨new.filter (DocumentRow.isOf kind name), ?_, ?_⟩
    · have hgrown := history_append hcarried.rows kind name
      rw [history, history, rows_of_documents ht, rows_of_documents hd]
      exact hgrown
    · -- the revisions brought of one document are made into the rows made of it
      have himports : List.Forall₂ (fun p n => p ∈ s.rows ∧ Carries s t p n) (d.brought s.rows)
          new :=
        (List.forall₂_and_left _ _).mpr ⟨fun p hp => (mem_brought.mp hp).1, hcarried.carries⟩
      rw [filter_history hs hd]
      refine (List.rel_filter ?_ himports).imp fun p n hpn => imports_of_carries hs ht hpn.2 hpn.1
      rintro p n ⟨-, hpn⟩
      show p.isOf kind name = true ↔ n.isOf kind name = true
      rw [hpn.isOf]
  · rw [rows_of_documents ht, rows_of_documents hd, hcarried.rows, List.length_append]
    exact congrArg _ hcarried.inserted.symm

/-- The crate wrote both files, in one history of any number of files. -/
def Written (src dst : DocumentFile) : Prop :=
  ∃ (json : String → Option String) (w : Files) (events : List FileEvent) (i j : Nat),
    w.New ∧ w.run json events i = src ∧ w.run json events j = dst

theorem Written.linked {src dst : DocumentFile} (h : Written src dst) :
    src.Linked ∧ dst.Linked := by
  obtain ⟨json, w, events, i, j, hnew, rfl, rfl⟩ := h
  have hlinked : ∀ i, (w.run json events i).Linked := Files.run_linked events hnew.linked
  exact ⟨hlinked i, hlinked j⟩

/-- A copy of a file without a revision has nothing to do. -/
theorem copyDocuments_empty {src : DocumentFile} (h : src.rows = []) (dst : DocumentFile) :
    copyDocuments src dst [] = (.ok { inserted := 0, current := [], forked := [] }, dst, []) := by
  have hhas : Prog.read (Error.sqlite "failed to look for the documents table")
      (fun _ : DocumentFile => Except.ok src.documents.isSome) dst [] =
        (.ok src.documents.isSome, dst, []) := rfl
  unfold copyDocuments
  rw [Prog.run_bind_ok hhas]
  cases src.documents.isSome
  · rfl
  · rw [if_neg (by simp), h]
    rfl

/-- A file of the schema before documents refuses the first revision. -/
theorem copyDocuments_tooOld {src dst : DocumentFile} (hrows : src.rows ≠ [])
    (hdst : dst.documents = none) : copyDocuments src dst [] =
      (.err (.schemaTooOld dst.user_version DOCUMENTS_SCHEMA_VERSION), dst, []) := by
  have hversion : dst.user_version < DOCUMENTS_SCHEMA_VERSION := by
    have htable := dst.table
    rw [hdst] at htable
    exact not_le.mp (of_decide_eq_false htable.symm)
  have hsome : src.documents.isSome = true := by
    rcases hs : src.documents with _ | s
    · exact absurd (rows_of_none hs) hrows
    · rfl
  have hhas : Prog.read (Error.sqlite "failed to look for the documents table")
      (fun _ : DocumentFile => Except.ok src.documents.isSome) dst [] = (.ok true, dst, []) := by
    rw [hsome]
    rfl
  have hcheck : checkWritable dst [] =
      (.err (.schemaTooOld dst.user_version DOCUMENTS_SCHEMA_VERSION), dst, []) := by
    have hfound : Prog.read (Error.sqlite "failed to read the schema version")
        (fun f : DocumentFile => .ok f.user_version) dst [] = (.ok dst.user_version, dst, []) := rfl
    unfold checkWritable
    rw [Prog.run_bind_ok hfound, if_pos hversion]
    rfl
  obtain ⟨r, rest, hr⟩ := List.exists_cons_of_ne_nil hrows
  have hread : ∀ context, Prog.read (Error.sqlite context)
      (fun _ : DocumentFile => Except.ok ()) dst [] = (.ok (), dst, []) := fun _ => rfl
  have hrow : copyRow .start r dst [] =
      (.err (.schemaTooOld dst.user_version DOCUMENTS_SCHEMA_VERSION), dst, []) := by
    have hensure : ensure .start = checkWritable := rfl
    unfold copyRow
    rw [Prog.run_bind_ok (hread _), hensure, Prog.run_bind, hcheck]
  unfold copyDocuments
  rw [Prog.run_bind_ok hhas, if_neg (by simp), Prog.run_bind_ok (hread _), hr, Prog.foldEach,
    Prog.run_bind, Prog.run_bind, hrow]

/-- Nothing of `src` is refused by `dst`: it has the table, if there is a revision, and it holds no
revision with other contents. -/
def Takes (src dst : DocumentFile) : Prop :=
  (src.rows = [] ∨ dst.documents.isSome) ∧ ¬src.Conflict dst

/-- **A copy that nothing strikes goes through exactly where nothing of the source is refused.** -/
theorem copyDocuments_goes_iff {src dst : DocumentFile} (hs : src.Linked) (hd : dst.Linked) :
    Prog.Goes (copyDocuments src) dst (fun _ _ => src.Takes dst) fun _ _ => ¬src.Takes dst := by
  by_cases hrows : src.rows = []
  · refine .inl ⟨_, dst, copyDocuments_empty hrows dst, .inl hrows, ?_⟩
    rintro ⟨r, hr, -⟩
    rw [hrows] at hr
    cases hr
  rcases hdst : dst.documents with _ | d
  · refine .inr ⟨_, dst, copyDocuments_tooOld hrows hdst, fun htakes => ?_⟩
    rcases htakes.1 with hempty | hsome
    · exact hrows hempty
    · rw [hdst] at hsome
      cases hsome
  · obtain ⟨s, hsrc⟩ : ∃ s, src.documents = some s := by
      rcases hsrc : src.documents with _ | s
      · exact absurd (rows_of_none hsrc) hrows
      · exact ⟨s, rfl⟩
    have htable : src.rows = [] ∨ dst.documents.isSome := .inr (by rw [hdst]; rfl)
    refine (copyDocuments_goes hsrc hdst (hs s hsrc) (hd d hdst)).mono ?_ ?_
    · rintro report f' ⟨t, -, hmerged⟩
      exact ⟨htable, fun hconflict =>
        hmerged.not_conflict ((conflict_of_documents hsrc hdst).mp hconflict)⟩
    · rintro e f' hconflict
      exact fun htakes => htakes.2 ((conflict_of_documents hsrc hdst).mpr hconflict)

/-- **A copy merges two histories without loss or duplication.** Whatever strikes it, a copy that
goes through unifies them. If nothing strikes it and no uuid stands for two contents, it goes
through, and so does a second one, which adds nothing. If one does, no copy goes through, whatever
strikes it, and rolled back it leaves the documents as they were. Both files have the table: they
are of schema 5. -/
theorem copy_unifies (src dst : DocumentFile) (hw : Written src dst)
    (hs : src.documents.isSome) (hd : dst.documents.isSome) :
    (∀ faults report dst' rest, copyDocuments src dst faults = (.ok report, dst', rest) →
      Unified src dst dst' report.inserted) ∧
    (¬src.Conflict dst → ∃ report dst', copyDocuments src dst [] = (.ok report, dst', []) ∧
      Unified src dst dst' report.inserted ∧
      ∃ dst'', copyDocuments src dst' [] =
        (.ok { inserted := 0, current := [], forked := [] }, dst'', []) ∧
        dst''.documents = dst'.documents) ∧
    (src.Conflict dst → (∃ e dst', copyDocuments src dst [] = (.err e, dst', [])) ∧
      ∀ faults, (∀ report dst' rest, copyDocuments src dst faults ≠ (.ok report, dst', rest)) ∧
        src.afterCopy dst faults false = dst) := by
  obtain ⟨hslinked, hdlinked⟩ := hw.linked
  obtain ⟨s, hs⟩ := Option.isSome_iff_exists.mp hs
  obtain ⟨d, hd⟩ := Option.isSome_iff_exists.mp hd
  have hmerged : ∀ {faults report dst' rest},
      copyDocuments src dst faults = (.ok report, dst', rest) →
        ∃ t, dst'.documents = some t ∧ Merged s d report t := by
    intro faults report dst' rest hcopy
    have hruns := copyDocuments_runs hs hd (hslinked s hs) (hdlinked d hd) faults
    rw [hcopy] at hruns
    exact hruns.2
  have hgoes := copyDocuments_goes hs hd (hslinked s hs) (hdlinked d hd)
  rw [conflict_of_documents hs hd]
  refine ⟨fun faults report dst' rest hcopy => ?_, fun hnot => ?_, fun hconflict => ⟨?_, ?_⟩⟩
  · obtain ⟨t, ht, hm⟩ := hmerged hcopy
    exact hm.unified hs hd ht
  · rcases hgoes with ⟨report, dst', hcopy, t, ht, hm⟩ | ⟨e, dst', -, hconflict⟩
    · refine ⟨report, dst', hcopy, hm.unified hs hd ht, ?_⟩
      -- once more, into what the first copy left
      rcases copyDocuments_goes hs ht (hslinked s hs) hm.linked with
        ⟨report', dst'', hagain, t', ht', hm'⟩ | ⟨e, dst'', -, hconflict⟩
      · obtain ⟨rfl, rfl⟩ := hm.again hm'
        exact ⟨dst'', hagain, ht'.trans ht.symm⟩
      · exact absurd hconflict hm.settled
    · exact absurd hconflict hnot
  · rcases hgoes with ⟨report, dst', -, t, -, hm⟩ | ⟨e, dst', hcopy, -⟩
    · exact absurd hconflict hm.not_conflict
    · exact ⟨e, dst', hcopy⟩
  · have hnever : ∀ faults report dst' rest,
        copyDocuments src dst faults ≠ (.ok report, dst', rest) := by
      intro faults report dst' rest hcopy
      obtain ⟨t, -, hm⟩ := hmerged hcopy
      exact hm.not_conflict hconflict
    intro faults
    refine ⟨hnever faults, ?_⟩
    unfold afterCopy
    rcases hr : copyDocuments src dst faults with ⟨report | e | -, f, fs⟩
    · exact absurd hr (hnever faults report f fs)
    · rfl
    · rfl

/-- The combination of two archives, copied back into one of them. -/
theorem copy_unifies_combined :
    ∃ report dst', copyDocuments (created.run anyJson combined 2) (created.run anyJson combined 0)
        [] = (.ok report, dst', []) ∧
      Unified (created.run anyJson combined 2) (created.run anyJson combined 0) dst'
        report.inserted ∧
      ∃ dst'', copyDocuments (created.run anyJson combined 2) dst' [] =
        (.ok { inserted := 0, current := [], forked := [] }, dst'', []) ∧
        dst''.documents = dst'.documents :=
  (copy_unifies _ _ ⟨anyJson, created, combined, 2, 0, created_new, rfl, rfl⟩ (by decide)
    (by decide)).2.1 (by decide)

end DocumentFile

end Dendro
