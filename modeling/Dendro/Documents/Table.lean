import Mathlib.Data.List.Nodup
import Dendro.Error

/-!
# The documents table

A document is named by its kind and its name, and each row of the table is one revision of
it. Rows are only ever added, each with the next id, so the table is its rows in id order:
the history of a document is a sublist of them, and its newest revision is the last of that.

What SQLite checks on insert is part of the table: ids increase, a uuid occurs once, and
`supersedes` names a row. That a revision supersedes an *earlier* revision of the *same*
document is nothing SQLite checks; it is what the crate's own writes keep, and `Linked` says
it.
-/

namespace Dendro

/-- One row. `content` is `(schema, body)`, `none` for a deletion: the table's CHECK keeps
the two NULL together. -/
structure DocumentRow where
  id : Int
  uuid : String
  kind : String
  name : String
  content : Option (String × String)
  created_wall_ns : Int
  supersedes : Option Int
  deriving DecidableEq, Repr

/-- Whether a row is a revision of this document. -/
def DocumentRow.isOf (kind name : String) (r : DocumentRow) : Bool :=
  r.kind = kind && r.name = name

theorem DocumentRow.isOf_iff {kind name : String} {r : DocumentRow} :
    r.isOf kind name = true ↔ r.kind = kind ∧ r.name = name := by
  simp [isOf]

/-- The table, listed by id. -/
structure Documents where
  rows : List DocumentRow
  /-- Ids strictly increase. -/
  sorted : rows.Pairwise fun a b => a.id < b.id
  /-- `uuid TEXT NOT NULL UNIQUE`. -/
  unique : rows.Pairwise fun a b => a.uuid ≠ b.uuid
  /-- `supersedes INTEGER REFERENCES documents(id)`. -/
  references : ∀ r ∈ rows, ∀ s, r.supersedes = some s → ∃ r' ∈ rows, r'.id = s

/-- One revision's columns. -/
structure NewRevision where
  uuid : String
  kind : String
  name : String
  content : Option (String × String)
  created_wall_ns : Int
  supersedes : Option Int

/-- The row a revision makes under an id. -/
def NewRevision.row (rev : NewRevision) (id : Int) : DocumentRow :=
  { rev with id }

namespace Documents

/-- The table with no row. -/
def empty : Documents := ⟨[], .nil, .nil, by simp⟩

theorem ext {t t' : Documents} (h : t.rows = t'.rows) : t = t' := by
  cases t; cases t'; cases h; rfl

/-! ## Queries -/

/-- The history of a document: its revisions, oldest first. -/
def history (t : Documents) (kind name : String) : List DocumentRow :=
  t.rows.filter (DocumentRow.isOf kind name)

/-- The newest revision of a document, deletion or not. -/
def newest (t : Documents) (kind name : String) : Option DocumentRow :=
  (t.history kind name).getLast?

/-- The revision with a uuid. -/
def withUuid (t : Documents) (uuid : String) : Option DocumentRow :=
  t.rows.find? (·.uuid = uuid)

/-- The revision with an id. -/
def withId (t : Documents) (id : Int) : Option DocumentRow :=
  t.rows.find? (·.id = id)

/-- `SELECT supersedes FROM documents WHERE id = ?`. -/
def supersedesOf (t : Documents) (id : Int) : Option Int :=
  (t.withId id).bind (·.supersedes)

/-- The uuids in the table. -/
def uuids (t : Documents) : List String := t.rows.map (·.uuid)

/-- The newest id there is, and 0 in the empty table. -/
def lastId (t : Documents) : Int := (t.rows.getLast?.map (·.id)).getD 0

theorem mem_uuids {t : Documents} {uuid : String} :
    uuid ∈ t.uuids ↔ ∃ r ∈ t.rows, r.uuid = uuid := by
  simp [uuids]

theorem mem_history {t : Documents} {kind name : String} {r : DocumentRow} :
    r ∈ t.history kind name ↔ r ∈ t.rows ∧ r.kind = kind ∧ r.name = name := by
  rw [history, List.mem_filter, DocumentRow.isOf_iff]

theorem mem_of_newest {t : Documents} {kind name : String} {r : DocumentRow}
    (h : t.newest kind name = some r) : r ∈ t.rows ∧ r.kind = kind ∧ r.name = name :=
  mem_history.mp (List.mem_of_getLast? h)

/-- An id is one row's. -/
theorem eq_of_id {t : Documents} {r r' : DocumentRow} (h : r ∈ t.rows) (h' : r' ∈ t.rows)
    (heq : r.id = r'.id) : r = r' := by
  have hne : (t.rows.map (·.id)).Nodup := List.pairwise_map.mpr (t.sorted.imp fun h => h.ne)
  exact List.inj_on_of_nodup_map hne h h' heq

/-- A uuid is one row's. -/
theorem eq_of_uuid {t : Documents} {r r' : DocumentRow} (h : r ∈ t.rows) (h' : r' ∈ t.rows)
    (heq : r.uuid = r'.uuid) : r = r' := by
  have hne : (t.rows.map (·.uuid)).Nodup := List.pairwise_map.mpr t.unique
  exact List.inj_on_of_nodup_map hne h h' heq

theorem withUuid_eq_some {t : Documents} {uuid : String} {r : DocumentRow} :
    t.withUuid uuid = some r ↔ r ∈ t.rows ∧ r.uuid = uuid := by
  constructor
  · intro h
    exact ⟨List.mem_of_find?_eq_some h, by simpa using List.find?_some h⟩
  · rintro ⟨hr, hu⟩
    rcases h : t.withUuid uuid with _ | r'
    · have := List.find?_eq_none.mp h r hr
      simp [hu] at this
    · have hu' : r'.uuid = uuid := by simpa using List.find?_some h
      rw [eq_of_uuid (List.mem_of_find?_eq_some h) hr (hu'.trans hu.symm)]

theorem withUuid_eq_none {t : Documents} {uuid : String} :
    t.withUuid uuid = none ↔ uuid ∉ t.uuids := by
  simp [withUuid, mem_uuids]

theorem withId_eq_some {t : Documents} {id : Int} {r : DocumentRow} :
    t.withId id = some r ↔ r ∈ t.rows ∧ r.id = id := by
  constructor
  · intro h
    exact ⟨List.mem_of_find?_eq_some h, by simpa using List.find?_some h⟩
  · rintro ⟨hr, hi⟩
    rcases h : t.withId id with _ | r'
    · have := List.find?_eq_none.mp h r hr
      simp [hi] at this
    · have hi' : r'.id = id := by simpa using List.find?_some h
      rw [eq_of_id (List.mem_of_find?_eq_some h) hr (hi'.trans hi.symm)]

theorem supersedesOf_of_mem {t : Documents} {r : DocumentRow} (hr : r ∈ t.rows) :
    t.supersedesOf r.id = r.supersedes := by
  rw [supersedesOf, withId_eq_some.mpr ⟨hr, rfl⟩]
  rfl

/-- No id is after the last. -/
theorem id_le_lastId {t : Documents} {r : DocumentRow} (hr : r ∈ t.rows) : r.id ≤ t.lastId := by
  unfold lastId
  obtain ⟨init, last, hrows⟩ : ∃ init last, t.rows = init ++ [last] :=
    ⟨_, _, (List.dropLast_append_getLast (List.ne_nil_of_mem hr)).symm⟩
  have hsorted := t.sorted
  rw [hrows] at hsorted hr ⊢
  rw [List.getLast?_concat]
  show r.id ≤ last.id
  rcases List.mem_append.mp hr with h | h
  · exact ((List.pairwise_append.mp hsorted).2.2 r h last (by simp)).le
  · rw [List.mem_singleton.mp h]

/-- The newest revision has the last id of its document's. -/
theorem id_le_newest {t : Documents} {kind name : String} {r r' : DocumentRow}
    (h : t.newest kind name = some r) (hr' : r' ∈ t.rows) (hkind : r'.kind = kind)
    (hname : r'.name = name) : r'.id ≤ r.id := by
  have hmem : r' ∈ t.history kind name := mem_history.mpr ⟨hr', hkind, hname⟩
  have hsorted : (t.history kind name).Pairwise fun a b => a.id < b.id := t.sorted.filter _
  obtain ⟨init, hinit⟩ := List.getLast?_eq_some_iff.mp h
  rw [hinit] at hmem hsorted
  rcases List.mem_append.mp hmem with h' | h'
  · exact ((List.pairwise_append.mp hsorted).2.2 r' h' r (by simp)).le
  · rw [List.mem_singleton.mp h']

/-! ## Inserting -/

/-- `INSERT INTO documents`: the row takes the next id, unless a constraint refuses it. -/
def insert (t : Documents) (rev : NewRevision) : Except SqliteError (Int × Documents) :=
  let id := t.lastId + 1
  let rows := t.rows ++ [rev.row id]
  if hu : rev.uuid ∈ t.uuids then
    .error (.sqliteFailure (.constraintViolation .other)
      "UNIQUE constraint failed: documents.uuid")
  else if hs : ∀ s, rev.supersedes = some s → ∃ r' ∈ rows, r'.id = s then
    .ok (id, {
      rows
      sorted := by
        refine List.pairwise_append.mpr ⟨t.sorted, List.pairwise_singleton _ _, ?_⟩
        intro r hr r' hr'
        rw [List.mem_singleton.mp hr']
        exact Int.lt_add_one_of_le (id_le_lastId hr)
      unique := by
        refine List.pairwise_append.mpr ⟨t.unique, List.pairwise_singleton _ _, ?_⟩
        intro r hr r' hr' heq
        rw [List.mem_singleton.mp hr'] at heq
        exact hu (mem_uuids.mpr ⟨r, hr, heq⟩)
      references := by
        intro r hr s h
        rcases List.mem_append.mp hr with hr | hr
        · obtain ⟨r', hr', hid⟩ := t.references r hr s h
          exact ⟨r', List.mem_append_left _ hr', hid⟩
        · rw [List.mem_singleton.mp hr] at h
          exact hs s h })
  else
    .error (.sqliteFailure (.constraintViolation .foreignKey) "FOREIGN KEY constraint failed")

/-- What an insert that goes through leaves. -/
theorem insert_ok {t t' : Documents} {rev : NewRevision} {id : Int}
    (h : t.insert rev = .ok (id, t')) :
    id = t.lastId + 1 ∧ t'.rows = t.rows ++ [rev.row id] ∧ rev.uuid ∉ t.uuids := by
  unfold insert at h
  dsimp only at h
  split at h
  · exact absurd h (by simp)
  · rename_i hu
    split at h
    · obtain ⟨rfl, rfl⟩ := Prod.mk.inj (Except.ok.inj h)
      exact ⟨rfl, rfl, hu⟩
    · exact absurd h (by simp)

/-- An insert goes through when the uuid is new and what it supersedes is there. -/
theorem insert_goes {t : Documents} {rev : NewRevision} (hu : rev.uuid ∉ t.uuids)
    (hs : ∀ s, rev.supersedes = some s → ∃ r ∈ t.rows, r.id = s) :
    ∃ t', t.insert rev = .ok (t.lastId + 1, t') := by
  have href : ∀ s, rev.supersedes = some s →
      ∃ r' ∈ t.rows ++ [rev.row (t.lastId + 1)], r'.id = s := by
    intro s h
    obtain ⟨r, hr, hid⟩ := hs s h
    exact ⟨r, List.mem_append_left _ hr, hid⟩
  unfold insert
  dsimp only
  rw [dif_neg hu, dif_pos href]
  exact ⟨_, rfl⟩

/-! ## Growth -/

/-- Rows were added and none was changed. -/
def Extends (t t' : Documents) : Prop := t.rows <+: t'.rows

theorem Extends.refl (t : Documents) : t.Extends t := List.prefix_rfl

theorem Extends.trans {t t' t'' : Documents} (h : t.Extends t') (h' : t'.Extends t'') :
    t.Extends t'' := List.IsPrefix.trans h h'

theorem Extends.of_append {t t' : Documents} {rows : List DocumentRow}
    (h : t'.rows = t.rows ++ rows) : t.Extends t' := ⟨rows, h.symm⟩

theorem Extends.mem {t t' : Documents} (h : t.Extends t') {r : DocumentRow} (hr : r ∈ t.rows) :
    r ∈ t'.rows := h.subset hr

theorem Extends.uuids {t t' : Documents} (h : t.Extends t') {uuid : String}
    (hu : uuid ∈ t.uuids) : uuid ∈ t'.uuids := by
  obtain ⟨r, hr, rfl⟩ := mem_uuids.mp hu
  exact mem_uuids.mpr ⟨r, h.mem hr, rfl⟩

/-- Where rows were added, the history has the added ones at its end. -/
theorem history_append {t t' : Documents} {rows : List DocumentRow} (h : t'.rows = t.rows ++ rows)
    (kind name : String) :
    t'.history kind name = t.history kind name ++ rows.filter (DocumentRow.isOf kind name) := by
  rw [history, h, List.filter_append]
  rfl

/-- A table whose history has grown has the last of what was added as its newest. -/
theorem newest_append {t t' : Documents} {rows : List DocumentRow} (h : t'.rows = t.rows ++ rows)
    (kind name : String) : t'.newest kind name =
      ((rows.filter (DocumentRow.isOf kind name)).getLast?).or (t.newest kind name) := by
  rw [newest, history_append h, List.getLast?_append]
  rfl

/-! ## Links -/

/-- Every revision supersedes an earlier revision of its own document, or none. -/
def Linked (t : Documents) : Prop :=
  ∀ r ∈ t.rows, ∀ s, r.supersedes = some s →
    ∃ r' ∈ t.rows, r'.id = s ∧ s < r.id ∧ r'.kind = r.kind ∧ r'.name = r.name

theorem Linked.empty : empty.Linked := fun _ hr => absurd hr (by simp [Documents.empty])

/-- A revision that supersedes one of its own document, or none, keeps the links. -/
theorem Linked.insert {t t' : Documents} {rev : NewRevision} {id : Int} (ht : t.Linked)
    (h : t.insert rev = .ok (id, t'))
    (hrev : ∀ s, rev.supersedes = some s →
      ∃ r ∈ t.rows, r.id = s ∧ r.kind = rev.kind ∧ r.name = rev.name) : t'.Linked := by
  obtain ⟨rfl, hrows, -⟩ := insert_ok h
  intro r hr s hs
  rw [hrows] at hr ⊢
  rcases List.mem_append.mp hr with hr | hr
  · obtain ⟨r', hr', hrest⟩ := ht r hr s hs
    exact ⟨r', List.mem_append_left _ hr', hrest⟩
  · obtain rfl := List.mem_singleton.mp hr
    obtain ⟨r', hr', rfl, hkind, hname⟩ := hrev s hs
    exact ⟨r', List.mem_append_left _ hr', rfl, Int.lt_add_one_of_le (id_le_lastId hr'), hkind,
      hname⟩

end Documents

end Dendro
