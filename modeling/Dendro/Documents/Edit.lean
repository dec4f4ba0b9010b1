import Dendro.Documents.Table
import Dendro.Lib.Prog

/-!
# Writing documents

`put`, `delete` and the reads they decide by. Every statement is a call that can fail; the
one that writes is the last of each operation, so an operation that gives up has written
nothing.

What SQLite hands to one write, a random uuid and its clock, is a `Stamp`; `json` is the JSON
parser's complaint about a text, if it has one.
-/

namespace Dendro

/-- A document's body and where it stands: the current revision as a reader gets it. -/
structure Document where
  id : Int
  uuid : String
  kind : String
  name : String
  schema : String
  body : String
  created_wall_ns : Int
  supersedes : Option Int
  deriving DecidableEq, Repr

/-- A revision that deleted a document. -/
structure Deletion where
  id : Int
  uuid : String
  kind : String
  name : String
  created_wall_ns : Int
  supersedes : Option Int
  deriving DecidableEq, Repr

/-- One entry in a document's history. -/
inductive Revision where
  | put (d : Document)
  | delete (d : Deletion)
  deriving DecidableEq, Repr

/-- `revision_from_row`. -/
def DocumentRow.revision (r : DocumentRow) : Revision :=
  match r.content with
  | some (schema, body) => .put { r with schema, body }
  | none => .delete { r with }

/-- The first schema with a `documents` table. -/
def DOCUMENTS_SCHEMA_VERSION : Int := 5

/-- Kinds that start with this are the crate's own. -/
def RESERVED_KIND_PREFIX : String := "dendro."

/-- An archive file as far as its documents go: its schema version, and the table, which a
file of an older schema does not have. -/
structure DocumentFile where
  user_version : Int
  documents : Option Documents
  table : documents.isSome = decide (DOCUMENTS_SCHEMA_VERSION ≤ user_version)

namespace DocumentFile

/-- A file that was just created. -/
def create : DocumentFile := ⟨5, some .empty, rfl⟩

/-- A file of the schema before documents. -/
def createV4 : DocumentFile := ⟨4, none, rfl⟩

/-- The revisions in a file. -/
def rows (f : DocumentFile) : List DocumentRow := (f.documents.map (·.rows)).getD []

/-- A file with its table replaced. -/
def withTable (f : DocumentFile) (t : Documents) (h : f.documents.isSome) : DocumentFile :=
  ⟨f.user_version, some t, by rw [← f.table, h]; rfl⟩

@[simp] theorem documents_withTable (f : DocumentFile) (t : Documents) (h) :
    (f.withTable t h).documents = some t := rfl

end DocumentFile

/-- The revision a write created. -/
structure RevisionId where
  id : Int
  uuid : String
  deriving DecidableEq, Repr

/-- What a write needs of the newest revision. -/
structure Head where
  id : Int
  uuid : String
  deleted : Bool
  deriving DecidableEq, Repr

/-- What SQLite hands to one write: `randomblob` as a uuid, and its clock. -/
structure Stamp where
  uuid : String
  now : Int
  deriving DecidableEq, Repr

/-- Programs over one file's documents. -/
abbrev DocumentM := Prog DocumentFile SqliteError Error

namespace DocumentFile

/-! ## Statements -/

/-- What SQLite says of a statement on a table that is not there. -/
def noTable : SqliteError := .sqliteFailure .unknown "no such table: documents"

/-- A statement that only reads the table. -/
def query {α : Type} (context : String) (f : Documents → α) : DocumentM α :=
  Prog.read (.sqlite context) fun file => match file.documents with
    | some t => .ok (f t)
    | none => .error (.sqlite context noTable)

/-- `has_documents`. -/
def hasDocuments : DocumentM Bool :=
  Prog.read (.sqlite "failed to look for the documents table") fun f => .ok f.documents.isSome

/-- Refuse a document write into an archive whose schema has no table. -/
def checkWritable : DocumentM Unit := do
  let found ← Prog.read (.sqlite "failed to read the schema version") fun f =>
    .ok f.user_version
  if found < DOCUMENTS_SCHEMA_VERSION then
    Prog.fail (.schemaTooOld found DOCUMENTS_SCHEMA_VERSION)

/-- The newest revision of `(kind, name)`, whole. -/
def newest (kind name : String) : DocumentM (Option Revision) :=
  query s!"failed to read document {kind}/{name}" fun t =>
    (t.newest kind name).map DocumentRow.revision

/-- What a row looks like to a write that would supersede it. -/
def headOf (r : DocumentRow) : Head :=
  { id := r.id, uuid := r.uuid, deleted := r.content.isNone }

/-- The newest revision of `(kind, name)` without its body. -/
def head (kind name : String) : DocumentM (Option Head) :=
  query s!"failed to read document {kind}/{name}" fun t => (t.newest kind name).map headOf

def mintUuid (stamp : Stamp) : DocumentM String :=
  Prog.read (.sqlite "failed to mint a uuid") fun _ => .ok stamp.uuid

def wallNowNs (stamp : Stamp) : DocumentM Int :=
  Prog.read (.sqlite "failed to read the clock") fun _ => .ok stamp.now

def insertRevision (rev : NewRevision) : DocumentM Int :=
  let context := s!"failed to write document {rev.kind}/{rev.name}"
  Prog.call (.sqlite context) fun f => match h : f.documents with
    | none => (.error (.sqlite context noTable), f)
    | some t => match t.insert rev with
      | .error e => (.error (.sqlite context e), f)
      | .ok (id, t') => (.ok id, f.withTable t' (by rw [h]; rfl))

/-! ## Operations -/

def checkKey (kind name : String) : Except Error Unit :=
  if kind.isEmpty || name.isEmpty then
    .error (.message
      s!"a document needs a kind and a name; got kind {kind.quote}, name {name.quote}")
  else if RESERVED_KIND_PREFIX.toList.isPrefixOf kind.toList then
    .error (.message
      s!"document kind {kind.quote} is reserved: kinds starting {RESERVED_KIND_PREFIX.quote} are dendro's")
  else .ok ()

def checkSchema (kind name schema : String) : Except Error Unit :=
  if schema.isEmpty then
    .error (.message s!"document {kind}/{name} needs a schema naming its body's type")
  else .ok ()

def checkJson (json : String → Option String) (kind name body : String) : Except Error Unit :=
  match json body with
  | some e => .error (.message s!"document {kind}/{name}: the body is not JSON: {e}")
  | none => .ok ()

/-- The uuid of the current document: the newest revision's, unless that is a deletion. -/
def currentUuid (head : Option Head) : Option String :=
  (head.filter fun h => !h.deleted).map (·.uuid)

/-- Refuse a write whose expectation the current document does not meet. `none` expects
nothing; `some none` expects that there is no document. -/
def checkExpected (kind name : String) (head : Option Head) :
    Option (Option String) → Except Error Unit
  | none => .ok ()
  | some expected =>
    let current := currentUuid head
    if current ≠ expected then .error (.documentConflict kind name expected current) else .ok ()

/-- Write a revision that supersedes the newest one. -/
def put (json : String → Option String) (stamp : Stamp) (kind name schema body : String)
    (expected : Option (Option String)) : DocumentM RevisionId := do
  Prog.lift (checkKey kind name)
  Prog.lift (checkSchema kind name schema)
  Prog.lift (checkJson json kind name body)
  checkWritable
  let head ← head kind name
  Prog.lift (checkExpected kind name head expected)
  let uuid ← mintUuid stamp
  let created_wall_ns ← wallNowNs stamp
  let id ← insertRevision
    { uuid, kind, name, content := some (schema, body), created_wall_ns,
      supersedes := head.map (·.id) }
  return { id, uuid }

/-- Write a deletion of the current document, if there is one. -/
def delete (stamp : Stamp) (kind name : String) : DocumentM (Option RevisionId) := do
  Prog.lift (checkKey kind name)
  if !(← hasDocuments) then return none
  match (← head kind name).filter fun h => !h.deleted with
  | none => return none
  | some current =>
    let uuid ← mintUuid stamp
    let created_wall_ns ← wallNowNs stamp
    let id ← insertRevision
      { uuid, kind, name, content := none, created_wall_ns, supersedes := some current.id }
    return some { id, uuid }

/-- The current document: its newest revision, or `none` when it has none or the newest is a
deletion. -/
def document (kind name : String) : DocumentM (Option Document) := do
  if !(← hasDocuments) then return none
  match ← newest kind name with
  | some (.put d) => return some d
  | _ => return none

end DocumentFile

end Dendro
