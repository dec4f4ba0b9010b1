import Mathlib
import Dendro.Documents.Edit
import Dendro.Lib.OrdMap

/-!
# Copying documents

`copy_documents` carries every revision a source holds into a destination, oldest first. A
revision whose uuid the destination holds is skipped, and must match; every other one is
inserted with its `supersedes` renumbered, and the report names the documents whose newest
revision was displaced by one that does not descend from it.

A program here runs over the destination. The source is read with one statement, so it is a
value, and reading it is still a call that can fail.
-/

namespace Dendro

/-- A document: its kind and its name. -/
abbrev DocumentKey := String ×ₗ String

/-- A document whose current revision a copy replaced with one that does not supersede it. -/
structure Fork where
  kind : String
  name : String
  displaced : String
  current : String
  deriving DecidableEq, Repr

/-- What a copy did. -/
structure CopiedDocuments where
  inserted : Nat
  current : List (String × String)
  forked : List Fork
  deriving DecidableEq, Repr

/-- Where a copy stands. -/
structure Copying where
  /-- Whether the destination was found writable. -/
  ensured : Bool
  /-- Source id to destination id. -/
  ids : OrdMap Int Int
  /-- For each document inserted into: the destination's newest revision before the first
  insert, and the id of the last revision inserted. -/
  touched : OrdMap DocumentKey (Option Head × Int)
  /-- The lowest id inserted; `⊤` stands for the `i64::MAX` it starts from. -/
  first_inserted : WithTop Int
  inserted : Nat

namespace Copying

def start : Copying where
  ensured := false
  ids := ∅
  touched := ∅
  first_inserted := ⊤
  inserted := 0

/-- One revision with `supersedes` renumbered. A pointer the source cannot resolve is carried
as unknown. -/
def revision (c : Copying) (r : DocumentRow) : NewRevision :=
  { r with supersedes := r.supersedes.bind c.ids.get? }

/-- A revision was found in the destination, under this id. -/
def held (c : Copying) (r : DocumentRow) (id : Int) : Copying :=
  { c with ensured := true, ids := c.ids.insert r.id id }

/-- A revision was inserted under an id, into a document whose newest was `before`. -/
def placed (c : Copying) (r : DocumentRow) (before : Option Head) (id : Int) : Copying where
  ensured := true
  ids := c.ids.insert r.id id
  touched := c.touched.insert (toLex (r.kind, r.name)) (before, id)
  first_inserted := min c.first_inserted id
  inserted := c.inserted + 1

end Copying

namespace Documents

/-- Whether an id is below the first one a copy inserted, if it inserted one. -/
def isBelow (cur : Int) : WithTop Int → Bool
  | none => true
  | some first => decide (cur < first)

theorem isBelow_eq_true (cur : Int) (first_new : WithTop Int) :
    isBelow cur first_new = true ↔ (cur : WithTop Int) < first_new := by
  cases first_new with
  | top => exact iff_of_true rfl (WithTop.coe_lt_top cur)
  | coe first =>
    rw [WithTop.coe_lt_coe]
    exact decide_eq_true_iff

/-- Follow `supersedes` back from a revision: whether the chain reaches `target`, and whether
it passes through a revision below `first_new`. `seen` stops a cycle, and `fuel` is what is
left of the rows to see. -/
def ancestryFrom (t : Documents) (target : Int) (first_new : WithTop Int) :
    Nat → Option Int → List Int → Bool → Bool × Bool
  | 0, _, _, shares => (false, shares)
  | _ + 1, none, _, shares => (false, shares)
  | fuel + 1, some cur, seen, shares =>
    if cur = target then (true, true)
    else
      let shares := shares || isBelow cur first_new
      if cur ∈ seen then (false, shares)
      else ancestryFrom t target first_new fuel (t.supersedesOf cur) (cur :: seen) shares

/-- A walk that sees no revision twice ends within the table. -/
def ancestry (t : Documents) (id target : Int) (first_new : WithTop Int) : Bool × Bool :=
  t.ancestryFrom target first_new (t.rows.length + 2) (some id) [] false

end Documents

namespace DocumentFile

/-- Whether a revision the destination holds is the one the source has under its uuid. -/
def same (held r : DocumentRow) : Bool :=
  held.kind = r.kind && held.name = r.name && held.content = r.content

/-- The error of a revision that both hold with different contents. -/
def differs (r : DocumentRow) : Error :=
  .message s!"document revision {r.uuid} ({r.kind}/{r.name}) is in both archives with different contents; a revision never changes, so one of the two files is wrong, and the copy cannot tell which"

/-- The newest revision of a document before this copy touched it, captured once: a later
insert of this copy must not become the baseline. -/
def baseline (c : Copying) (kind name : String) : DocumentM (Option Head) :=
  match c.touched.get? (toLex (kind, name)) with
  | some (before, _) => pure before
  | none => head kind name

/-- The destination is checked when the first revision comes. -/
def ensure (c : Copying) : DocumentM Unit :=
  if c.ensured then pure () else checkWritable

/-- Carry one revision. -/
def copyRow (c : Copying) (r : DocumentRow) : DocumentM Copying := do
  Prog.read (.sqlite "failed to read a document revision") fun _ => .ok ()
  ensure c
  match ← query "failed to look up a document revision" (·.withUuid r.uuid) with
  | some held =>
    if same held r then return c.held r held.id
    else Prog.fail (differs r)
  | none =>
    let before ← baseline c r.kind r.name
    let id ← insertRevision (c.revision r)
    return c.placed r before id

/-- Whether the newest revision a document had before the copy was displaced. -/
def forkOf (first_inserted : WithTop Int) (kind name : String) (before : Head) (last : Int) :
    DocumentM (List Fork) := do
  let (reaches, shares) ← query "failed to follow a document's history" fun t =>
    t.ancestry last before.id first_inserted
  -- a deletion with nothing in common with the incoming chain was a document no more
  if !reaches && (!before.deleted || shares) then
    let current ← head kind name
    return [{ kind, name, displaced := before.uuid, current := (current.map (·.uuid)).getD "" }]
  else return []

/-- The fork of one document the copy inserted into, if it is one. -/
def forksOf (first_inserted : WithTop Int) (e : DocumentKey × (Option Head × Int)) :
    DocumentM (List Fork) :=
  match e.2.1 with
  | none => pure []
  | some before => forkOf first_inserted (ofLex e.1).1 (ofLex e.1).2 before e.2.2

/-- Report one document the copy inserted a revision of. -/
def reportDocument (first_inserted : WithTop Int) (report : CopiedDocuments)
    (e : DocumentKey × (Option Head × Int)) : DocumentM CopiedDocuments := do
  let forked ← forksOf first_inserted e
  return {
    report with
    forked := report.forked ++ forked
    current := report.current ++ [ofLex e.1] }

/-- Carry every revision the source holds, oldest first. -/
def copyDocuments (src : DocumentFile) : DocumentM CopiedDocuments := do
  let has ← Prog.read (.sqlite "failed to look for the documents table") fun _ =>
    .ok src.documents.isSome
  if !has then return { inserted := 0, current := [], forked := [] }
  Prog.read (.sqlite "failed to query documents") fun _ => .ok ()
  let c ← Prog.foldEach copyRow .start src.rows
  Prog.read (.sqlite "failed to read a document revision") fun _ => .ok ()
  Prog.foldEach (reportDocument c.first_inserted)
    { inserted := c.inserted, current := [], forked := [] } c.touched.entries

end DocumentFile

end Dendro
