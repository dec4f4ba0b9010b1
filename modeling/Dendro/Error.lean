import Mathlib.Order.Defs.LinearOrder
import Dendro.Lib.Word

/-!
# Errors of archive operations

The error enumeration of `error.rs`, with SQLite's primary result codes: the writer's
recovery policy (retry, isolate one source, stop) is a classification of these.
-/

namespace Dendro

/-- Which constraint a write violated. All of them carry SQLite's one primary code. -/
inductive Constraint where
  /-- A row with the primary key is there already. -/
  | primaryKey
  /-- The row names a source that is not there. -/
  | foreignKey
  /-- Any other constraint. -/
  | other
  deriving DecidableEq, Repr

/-- SQLite's primary result code, as `rusqlite::ErrorCode` names it. -/
inductive ErrorCode where
  | internalMalfunction | permissionDenied | operationAborted | databaseBusy | databaseLocked
  | outOfMemory | readOnly | operationInterrupted | systemIoFailure | databaseCorrupt | notFound
  | diskFull | cannotOpen | fileLockingProtocolFailed | schemaChanged | tooBig
  | constraintViolation (which : Constraint)
  | typeMismatch | apiMisuse | noLargeFileSupport | authorizationForStatementDenied
  | parameterOutOfRange | notADatabase | unknown
  deriving DecidableEq, Repr

/-- `rusqlite::Error`, with the text it prints: a result code of SQLite's, or an error
raised without one. -/
inductive SqliteError where
  | sqliteFailure (code : ErrorCode) (text : String)
  | other (text : String)
  deriving DecidableEq, Repr

/-- What a SQLite error prints. -/
def SqliteError.display : SqliteError → String
  | .sqliteFailure _ text => text
  | .other text => text

/-- An error from an archive operation. -/
inductive Error where
  | alreadyExists (path : String)
  | readOnly
  | unsupportedSchema (found writes reads : Int)
  | encoderMismatch (source_id : Int) (wrote reading : String)
  | timelineBackwards (source_id : Int) (ts floor : Int64)
  | inUse (what : String)
  | notAnArchive (what reason : String)
  /-- The caller's encoder failed; `source` stands for its own error. -/
  | encoder (stream source : String)
  | encoderContract (stream detail : String)
  | schemaTooOld (found needs : Int)
  | documentConflict (kind name : String) (expected current : Option String)
  /-- The writer thread failed, and this is what it failed with. -/
  | writer (inner : Error)
  | writerGone
  | sqlite (context : String) (source : SqliteError)
  | message (text : String)
  deriving DecidableEq, Repr

/-- `{:?}` of an optional string. -/
def debugOption : Option String → String
  | some s => s!"Some({s.quote})"
  | none => "None"

/-- What an error prints. -/
def Error.display : Error → String
  | .alreadyExists path => s!"{path} already exists"
  | .readOnly =>
      "this archive is on read-only media; open it with `Archive::open` to read it"
  | .unsupportedSchema found writes reads =>
      s!"unsupported archive schema version {found}: this build writes v{writes} and reads v{reads}"
  | .encoderMismatch source_id wrote reading =>
      s!"source {source_id} was written with encoder version {wrote.quote} and is being read with {reading.quote}; the rows are the encoder's bytes, so a different version is not guaranteed to decode them the same way"
  | .timelineBackwards source_id ts floor =>
      s!"source {source_id}: timestamp {ts} is not after the newest row its previous writer session left ({floor}); the clock went backwards across the restart, and rows would collide or run backwards"
  | .inUse what =>
      s!"{what} is held by another connection: an exclusive open needs the file to itself, and nothing can open a file an exclusive handle holds"
  | .notAnArchive what reason => s!"{what}: not a dendro archive: {reason}"
  | .encoder stream source => s!"failed to encode a {stream} segment: {source}"
  | .encoderContract stream detail =>
      s!"the encoder returned a segment for {stream} that does not describe the rows it was given: {detail}"
  | .schemaTooOld found needs =>
      s!"this archive is schema v{found}, and the write needs v{needs}; an archive is never migrated in place, so copy it into a new archive (which is v{needs}) and write there"
  | .documentConflict kind name expected current =>
      s!"document {kind}/{name}: expected current revision {debugOption expected}, the archive holds {debugOption current}; another revision was written after it was read"
  | .writer inner => inner.display
  | .writerGone => "the archive writer thread exited before the source finished"
  | .sqlite context source =>
      if context.isEmpty then source.display else s!"{context}: {source.display}"
  | .message text => text

/-- The underlying failure, looking through `writer`. -/
def Error.root : Error → Error
  | .writer inner => inner.root
  | other => other

/-- SQLite's primary result code, when this error is SQLite's. -/
def Error.sqliteCode (e : Error) : Option ErrorCode :=
  match e.root with
  | .sqlite _ (.sqliteFailure code _) => some code
  | _ => none

/-- A condition that can clear on its own, so a retry can succeed. -/
def Error.isRetryable (e : Error) : Bool :=
  match e.sqliteCode with
  | some .databaseBusy | some .databaseLocked | some .diskFull | some .systemIoFailure
  | some .outOfMemory | some .operationInterrupted | some .schemaChanged => true
  | _ => false

/-- A constraint violation: the row is wrong, the database is fine. -/
def Error.isConstraint (e : Error) : Bool :=
  match e.sqliteCode with
  | some (.constraintViolation _) => true
  | _ => false

/-- The two recoveries are exclusive: a constraint never clears on its own. -/
theorem Error.isConstraint_not_isRetryable {e : Error} (h : e.isConstraint = true) :
    e.isRetryable = false := by
  unfold isConstraint at h
  unfold isRetryable
  split at h
  · rename_i c hc; rw [hc]
  · exact absurd h (by simp)

/-- Wrapping by the writer thread keeps the classification. -/
@[simp] theorem Error.isRetryable_writer (e : Error) :
    (Error.writer e).isRetryable = e.isRetryable := rfl

@[simp] theorem Error.isConstraint_writer (e : Error) :
    (Error.writer e).isConstraint = e.isConstraint := rfl

end Dendro
