import Mathlib.Logic.Function.Basic
import Dendro.Documents.Chain
import Dendro.Documents.CopyProof

/-!
# Files that the crate writes

A collection of archive files, each new at the start, and what the crate does to them: an
editor's call, a copy of one file's documents into another, a copy of a whole file. After any
of it the links of every file stand: a revision supersedes an earlier one of its own document
(`run_linked`). A copy that fails is rolled back, unless its caller keeps what it inserted.
-/

namespace Dendro

/-- The files, by number. -/
abbrev Files := Nat → DocumentFile

/-- What the crate can do to the files. -/
inductive FileEvent where
  | edit (file : Nat) (e : Edit)
  /-- `copy_documents_into`; `kept` says that a failed copy's transaction is committed as it
  stands. -/
  | copy (src dst : Nat) (faults : List (Fault SqliteError)) (kept : Bool)
  /-- `vacuum_into` and `serialize` copy a file whole. -/
  | duplicate (src dst : Nat)
  deriving DecidableEq, Repr

/-- The destination after a copy: a copy that gives up is rolled back unless it is kept. -/
def DocumentFile.afterCopy (src dst : DocumentFile) (faults : List (Fault SqliteError))
    (kept : Bool) : DocumentFile :=
  match copyDocuments src dst faults with
  | (.ok _, f, _) => f
  | (.err _, f, _) => if kept then f else dst
  | (.killed, _, _) => dst

namespace Files

section

variable (json : String → Option String)

def apply (w : Files) : FileEvent → Files
  | .edit file e => Function.update w file (e.apply json (w file))
  | .copy src dst faults kept =>
    Function.update w dst ((w src).afterCopy (w dst) faults kept)
  | .duplicate src dst => Function.update w dst (w src)

/-- A history of the files. -/
def run (w : Files) (events : List FileEvent) : Files := events.foldl (apply json) w

end

/-- Every file is new, of this schema or of the one before documents. -/
def New (w : Files) : Prop := ∀ i, w i = .create ∨ w i = .createV4

end Files

namespace DocumentFile

/-- The links of a file stand. -/
def Linked (f : DocumentFile) : Prop := ∀ t, f.documents = some t → t.Linked

theorem Linked.create : create.Linked := by
  intro t ht
  obtain rfl := Option.some.inj ht
  exact .empty

/-- An editor's write keeps the links. -/
theorem Revised.linked {f f' : DocumentFile} (h : Revised f f') (hf : f.Linked) : f'.Linked := by
  cases h with
  | unchanged h => exact h ▸ hf
  | superseded rev id hwrote hnewest =>
      obtain ⟨t, t', ht, ht', hins⟩ := hwrote.tables
      intro t'' ht''
      obtain rfl : t' = t'' := Option.some.inj (ht'.symm.trans ht'')
      refine (hf t ht).insert hins fun i hi => ?_
      rw [hnewest, history, rows_of_documents ht] at hi
      obtain ⟨r, hr, rfl⟩ := Option.map_eq_some_iff.mp hi
      obtain ⟨hmem, hkind, hname⟩ := Documents.mem_of_newest hr
      exact ⟨r, hmem, rfl, hkind, hname⟩

/-- Without a table nothing can be written. -/
theorem insertRevision_keeps {f : DocumentFile} (hf : f.documents = none) (rev : NewRevision) :
    Prog.Keeps (insertRevision rev) f (· = f) := by
  refine (insertRevision_ends rev f).mono ?_
  rintro r f' (⟨id, -, hwrote⟩ | ⟨-, rfl⟩)
  · obtain ⟨t, t', ht, -⟩ := hwrote.tables
    exact absurd (ht.symm.trans hf) (by simp)
  · rfl

theorem forksOf_keeps (first_inserted : WithTop Int) (e : DocumentKey × (Option Head × Int))
    (f : DocumentFile) : Prog.Keeps (forksOf first_inserted e) f (· = f) := by
  unfold forksOf
  split
  · exact .pure rfl
  unfold forkOf
  refine .read_bind rfl fun a _ => ?_
  split
  split
  · exact .read_bind rfl fun _ _ => .pure rfl
  · exact .pure rfl

/-- A copy into a file without a table leaves it alone. -/
theorem copyDocuments_keeps (src : DocumentFile) {f : DocumentFile} (hf : f.documents = none) :
    Prog.Keeps (copyDocuments src) f (· = f) := by
  unfold copyDocuments
  refine .read_bind rfl fun has _ => ?_
  split
  · exact .pure rfl
  refine .read_bind rfl fun _ _ => ?_
  refine .bind (.foldEach (fun r _ c f' hf' => ?_) rfl) ?_
  · obtain rfl : f' = f := hf'
    unfold copyRow
    refine .read_bind rfl fun _ _ => ?_
    refine .bind ?_ ?_
    · unfold ensure
      split
      · exact .pure rfl
      · exact checkWritable_ends f'
    rintro _ f' rfl
    refine .read_bind rfl fun held _ => ?_
    split
    · split
      · exact .pure rfl
      · exact .fail rfl
    · refine .bind ?_ ?_
      · unfold baseline
        split
        · exact .pure rfl
        · exact .read (fun _ _ => rfl) (fun _ => rfl) rfl
      rintro _ f' rfl
      exact .bind (insertRevision_keeps hf _) fun _ _ h => .pure h
  rintro c f' rfl
  refine .read_bind rfl fun _ _ => ?_
  refine .foldEach (fun e _ report f'' hf'' => ?_) rfl
  obtain rfl : f'' = f' := hf''
  exact .bind (forksOf_keeps _ e f'') fun _ _ h => .pure h

/-- A copy leaves the links standing, wherever it stops. -/
theorem copyDocuments_linked {src f : DocumentFile} (hsrc : src.Linked) (hf : f.Linked) :
    Prog.Runs (fun _ _ => True) (copyDocuments src) f (fun _ f' => f'.Linked)
      fun _ f' => f'.Linked := by
  rcases hd : f.documents with _ | d
  · refine (copyDocuments_keeps src hd).runs.mono ?_ ?_ <;>
    · rintro _ f' rfl
      exact hf
  rcases hs : src.documents with _ | s
  · unfold copyDocuments
    refine .bind (Q := fun has f' => f' = f ∧ has = false) (.read (fun has hhas => ?_)
      (fun _ _ => hf) fun _ => hf) ?_
    · rw [hs] at hhas
      exact ⟨rfl, (Except.ok.inj hhas).symm⟩
    rintro _ f ⟨rfl, rfl⟩
    exact .pure hf
  · refine (copyDocuments_runs hs hd (hsrc s hs) (hf d hd)).mono ?_ ?_
    · rintro report f' ⟨t, ht, hmerged⟩ t' ht'
      obtain rfl := Option.some.inj (ht.symm.trans ht')
      exact hmerged.linked
    · rintro _ f' ⟨rest, c, done, new, t, -, ht, -, hlinked⟩ t' ht'
      obtain rfl := Option.some.inj (ht.symm.trans ht')
      exact hlinked

theorem afterCopy_linked {src dst : DocumentFile} (hsrc : src.Linked) (hdst : dst.Linked)
    (faults : List (Fault SqliteError)) (kept : Bool) :
    (src.afterCopy dst faults kept).Linked := by
  have h := copyDocuments_linked hsrc hdst faults
  unfold afterCopy
  rcases hr : copyDocuments src dst faults with ⟨a | e | -, f, fs⟩ <;> rw [hr] at h
  · exact h.2
  · dsimp only
    split
    · exact h.2
    · exact hdst
  · exact hdst

end DocumentFile

namespace Files

open DocumentFile

variable {json : String → Option String}

theorem apply_linked {w : Files} (hw : ∀ i, (w i).Linked) (event : FileEvent) :
    ∀ i, (w.apply json event i).Linked := by
  have hupdate : ∀ {file f}, DocumentFile.Linked f →
      ∀ i, (Function.update w file f i).Linked := by
    intro file f hf i
    rcases eq_or_ne i file with rfl | hne
    · rwa [Function.update_self]
    · rw [Function.update_of_ne hne]
      exact hw i
  cases event with
  | edit file e => exact hupdate ((apply_revised json e (w file)).linked (hw file))
  | copy src dst faults kept => exact hupdate (afterCopy_linked (hw src) (hw dst) faults kept)
  | duplicate src dst => exact hupdate (hw src)

/-- **After any history of the files, every link stands.** -/
theorem run_linked : ∀ (events : List FileEvent) {w : Files}, (∀ i, (w i).Linked) →
    ∀ i, (w.run json events i).Linked
  | [], _, hw => hw
  | event :: events, _, hw => run_linked events (apply_linked hw event)

theorem New.linked {w : Files} (h : w.New) (i : Nat) : (w i).Linked := by
  rcases h i with hi | hi
  · exact hi ▸ .create
  · rw [hi]
    exact nofun

end Files

end Dendro
