import Dendro.Lib.Prog

/-!
# Savepoints

A connection to a database keeps what is open on it: a transaction, and savepoints in it or in one
another, each with the database as it was when it was opened. A savepoint outside a transaction
opens one, and releasing it is a commit.

Every statement is a call that can fail, and a statement that fails changes nothing: not the
database, and not what is open. `nested` is the way to make several statements one. It closes its
savepoint with one more statement, or with two after a failure, and these can fail as well; then
the savepoint stays open. `nested_failsIn_iff` is that nothing else goes wrong.
-/

/-- A connection: the database as it sees it, and what is open on it, innermost first. A
transaction has no name. -/
structure Connection (σ : Type) where
  db : σ
  opened : List (Option String × σ)
  deriving DecidableEq

namespace Connection

variable {σ φ ε : Type} (wrap : φ → ε) (missing : String → ε)

/-! ## Statements -/

/-- A statement on the database. -/
def onDb (f : σ → Except ε σ) : Prog (Connection σ) φ ε Unit := Prog.call wrap fun c =>
  match f c.db with
  | .ok db => (.ok (), { c with db })
  | .error e => (.error e, c)

theorem onDb_err {f : σ → Except ε σ} {c c' : Connection σ} {faults rest : List (Fault φ)} {e : ε}
    (h : onDb wrap f c faults = (.err e, c', rest)) : c' = c := by
  rw [onDb, Prog.run_call] at h
  revert h
  rcases faults.headD .none with _ | x | -
  · rcases f c.db with e' | db
    · intro h
      injection h with _ h
      injection h with h
      exact h.symm
    · exact fun h => absurd h (by simp)
  · intro h
    injection h with _ h
    injection h with h
    exact h.symm
  · exact fun h => absurd h (by simp)

theorem onDb_ok {f : σ → Except ε σ} {c c' : Connection σ} {faults rest : List (Fault φ)}
    (h : onDb wrap f c faults = (.ok (), c', rest)) :
    f c.db = .ok c'.db ∧ c'.opened = c.opened := by
  rw [onDb, Prog.run_call] at h
  revert h
  rcases faults.headD .none with _ | x | -
  · rcases f c.db with e' | db
    · exact fun h => absurd h (by simp)
    · intro h
      injection h with _ h
      injection h with h
      subst h
      exact ⟨rfl, rfl⟩
  · exact fun h => absurd h (by simp)
  · exact fun h => absurd h (by simp)

/-- `SAVEPOINT name`. -/
def savepoint (name : String) : Prog (Connection σ) φ ε Unit := Prog.call wrap fun c =>
  (.ok (), { c with opened := (some name, c.db) :: c.opened })

/-- `RELEASE name`: the newest savepoint of that name is closed, and what was opened in it. -/
def release (name : String) : Prog (Connection σ) φ ε Unit := Prog.call wrap fun c =>
  match c.opened.dropWhile fun o => o.1 ≠ some name with
  | [] => (.error (missing name), c)
  | _ :: rest => (.ok (), { c with opened := rest })

/-- `ROLLBACK TO name`: the database is as it was when the savepoint was opened, and the savepoint
stays open. -/
def rollbackTo (name : String) : Prog (Connection σ) φ ε Unit := Prog.call wrap fun c =>
  match c.opened.dropWhile fun o => o.1 ≠ some name with
  | [] => (.error (missing name), c)
  | o :: rest => (.ok (), { db := o.2, opened := o :: rest })

/-- Several statements as one: what a failure leaves of them is rolled back, and the errors of
that are ignored. -/
def nested (name : String) (body : Prog (Connection σ) φ ε Unit) : Prog (Connection σ) φ ε Unit := do
  savepoint wrap name
  match ← Prog.attempt body with
  | .ok () => release wrap missing name
  | .error e =>
    let _ ← Prog.attempt do
      rollbackTo wrap missing name
      release wrap missing name
    Prog.fail e

/-! ## The faults that matter -/

section

variable {stmts : List (σ → Except ε σ)} {c : Connection σ} {db : σ} {faults : List (Fault φ)}
  {name : String}

/-- No statement fails under these faults before the process is killed. -/
def Spares : List (Fault φ) → Prop
  | [] => True
  | .none :: faults => Spares faults
  | .fails _ :: _ => False
  | .kill :: _ => True

/-- The faults met by what closes the savepoint of some statements: by one statement where they all
went through, by two after a failure. -/
def closing : List (σ → Except ε σ) → σ → List (Fault φ) → List (Fault φ)
  | [], _, faults => faults.take 1
  | f :: fs, db, faults =>
    match faults.headD .none with
    | .none =>
      match f db with
      | .ok db => closing fs db faults.tail
      | .error _ => faults.tail.take 2
    | .fails _ => faults.tail.take 2
    | .kill => []

/-- The savepoint is not opened, or no statement that closes it fails. -/
def Closes (stmts : List (σ → Except ε σ)) (db : σ) (faults : List (Fault φ)) : Prop :=
  faults.headD .none = .none → Spares (closing stmts db faults.tail)

/-- A run that gives up leaves a connection of this kind. -/
def FailsIn (P : Connection σ → Prop) (m : Prog (Connection σ) φ ε Unit) (c : Connection σ)
    (faults : List (Fault φ)) : Prop :=
  ∀ e c' rest, m c faults = (.err e, c', rest) → P c'

/-- How the statements end, and what then closes the savepoint. -/
inductive Body (stmts : List (σ → Except ε σ)) (c : Connection σ) (faults : List (Fault φ)) :
    Outcome ε Unit × Connection σ × List (Fault φ) → Prop where
  | done {db : σ} {rest : List (Fault φ)} : stmts.foldlM (fun db f => f db) c.db = .ok db →
      closing stmts c.db faults = rest.take 1 →
      Body stmts c faults (.ok (), { c with db }, rest)
  | stopped {e : ε} {db : σ} {rest : List (Fault φ)} :
      closing stmts c.db faults = rest.take 2 →
      Body stmts c faults (.err e, { c with db }, rest)
  | killed {c' : Connection σ} {rest : List (Fault φ)} : closing stmts c.db faults = [] →
      Body stmts c faults (.killed, c', rest)

theorem body (wrap : φ → ε) : ∀ (stmts : List (σ → Except ε σ)) (c : Connection σ)
    (faults : List (Fault φ)),
    Body stmts c faults (Prog.forEach (onDb wrap) stmts c faults)
  | [], c, faults => .done rfl rfl
  | f :: stmts, c, faults => by
      have hrun : Prog.forEach (onDb wrap) (f :: stmts) c faults =
          (onDb wrap f >>= fun _ => Prog.forEach (onDb wrap) stmts) c faults := rfl
      rw [hrun, Prog.run_bind, onDb, Prog.run_call]
      rcases hhead : faults.headD .none with _ | x | -
      · dsimp only
        rcases hf : f c.db with e | db
        · exact .stopped (by rw [closing, hhead]; simp only [hf])
        · have hclosing : closing (f :: stmts) c.db faults = closing stmts db faults.tail := by
            rw [closing, hhead]
            simp only [hf]
          have hrest := body wrap stmts { c with db } faults.tail
          dsimp only
          revert hrest
          generalize Prog.forEach (onDb wrap) stmts { c with db } faults.tail = out
          rintro (⟨hdone, hclose⟩ | hclose | hclose)
          · refine .done ?_ (hclosing.trans hclose)
            rw [List.foldlM_cons, hf]
            exact hdone
          · exact .stopped (hclosing.trans hclose)
          · exact .killed (hclosing.trans hclose)
      · exact .stopped (by rw [closing, hhead])
      · exact .killed (by rw [closing, hhead])

/-! ## Closing the savepoint -/

/-- The connection with a savepoint opened at `before`, whatever the database became. -/
def within (c : Connection σ) (name : String) (before : σ) : Connection σ :=
  { c with opened := (some name, before) :: c.opened }

theorem within_opened_ne (c : Connection σ) (name : String) (before : σ) :
    (c.within name before).opened ≠ c.opened := by
  intro h
  have hlen := congrArg List.length h
  simp only [within, List.length_cons] at hlen
  omega

theorem newest (name : String) (before : σ) (opened : List (Option String × σ)) :
    ((some name, before) :: opened).dropWhile (fun o => o.1 ≠ some name) =
      (some name, before) :: opened :=
  List.dropWhile_cons_of_neg (by simp)

theorem run_release (c : Connection σ) (name : String) (before : σ)
    (faults : List (Fault φ)) :
    release wrap missing name (c.within name before) faults = match faults.headD .none with
      | .none => (.ok (), c, faults.tail)
      | .fails x => (.err (wrap x), c.within name before, faults.tail)
      | .kill => (.killed, c.within name before, faults.tail) := by
  rw [release, Prog.run_call]
  rcases faults.headD .none with _ | x | -
  · simp only [within, newest]
  · rfl
  · rfl

theorem run_rollbackTo (c : Connection σ) (name : String) (before : σ)
    (faults : List (Fault φ)) :
    rollbackTo wrap missing name (c.within name before) faults = match faults.headD .none with
      | .none => (.ok (), { c with db := before }.within name before, faults.tail)
      | .fails x => (.err (wrap x), c.within name before, faults.tail)
      | .kill => (.killed, c.within name before, faults.tail) := by
  rw [rollbackTo, Prog.run_call]
  rcases faults.headD .none with _ | x | -
  · simp only [within, newest]
  · rfl
  · rfl

/-- What is rolled back and closed is as it was, unless one of the two statements fails: then the
savepoint is still there. -/
theorem rolled_back (c : Connection σ) (name : String) (before : σ) (faults : List (Fault φ)) :
    (∃ r c' rest, Prog.attempt (rollbackTo wrap missing name >>= fun _ => release wrap missing name)
        (c.within name before) faults = (.ok r, c', rest) ∧
      (Spares (faults.take 2) ∧ c' = { c with db := before } ∨
        ¬Spares (faults.take 2) ∧ c'.opened ≠ c.opened)) ∨
    (∃ c' rest, Prog.attempt (rollbackTo wrap missing name >>= fun _ => release wrap missing name)
        (c.within name before) faults = (.killed, c', rest) ∧ Spares (faults.take 2)) := by
  have hopen := within_opened_ne c name before
  rw [Prog.attempt, Prog.run_bind, run_rollbackTo]
  rcases faults with _ | ⟨_ | x | -, faults⟩
  · simp only [List.headD_nil, run_release, List.tail_nil]
    exact .inl ⟨_, _, _, rfl, .inl ⟨trivial, rfl⟩⟩
  · simp only [List.headD_cons, run_release, List.tail_cons]
    rcases faults with _ | ⟨_ | x | -, faults⟩
    · exact .inl ⟨_, _, _, rfl, .inl ⟨trivial, rfl⟩⟩
    · exact .inl ⟨_, _, _, rfl, .inl ⟨trivial, rfl⟩⟩
    · exact .inl ⟨_, _, _, rfl, .inr ⟨id, hopen⟩⟩
    · exact .inr ⟨_, _, rfl, trivial⟩
  · exact .inl ⟨_, _, _, rfl, .inr ⟨id, hopen⟩⟩
  · exact .inr ⟨_, _, rfl, trivial⟩

/-- The savepoint, then the body in it, then what closes it. -/
theorem run_nested (m : Prog (Connection σ) φ ε Unit) :
    nested wrap missing name m c faults = match faults.headD .none with
      | .none => match m (c.within name c.db) faults.tail with
        | (.ok (), c', rest) => release wrap missing name c' rest
        | (.err e, c', rest) =>
          (Prog.attempt (rollbackTo wrap missing name >>= fun _ => release wrap missing name) >>=
            fun _ => Prog.fail e) c' rest
        | (.killed, c', rest) => (.killed, c', rest)
      | .fails x => (.err (wrap x), c, faults.tail)
      | .kill => (.killed, c, faults.tail) := by
  rw [nested, Prog.run_bind, savepoint, Prog.run_call]
  rcases faults.headD .none with _ | x | -
  · dsimp only
    rw [show ({ c with opened := (some name, c.db) :: c.opened } : Connection σ) =
      c.within name c.db from rfl, Prog.run_bind, Prog.attempt]
    rcases m (c.within name c.db) faults.tail with ⟨a | e | -, c', rest⟩ <;> rfl
  · rfl
  · rfl

/-- How several statements as one end: all of them made, or none, or with the savepoint still
open. -/
inductive Nested (stmts : List (σ → Except ε σ)) (c : Connection σ) (faults : List (Fault φ)) :
    Outcome ε Unit × Connection σ × List (Fault φ) → Prop where
  | done {db : σ} {rest : List (Fault φ)} : stmts.foldlM (fun db f => f db) c.db = .ok db →
      Closes stmts c.db faults → Nested stmts c faults (.ok (), { c with db }, rest)
  | undone {e : ε} {rest : List (Fault φ)} : Closes stmts c.db faults →
      Nested stmts c faults (.err e, c, rest)
  | leftOpen {e : ε} {c' : Connection σ} {rest : List (Fault φ)} : ¬Closes stmts c.db faults →
      c'.opened ≠ c.opened → Nested stmts c faults (.err e, c', rest)
  | killed {c' : Connection σ} {rest : List (Fault φ)} : Closes stmts c.db faults →
      Nested stmts c faults (.killed, c', rest)

theorem nested_ends : Nested stmts c faults
    (nested wrap missing name (Prog.forEach (onDb wrap) stmts) c faults) := by
  have hcloses : faults.headD .none = .none →
      (Closes stmts c.db faults ↔ Spares (closing stmts c.db faults.tail)) :=
    fun hhead => forall_prop_of_true hhead
  rw [run_nested]
  rcases hhead : faults.headD .none with _ | x | -
  · specialize hcloses hhead
    have hbody := body wrap stmts (c.within name c.db) faults.tail
    dsimp only
    revert hbody
    generalize Prog.forEach (onDb wrap) stmts (c.within name c.db) faults.tail = out
    rintro (@⟨db, rest, hdone, hclose⟩ | @⟨e, db, rest, hclose⟩ | hclose)
    · -- the statements went through: one more closes the savepoint
      replace hclose : closing stmts c.db faults.tail = rest.take 1 := hclose
      rw [hclose] at hcloses
      have hopen := within_opened_ne { c with db := db } name c.db
      show Nested stmts c faults (release wrap missing name
        (({ c with db := db } : Connection σ).within name c.db) rest)
      rw [run_release]
      rcases rest with _ | ⟨_ | x | -, rest⟩
      · exact .done hdone (hcloses.mpr trivial)
      · exact .done hdone (hcloses.mpr trivial)
      · exact .leftOpen hcloses.mp hopen
      · exact .killed (hcloses.mpr trivial)
    · -- one of them failed: two more take back what it left
      replace hclose : closing stmts c.db faults.tail = rest.take 2 := hclose
      rw [hclose] at hcloses
      show Nested stmts c faults ((Prog.attempt (rollbackTo wrap missing name >>= fun _ =>
        release wrap missing name) >>= fun _ => Prog.fail e)
          (({ c with db := db } : Connection σ).within name c.db) rest)
      rw [Prog.run_bind]
      obtain ⟨r, c', rest', hrun, ⟨hspares, rfl⟩ | ⟨hfails, hopen⟩⟩ | ⟨c', rest', hrun, hspares⟩ :=
        rolled_back wrap missing { c with db := db } name c.db rest
      · rw [hrun]
        exact .undone (hcloses.mpr hspares)
      · rw [hrun]
        exact .leftOpen (fun h => hfails (hcloses.mp h)) hopen
      · rw [hrun]
        exact .killed (hcloses.mpr hspares)
    · replace hclose : closing stmts c.db faults.tail = [] := hclose
      rw [hclose] at hcloses
      exact .killed (hcloses.mpr trivial)
  · exact .undone fun h => absurd (hhead.symm.trans h) (by simp)
  · exact .killed fun h => absurd (hhead.symm.trans h) (by simp)

/-- **Several statements as one give up cleanly exactly when their savepoint can be closed.** What
is asked of the connection they leave can be anything that holds of the one they met and that
tells the two apart when a savepoint was left open. -/
theorem nested_failsIn_iff {P : Connection σ → Prop} (hc : P c)
    (hP : ∀ c', P c' → c'.opened = c.opened) :
    FailsIn P (nested wrap missing name (Prog.forEach (onDb wrap) stmts)) c faults ↔
      Closes stmts c.db faults := by
  have hends := @nested_ends σ φ ε wrap missing stmts c faults name
  rw [FailsIn]
  revert hends
  generalize nested wrap missing name (Prog.forEach (onDb wrap) stmts) c faults = out
  rintro (⟨-, hcloses⟩ | hcloses | ⟨hopen, hne⟩ | hcloses)
  · exact iff_of_true (fun e c' rest h => absurd h (by simp)) hcloses
  · refine iff_of_true (fun e c' rest h => ?_) hcloses
    injection h with _ h
    injection h with h
    exact h ▸ hc
  · exact iff_of_false (fun h => hne (hP _ (h _ _ _ rfl))) hopen
  · exact iff_of_true (fun e c' rest h => absurd h (by simp)) hcloses

/-- Several statements as one that went through made all of them, and left nothing open. -/
theorem nested_ok {c' : Connection σ} {rest : List (Fault φ)}
    (h : nested wrap missing name (Prog.forEach (onDb wrap) stmts) c faults = (.ok (), c', rest)) :
    stmts.foldlM (fun db f => f db) c.db = .ok c'.db ∧ c'.opened = c.opened := by
  have hends := @nested_ends σ φ ε wrap missing stmts c faults name
  rw [h] at hends
  cases hends with
  | done hdone => exact ⟨hdone, rfl⟩

end

end Connection
