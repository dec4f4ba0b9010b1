import Dendro.Writer.FaultFree
import Dendro.Writer.World

/-!
# When drops stop the writer

The thread counts the messages of data that it drops after retries, starts over whenever one
commits, and stops at `MAX_CONSECUTIVE_DROPPED_TICKS`. A tick whose batch a constraint refused is
replayed part by part, though, and there every part that is struck out is counted: a tick of
many sources counts many times, whatever its other parts committed.

`drops_stop_late` is about the runs in which no replay of several parts strikes one out: there the
thread stops only after that many messages were dropped with no commit among them. A tick of
thirty-one parts (`replay_stops_at_once`) is the other case.

How a message's calls end is settled by its faults (`Tried`): the writer tries a call four times,
so what matters of the faults is how many failures that are tried again stand in front.
-/

namespace Dendro

open WriterM

/-! ## The faults of one message -/

/-- A failure after which the writer tries again. -/
abbrev triedAgain : Fault StorageFailure → Bool := Prog.again storageError Error.isRetryable

/-- The next call fails every time it is tried. -/
def struckOut (faults : List (Fault StorageFailure)) : Bool := 3 < (faults.takeWhile triedAgain).length

/-- What is left of the faults after a call that was not struck out. -/
def afterCall (faults : List (Fault StorageFailure)) : List (Fault StorageFailure) :=
  (faults.dropWhile triedAgain).drop 1

/-- One of the next calls is struck out. -/
def strikesOut : Nat → List (Fault StorageFailure) → Bool
  | 0, _ => false
  | n + 1, faults => struckOut faults || strikesOut n (afterCall faults)

/-- A constraint refuses a transaction, as far as it is not struck out. -/
def refusedBy (w : Write) (db : Archive) (faults : List (Fault StorageFailure)) : Bool :=
  match faults.dropWhile triedAgain with
  | .fails f :: _ => (storageError f).isConstraint
  | .kill :: _ => false
  | _ => !(w.apply db).toBool

/-- How a transaction that is tried four times ends. -/
inductive Tried (w : Write) (s : WriterState) (faults : List (Fault StorageFailure)) :
    Outcome Error (Except Error Unit) × WriterState × List (Fault StorageFailure) → Prop where
  | committed {db : Archive} : w.apply s.db = .ok db →
      Tried w s faults (.ok (.ok ()), s.run w, afterCall faults)
  /-- By a constraint, or by a failure that will not clear. -/
  | refused (e : Error) {s' : WriterState} : e.isRetryable = false → (∀ text, e ≠ .message text) →
      (e.isConstraint = true → struckOut faults = false ∧ refusedBy w s.db faults = true) →
      s'.mem = s.mem → s'.disk.log = s.disk.log → s'.db = s.db →
      Tried w s faults (.ok (.error e), s', afterCall faults)
  | struck (e : Error) {rest : List (Fault StorageFailure)} : struckOut faults = true →
      e.isRetryable = true → Tried w s faults (.ok (.error e), s, rest)
  | killed {rest : List (Fault StorageFailure)} : Tried w s faults (.killed, s, rest)

/-- A transaction that only a constraint refuses. -/
def Write.OnlyConstrained (w : Write) : Prop :=
  ∀ db e, w.apply db = .error e → e.isConstraint = true

theorem Error.isConstraint_not_message {e : Error} (h : e.isConstraint = true) (text : String) :
    e ≠ .message text := by
  rintro rfl
  exact absurd h (by simp [Error.isConstraint, Error.sqliteCode, Error.root])

theorem tried {w : Write} (hw : w.OnlyConstrained) (s : WriterState)
    (faults : List (Fault StorageFailure)) :
    Tried w s faults (Prog.attempt (withRetries (commit w)) s faults) := by
  unfold Prog.attempt withRetries commit
  by_cases hstruck : 3 < (faults.takeWhile triedAgain).length
  · obtain ⟨x, rest, hx, hr⟩ := Prog.run_retry_struck (s := s) 3 faults hstruck
    rw [hr]
    exact .struck _ (decide_eq_true hstruck) hx
  · have hclear : struckOut faults = false := decide_eq_false hstruck
    have hconstraint : ∀ e s', ((s.disk.run w).1, s.run w) = (.error e, s') →
        e.isConstraint = true := by
      intro e s' h
      obtain ⟨-, ⟨db, -, hr⟩ | ⟨e', ha, hr⟩⟩ := commit_cases h
      · exact absurd hr (by simp)
      · obtain rfl := Except.error.inj hr
        exact hw _ _ ha
    have hcall := @Prog.run_retry_call _ _ _ _ Error.isRetryable storageError
      (fun s : WriterState => ((s.disk.run w).1, s.run w)) s
      (fun e s' h => Error.isConstraint_not_isRetryable (hconstraint e s' h)) 3 faults
      (not_lt.mp hstruck)
    rw [hcall]
    -- the call is made with the first fault that is not one to try again after
    have hmade : refusedBy w s.db faults = !(w.apply s.db).toBool →
        Tried w s faults (match ((s.disk.run w).1, s.run w) with
          | (.ok a, s') => (.ok (.ok a), s', afterCall faults)
          | (.error e, s') => (.ok (.error e), s', afterCall faults)) := by
      intro hrefused
      rcases ha : w.apply s.db with e | db
      · rw [run_fst, ha]
        have hc := hw _ _ ha
        refine .refused e (Error.isConstraint_not_isRetryable hc) (Error.isConstraint_not_message hc)
          (fun _ => ⟨hclear, by rw [hrefused, ha]; rfl⟩) rfl ?_ (run_db_of_error ha)
        rw [run_of_error ha]
      · rw [run_fst, ha]
        exact .committed ha
    rcases hrest : faults.dropWhile triedAgain with _ | ⟨x, rest⟩
    · have hafter : afterCall faults = [] := by rw [afterCall, hrest]; rfl
      have h := hmade (by rw [refusedBy, hrest])
      rw [hafter] at h
      rw [Prog.run_call_nil]
      rcases hx : (s.disk.run w).1 with e | a <;> rw [hx] at h <;> exact h
    · have hafter : afterCall faults = rest := by rw [afterCall, hrest]; rfl
      cases x with
      | none =>
          have h := hmade (by rw [refusedBy, hrest])
          rw [hafter] at h
          simp only [Prog.call]
          rcases hx : (s.disk.run w).1 with e | a <;> rw [hx] at h <;> exact h
      | kill => exact .killed
      | fails f =>
          have hne : Error.isRetryable (storageError f) = false := by
            have hhead := List.head?_dropWhile_not triedAgain faults
            rw [hrest] at hhead
            exact hhead
          simp only [Prog.call]
          rw [← hafter]
          refine .refused _ hne (fun text h => ?_) (fun hc => ⟨hclear, ?_⟩) rfl rfl rfl
          · exact absurd h (by simp [storageError])
          · rw [refusedBy, hrest]
            exact hc

theorem walRows_onlyConstrained (ticks : List (Int × List WalRow)) :
    (Write.walRows ticks).OnlyConstrained :=
  fun _ _ h => Archive.insertWalRowsBatch_constraint h

theorem clockOffset_onlyConstrained (source_id : Int) (ts offset : Int64) :
    (Write.clockOffset source_id ts offset).OnlyConstrained :=
  fun _ _ h => insertClockOffset_constraint h

theorem callerRows_onlyConstrained (source_id : Int) (stream : String) (rows : List CallerRow) :
    (Write.callerRows source_id stream rows).OnlyConstrained := by
  intro db e h
  change db.insertCallerRows source_id stream rows = .error e at h
  unfold Archive.insertCallerRows at h
  split at h
  · rcases Except.bind_eq_error.mp h with h | ⟨_, -, h⟩
    · exact Archive.checkSource_constraint h
    · exact absurd h Except.pure_ne_error
  · exact absurd h Except.pure_ne_error

/-! ## What one message does to the count -/

/-- What the thread stops with. -/
def stopError (n : Nat) (e : Error) : Error :=
  .message s!"the archive writer dropped {n} consecutive ticks; last error: {e.display}"

/-- A run that was stopped on account of its drops. -/
def StoppedByDrops {α : Type} (r : Outcome Error α) : Prop := ∃ n e, r = .err (stopError n e)

/-- What a message that started in `s` did to the count of drops. -/
inductive Counted {α : Type} (s : WriterState) : Outcome Error α → WriterState → Prop where
  /-- Nothing was committed, and no drop counted. -/
  | skipped {r : Outcome Error α} {s' : WriterState} : ¬StoppedByDrops r → s'.disk.log = s.disk.log →
      s'.mem.consecutive_dropped = s.mem.consecutive_dropped → Counted s r s'
  /-- Nothing was committed, and one drop counted. -/
  | dropped {r : Outcome Error α} {s' : WriterState} : s'.disk.log = s.disk.log →
      s'.mem.consecutive_dropped = s.mem.consecutive_dropped + 1 →
      (StoppedByDrops r → MAX_CONSECUTIVE_DROPPED_TICKS ≤ s'.mem.consecutive_dropped) → Counted s r s'
  /-- Something was committed, and the count starts over. -/
  | committed {r : Outcome Error α} {s' : WriterState} : ¬StoppedByDrops r →
      s'.mem.consecutive_dropped = 0 → Counted s r s'
  /-- The thread is gone for another reason. -/
  | ended {r : Outcome Error α} {s' : WriterState} : ¬StoppedByDrops r → (∀ a, r ≠ .ok a) → Counted s r s'

section Message

variable {α : Type} {s s₁ : WriterState} {faults : List (Fault StorageFailure)}

theorem ok_not_stops {a : α} : ¬StoppedByDrops (Outcome.ok a : Outcome Error α) := fun ⟨_, _, h⟩ => nomatch h

theorem killed_not_stops : ¬StoppedByDrops (Outcome.killed : Outcome Error α) := fun ⟨_, _, h⟩ => nomatch h

theorem err_not_stops {e : Error} (h : ∀ text, e ≠ .message text) :
    ¬StoppedByDrops (Outcome.err e : Outcome Error α) := fun ⟨_, _, he⟩ => h _ (Outcome.err.inj he)

theorem counted_committed (s : WriterState) : Counted s (committed s₁ faults).1 (committed s₁ faults).2.1 :=
  .committed ok_not_stops rfl

theorem counted_dropped (e : Error) (hlog : s₁.disk.log = s.disk.log)
    (hcount : s₁.mem.consecutive_dropped = s.mem.consecutive_dropped) :
    Counted s (dropped e s₁ faults).1 (dropped e s₁ faults).2.1 := by
  have hrun : dropped e s₁ faults =
      (if s₁.mem.consecutive_dropped + 1 ≥ MAX_CONSECUTIVE_DROPPED_TICKS then
        Prog.fail (stopError (s₁.mem.consecutive_dropped + 1) e) else pure () : WriterM Unit)
      { s₁ with mem := { s₁.mem with consecutive_dropped := s₁.mem.consecutive_dropped + 1 } }
      faults := rfl
  rw [hrun]
  split
  · exact .dropped hlog (congrArg Nat.succ hcount) fun _ => ‹_›
  · exact .dropped hlog (congrArg Nat.succ hcount) fun h => absurd h ok_not_stops

/-- A message of data that is one transaction counts once. -/
theorem counted_commitData {w : Write} (hw : w.OnlyConstrained) (s : WriterState)
    (faults : List (Fault StorageFailure)) :
    Counted s (commitData w s faults).1 (commitData w s faults).2.1 := by
  unfold commitData
  rw [Prog.run_bind]
  have h := tried hw s faults
  revert h
  generalize Prog.attempt (withRetries (commit w)) s faults = out
  rintro (hdb | ⟨e, hr, htext, -, hmem, hlog, -⟩ | ⟨e, -, hr⟩ | -)
  · exact counted_committed s
  · dsimp only
    rw [if_neg (by simp [hr])]
    exact .ended (err_not_stops htext) nofun
  · dsimp only
    rw [if_pos hr]
    exact counted_dropped e rfl rfl
  · exact .ended killed_not_stops nofun

/-- How one part of a replay ends. -/
inductive Replayed (any : Bool) (t : Int × List WalRow) (s : WriterState)
    (faults : List (Fault StorageFailure)) :
    Outcome Error Bool × WriterState × List (Fault StorageFailure) → Prop where
  | committed {s' : WriterState} : s'.mem = s.mem →
      Replayed any t s faults (.ok true, s', afterCall faults)
  | refused {s' : WriterState} : s'.mem = s.mem → s'.disk.log = s.disk.log →
      Replayed any t s faults (.ok any, s', afterCall faults)
  | struck (e : Error) {rest : List (Fault StorageFailure)} : struckOut faults = true →
      Replayed any t s faults ((dropped e >>= fun _ => pure any) s rest)
  | failed (e : Error) {s' : WriterState} {rest : List (Fault StorageFailure)} :
      (∀ text, e ≠ .message text) → s'.mem = s.mem → Replayed any t s faults (.err e, s', rest)
  | killed {rest : List (Fault StorageFailure)} : Replayed any t s faults (.killed, s, rest)

theorem replayed (any : Bool) (t : Int × List WalRow) (s : WriterState)
    (faults : List (Fault StorageFailure)) : Replayed any t s faults (commitSource any t s faults) := by
  unfold commitSource
  rw [Prog.run_bind]
  have htried := tried (walRows_onlyConstrained [t]) s faults
  revert htried
  generalize Prog.attempt (withRetries (commit (.walRows [t]))) s faults = out
  rintro (hdb | ⟨e, hr, htext, -, hmem, hlog, -⟩ | ⟨e, hstruck, hr⟩ | -)
  · exact .committed rfl
  · by_cases hc : e.isConstraint = true
    · simp only [hc, if_true]
      exact .refused hmem hlog
    · simp only [hc, hr, if_false, Bool.false_eq_true]
      exact .failed e htext hmem
  · have hc : ¬e.isConstraint = true := fun hc =>
      absurd hr (by simp [Error.isConstraint_not_isRetryable hc])
    simp only [hc, hr, if_false, if_true, Bool.false_eq_true]
    exact .struck e hstruck
  · exact .killed

/-- A replay that strikes no part out: the thread remembers what it did, and commits a part or
says that it did not. -/
theorem replay_clear : ∀ (parts : List (Int × List WalRow)) (any : Bool) (s : WriterState)
    (faults : List (Fault StorageFailure)), strikesOut parts.length faults = false →
    ¬StoppedByDrops (Prog.foldEach commitSource any parts s faults).1 ∧
      (Prog.foldEach commitSource any parts s faults).2.1.mem = s.mem ∧
      ((Prog.foldEach commitSource any parts s faults).1 = .ok false →
        any = false ∧ (Prog.foldEach commitSource any parts s faults).2.1.disk.log = s.disk.log)
  | [], any, s, faults, _ => ⟨ok_not_stops, rfl, fun h => ⟨Outcome.ok.inj h, rfl⟩⟩
  | t :: parts, any, s, faults, h => by
      obtain ⟨hfirst, hrest⟩ : struckOut faults = false ∧
          strikesOut parts.length (afterCall faults) = false := by
        simpa [strikesOut] using h
      have hgo : ∀ any' s', s'.mem = s.mem → (any' = false → any = false ∧ s'.disk.log = s.disk.log) →
          ¬StoppedByDrops (Prog.foldEach commitSource any' parts s' (afterCall faults)).1 ∧
          (Prog.foldEach commitSource any' parts s' (afterCall faults)).2.1.mem = s.mem ∧
          ((Prog.foldEach commitSource any' parts s' (afterCall faults)).1 = .ok false → any = false ∧
            (Prog.foldEach commitSource any' parts s' (afterCall faults)).2.1.disk.log =
              s.disk.log) := by
        intro any' s' hmem hlog
        obtain ⟨hstops, hkept, hnone⟩ := replay_clear parts any' s' (afterCall faults) hrest
        refine ⟨hstops, hkept.trans hmem, fun hok => ?_⟩
        obtain ⟨hany, hlog'⟩ := hnone hok
        exact ⟨(hlog hany).1, hlog'.trans (hlog hany).2⟩
      have hsource : Prog.foldEach commitSource any (t :: parts) s faults =
          (commitSource any t >>= fun any' => Prog.foldEach commitSource any' parts) s faults := rfl
      rw [hsource, Prog.run_bind]
      have hpart := replayed any t s faults
      revert hpart
      generalize commitSource any t s faults = out
      rintro (hmem | ⟨hmem, hlog⟩ | ⟨e, hstruck⟩ | ⟨e, htext, hmem⟩ | -)
      · exact hgo true _ hmem nofun
      · exact hgo any _ hmem fun hany => ⟨hany, hlog⟩
      · exact absurd hstruck (by simp [hfirst])
      · exact ⟨err_not_stops htext, hmem, nofun⟩
      · exact ⟨killed_not_stops, rfl, nofun⟩

/-- What follows a message's calls does not change the count. -/
theorem Counted.map {β : Type} {m : WriterM α} (h : Counted s (m s₁ faults).1 (m s₁ faults).2.1)
    (k : α → β) : Counted s ((m >>= fun a => pure (k a)) s₁ faults).1
      ((m >>= fun a => pure (k a)) s₁ faults).2.1 := by
  rw [Prog.run_bind]
  revert h
  rcases m s₁ faults with ⟨a | e | -, s', rest⟩
  · intro h
    cases h with
    | skipped _ hlog hcount => exact .skipped ok_not_stops hlog hcount
    | dropped hlog hcount _ => exact .dropped hlog hcount fun h => absurd h ok_not_stops
    | committed _ hcount => exact .committed ok_not_stops hcount
    | ended _ hok => exact absurd rfl (hok a)
  · have hstops : ∀ {r : Outcome Error α} {r' : Outcome Error β}, r = .err e → r' = .err e →
        (StoppedByDrops r' ↔ StoppedByDrops r) := by
      rintro _ _ rfl rfl
      exact ⟨fun ⟨n, e', he⟩ => ⟨n, e', congrArg _ (Outcome.err.inj he)⟩,
        fun ⟨n, e', he⟩ => ⟨n, e', congrArg _ (Outcome.err.inj he)⟩⟩
    intro h
    cases h with
    | skipped h hlog hcount => exact .skipped (mt (hstops rfl rfl).mp h) hlog hcount
    | dropped hlog hcount h => exact .dropped hlog hcount fun h' => h ((hstops rfl rfl).mp h')
    | committed h hcount => exact .committed (mt (hstops rfl rfl).mp h) hcount
    | ended h _ => exact .ended (mt (hstops rfl rfl).mp h) nofun
  · intro _
    exact .ended killed_not_stops nofun

/-- The replay of a whole tick, and the count after it. -/
theorem counted_replay {parts : List (Int × List WalRow)}
    (h : parts.length ≤ 1 ∨ strikesOut parts.length faults = false)
    (hlog : s₁.disk.log = s.disk.log)
    (hcount : s₁.mem.consecutive_dropped = s.mem.consecutive_dropped) :
    Counted s
      ((Prog.foldEach commitSource false parts >>= fun any =>
        if any then committed else pure ()) s₁ faults).1
      ((Prog.foldEach commitSource false parts >>= fun any =>
        if any then committed else pure ()) s₁ faults).2.1 := by
  by_cases hclear : strikesOut parts.length faults = false
  · obtain ⟨hstops, hmem, hnone⟩ := replay_clear parts false s₁ faults hclear
    rw [Prog.run_bind]
    revert hstops hmem hnone
    generalize Prog.foldEach commitSource false parts s₁ faults = out
    rcases out with ⟨any | e | -, s', rest⟩
    · intro _ hmem hnone
      cases any with
      | true => exact counted_committed s
      | false =>
          exact .skipped ok_not_stops ((hnone rfl).2.trans hlog) ((congrArg _ hmem).trans hcount)
    · intro hstops _ _
      exact .ended (fun ⟨n, e', he⟩ => hstops ⟨n, e', congrArg _ (Outcome.err.inj he)⟩) nofun
    · intro _ _ _
      exact .ended killed_not_stops nofun
  · -- the one part there is was struck out
    obtain ⟨t, rfl⟩ : ∃ t, parts = [t] := by
      match parts, h.resolve_right hclear with
      | [], _ => exact absurd rfl hclear
      | [t], _ => exact ⟨t, rfl⟩
    rw [Prog.run_bind]
    simp only [Prog.foldEach]
    rw [Prog.run_bind]
    have hpart := replayed false t s₁ faults
    revert hpart
    generalize commitSource false t s₁ faults = out
    rintro (hmem | ⟨hmem, hlog'⟩ | @⟨e, rest, -⟩ | ⟨e, htext, -⟩ | -)
    · exact counted_committed s
    · exact .skipped ok_not_stops (hlog'.trans hlog) ((congrArg _ hmem).trans hcount)
    · have h : Counted s (dropped e s₁ rest).1 (dropped e s₁ rest).2.1 :=
        counted_dropped e hlog hcount
      replace h := h.map fun _ => ()
      rw [Prog.run_bind] at h ⊢
      revert h
      rcases dropped e s₁ rest with ⟨_ | e' | -, s', rest'⟩ <;> exact id
    · exact .ended (err_not_stops htext) nofun
    · exact .ended killed_not_stops nofun

/-- The entries of a tick, where the message is one. -/
def Msg.entries : Msg → List (Int × List WalRow)
  | .wal ticks => ticks
  | _ => []

/-- A message counts once where it is one transaction, has at most one part, or its replay
strikes out none. -/
def CountsOnce (s : WriterState) (faults : List (Fault StorageFailure)) (msg : Msg) : Prop :=
  let parts := admitted s.mem msg.entries
  parts.length ≤ 1 ∨ struckOut faults = true ∨ refusedBy (.walRows parts) s.db faults = false ∨
    strikesOut parts.length (afterCall faults) = false

instance (s : WriterState) (faults : List (Fault StorageFailure)) (msg : Msg) :
    Decidable (CountsOnce s faults msg) :=
  inferInstanceAs (Decidable (_ ∨ _))

theorem counted_commitTick {ticks : List (Int × List WalRow)} (h : CountsOnce s faults (.wal ticks)) :
    Counted s (commitTick ticks s faults).1 (commitTick ticks s faults).2.1 := by
  let s₁ : WriterState := { s with mem := { s.mem with
    shadowed := countShadowed s.mem (ticks.filter fun t => !belowFloor s.mem t) } }
  have hremembered : remembered s faults = (.ok s.mem, s, faults) := rfl
  have hremember : remember (fun m => { m with
      shadowed := countShadowed m (ticks.filter fun t => !belowFloor s.mem t) }) s faults =
      (.ok (), s₁, faults) := rfl
  unfold commitTick
  rw [Prog.run_bind_ok hremembered]
  dsimp only
  rw [Prog.run_bind_ok hremember]
  simp only [CountsOnce, Msg.entries] at h
  generalize admitted s.mem ticks = parts at h
  split
  · exact .skipped ok_not_stops rfl rfl
  rw [Prog.run_bind]
  have htried := tried (walRows_onlyConstrained parts) s₁ faults
  revert htried
  generalize Prog.attempt (withRetries (commit (.walRows parts))) s₁ faults = out
  rintro (hdb | ⟨e, hr, htext, hrefused, hmem, hlog, hdb⟩ | ⟨e, -, hr⟩ | -)
  · exact counted_committed s
  · dsimp only
    split
    · rename_i hc
      obtain ⟨hstruck, hrefused⟩ := hrefused hc
      refine counted_replay ?_ hlog (by rw [hmem])
      rcases h with h | h | h | h
      · exact .inl h
      · exact absurd h (by simp [hstruck])
      · exact absurd hrefused (by simp [s₁, h])
      · exact .inr h
    · rw [if_neg (by simp [hr])]
      exact .ended (err_not_stops htext) nofun
  · dsimp only
    rw [if_neg, if_pos hr]
    · exact counted_dropped e rfl rfl
    · intro hc
      exact absurd hr (by simp [Error.isConstraint_not_isRetryable hc])
  · exact .ended killed_not_stops nofun

/-- Whether a message is data: what the writer was started to record. -/
def Msg.isData : Msg → Bool
  | .wal _ | .clockOffset .. | .callerRows .. => true
  | _ => false

/-- **A message of data that counts once counts at most one drop**, and only where it committed
nothing. -/
theorem counted_handle (env : Env) {msg : Msg} (hdata : msg.isData = true)
    (h : CountsOnce s faults msg) :
    Counted s (handle env msg s faults).1 (handle env msg s faults).2.1 := by
  unfold handle
  cases msg with
  | wal ticks => exact (counted_commitTick h).map fun _ => Reply.done
  | clockOffset source_id ts offset =>
      exact (counted_commitData (clockOffset_onlyConstrained _ _ _) s faults).map fun _ => Reply.done
  | callerRows source_id stream rows =>
      exact (counted_commitData (callerRows_onlyConstrained _ _ _) s faults).map fun _ => Reply.done
  | _ => exact absurd hdata (by simp [Msg.isData])

end Message

/-! ## A run of messages -/

/-- A message that the thread handled, and the states around it. -/
structure Handled where
  before : WriterState
  msg : Msg
  faults : List (Fault StorageFailure)
  after : WriterState

/-- The thread handles one message after another until one ends it. -/
def serve (env : Env) : WriterState → List (Msg × List (Fault StorageFailure)) →
    Outcome Error Unit × List Handled
  | _, [] => (.ok (), [])
  | s, d :: ds =>
      match handle env d.1 s d.2 with
      | (.ok _, s', _) =>
          let rest := serve env s' ds
          (rest.1, ⟨s, d.1, d.2, s'⟩ :: rest.2)
      | (.err e, s', _) => (.err e, [⟨s, d.1, d.2, s'⟩])
      | (.killed, s', _) => (.killed, [⟨s, d.1, d.2, s'⟩])

/-- Whether anything was committed for a message. -/
def Handled.commits (h : Handled) : Bool := h.after.disk.log.length ≠ h.before.disk.log.length

/-- Whether a drop was counted for a message. -/
def Handled.drops (h : Handled) : Bool :=
  h.before.mem.consecutive_dropped < h.after.mem.consecutive_dropped

/-- How many messages were dropped since the last that committed anything. -/
def droppedInARow (handled : List Handled) : Nat :=
  (handled.reverse.takeWhile fun h => !h.commits).countP Handled.drops

/-- A run that stops on account of its drops stops after as many messages as it says, each of
them dropped, and none since the first of them committed anything. -/
def StopsLate (run : Outcome Error Unit × List Handled) : Prop :=
  StoppedByDrops run.1 → MAX_CONSECUTIVE_DROPPED_TICKS ≤ droppedInARow run.2

section Run

variable {env : Env}

theorem droppedInARow_concat (hs : List Handled) (h : Handled) : droppedInARow (hs ++ [h]) =
    if h.commits then 0 else droppedInARow hs + if h.drops then 1 else 0 := by
  unfold droppedInARow
  rw [List.reverse_concat]
  rcases hc : h.commits with _ | _
  · rw [List.takeWhile_cons_of_pos (by simp [hc]), List.countP_cons]
    rfl
  · rw [List.takeWhile_cons_of_neg (by simp [hc])]
    rfl

/-- The count is kept by a message that counts once. -/
theorem count_le_concat {s s' : WriterState} {r : Outcome Error Reply} {hs : List Handled}
    {msg : Msg} {faults : List (Fault StorageFailure)} (hcount : Counted s r s')
    (h : s.mem.consecutive_dropped ≤ droppedInARow hs) (hr : (∃ a, r = .ok a) ∨ StoppedByDrops r) :
    s'.mem.consecutive_dropped ≤ droppedInARow (hs ++ [⟨s, msg, faults, s'⟩]) := by
  rw [droppedInARow_concat]
  cases hcount with
  | skipped _ hlog hsame => simp [Handled.commits, Handled.drops, hlog, hsame, h]
  | dropped hlog hnext _ => simp [Handled.commits, Handled.drops, hlog, hnext, h]
  | committed _ hzero =>
      rw [hzero]
      exact Nat.zero_le _
  | ended hstops hok =>
      rcases hr with ⟨a, ha⟩ | hr
      · exact absurd ha (hok a)
      · exact absurd hr hstops

/-- `before` is what was handled before the run; the count is at most what was dropped in a row. -/
theorem serve_stops_late : ∀ (ds : List (Msg × List (Fault StorageFailure))) (s : WriterState)
    (before : List Handled), s.mem.consecutive_dropped ≤ droppedInARow before →
    (∀ d ∈ ds, d.1.isData = true) →
    (∀ h ∈ (serve env s ds).2, CountsOnce h.before h.faults h.msg) →
    StoppedByDrops (serve env s ds).1 →
    MAX_CONSECUTIVE_DROPPED_TICKS ≤ droppedInARow (before ++ (serve env s ds).2)
  | [], _, _, _, _, _, hstops => absurd hstops ok_not_stops
  | d :: ds, s, before, hcount, hdata, honce, hstops => by
      obtain ⟨hd, hdata⟩ := List.forall_mem_cons.mp hdata
      have hhandle : CountsOnce s d.2 d.1 →
          Counted s (handle env d.1 s d.2).1 (handle env d.1 s d.2).2.1 := counted_handle env hd
      unfold serve at honce hstops ⊢
      rcases hr : handle env d.1 s d.2 with ⟨a | e | -, s', rest⟩ <;>
        simp only [hr] at hhandle honce hstops ⊢
      · obtain ⟨hfirst, honce⟩ := List.forall_mem_cons.mp honce
        have hnext := serve_stops_late ds s' (before ++ [⟨s, d.1, d.2, s'⟩])
          (count_le_concat (hhandle hfirst) hcount (.inl ⟨a, rfl⟩)) hdata honce hstops
        rwa [List.append_assoc, List.singleton_append] at hnext
      · have hlast := hhandle (honce ⟨s, d.1, d.2, s'⟩ (by simp))
        have hstops' : StoppedByDrops (Outcome.err e : Outcome Error Reply) := by
          obtain ⟨n, e', he⟩ := hstops
          exact ⟨n, e', congrArg _ (Outcome.err.inj he)⟩
        refine le_trans ?_ (count_le_concat hlast hcount (.inr hstops'))
        cases hlast with
        | skipped h => exact absurd hstops' h
        | dropped _ _ h => exact h hstops'
        | committed h => exact absurd hstops' h
        | ended h => exact absurd hstops' h
      · exact absurd hstops killed_not_stops

/-- **The writer stops only after as many drops in a row as it says, where every message counts
once.** -/
theorem drops_stop_late (env : Env) (s : WriterState)
    (ds : List (Msg × List (Fault StorageFailure))) (hs : s.mem.consecutive_dropped = 0)
    (hdata : ∀ d ∈ ds, d.1.isData = true)
    (honce : ∀ h ∈ (serve env s ds).2, CountsOnce h.before h.faults h.msg) :
    StopsLate (serve env s ds) :=
  fun hstops => serve_stops_late ds s [] (by rw [hs]; exact Nat.zero_le _) hdata honce hstops

end Run

/-- A call that finds the file locked each time it is tried. -/
def locked : List (Fault StorageFailure) :=
  List.replicate 4 (.fails ⟨"", .sqliteFailure .databaseBusy "database is locked"⟩)

/-- Thirty observations that all find the file locked. -/
theorem drops_stop_late_locked :
    StopsLate (serve Env.idle freshThread (List.replicate 30 (.clockOffset 1 5 0, locked))) :=
  drops_stop_late Env.idle freshThread _ rfl (by decide) (by decide +kernel)

/-- A tick whose first part names no source, so that it is replayed, and a file that is locked
from the third part on. -/
def replayedTick : Msg × List (Fault StorageFailure) :=
  (.wal ((List.range 32).map fun i =>
      (if i = 0 then 2 else 1, [{ stream := "cpu", ts := Int64.ofNat i, wall_offset := 0, row := [] }])),
    .none :: .none :: .none :: (List.replicate 30 locked).flatten)

/-- **One tick stops the writer**, and one of its parts was committed. -/
theorem replay_stops_at_once :
    ¬StopsLate (serve Env.idle firstSource [replayedTick]) := by
  intro h
  have hstops : (serve Env.idle firstSource [replayedTick]).1 = .err (stopError 30 (storageError
      ⟨"", .sqliteFailure .databaseBusy "database is locked"⟩)) := by
    decide +kernel
  exact absurd (h ⟨_, _, hstops⟩) (by decide +kernel)

end Dendro
