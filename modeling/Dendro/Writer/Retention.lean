import Mathlib.Data.Set.Card
import Dendro.Writer.World

/-!
# Held streams

A seal that fails in a way that can clear is deferred, and its streams are held: retention
leaves them out until they have sealed, or failed for good. The thread keeps the list of
them by hand, over the seals it is asked for and those it makes itself before each eviction.

What the list should be is said by the attempts alone (`held`): a stream is held when the
last attempt to seal it was deferred. `deferred_exact` is that the list is just that, and
`retention_leaves_held` what an eviction then does to every stream.
-/

namespace Dendro

open WriterM Relation

/-! ## What becomes of a stream -/

/-- A stream has lost nothing: it may have sealed segments besides. -/
structure Archive.Keeps (a a' : Archive) (k : StreamKey) : Prop where
  segments : ∀ seq c, (a.catalog k).get? seq = some c → (a'.catalog k).get? seq = some c
  wal : a'.walOf k = a.walOf k
  caller_rows : a'.callerRowsOf k = a.callerRowsOf k

/-- A stream and the caller's rows of its name are as they were. -/
structure Archive.Untouched (a a' : Archive) (k : StreamKey) : Prop extends Archive.Same a a' k where
  caller_rows : a'.callerRowsOf k = a.callerRowsOf k

/-- A stream cut by an eviction: at the cutoff, and its caller rows where the floor, asked for
the oldest row that is left, allows it. -/
structure Archive.EvictedAt (a a' : Archive) (source_id : Int) (stream : String)
    (cutoff_ts : Int64) (floor : Option Archive.CallerRowFloor) : Prop
    extends Archive.CutAt a a' (streamKey source_id stream) cutoff_ts where
  caller_rows : a'.callerRowsOf (streamKey source_id stream) =
    (a.callerRowsOf (streamKey source_id stream)).filter fun r =>
      !decide (r.ts < a'.callerRowCut source_id stream cutoff_ts floor)

namespace Archive

variable {a b c : Archive} {k : StreamKey}

theorem Keeps.refl (a : Archive) (k : StreamKey) : Keeps a a k := ⟨fun _ _ h => h, rfl, rfl⟩

theorem Keeps.trans (h : Keeps a b k) (h' : Keeps b c k) : Keeps a c k :=
  ⟨fun seq s hs => h'.segments seq s (h.segments seq s hs), h'.wal.trans h.wal,
    h'.caller_rows.trans h.caller_rows⟩

theorem Untouched.refl (a : Archive) (k : StreamKey) : Untouched a a k := ⟨.refl a k, rfl⟩

theorem Untouched.trans (h : Untouched a b k) (h' : Untouched b c k) : Untouched a c k :=
  ⟨h.toSame.trans h'.toSame, h'.caller_rows.trans h.caller_rows⟩

theorem Untouched.keeps (h : Untouched a b k) : Keeps a b k :=
  ⟨fun _ _ hs => by rw [h.catalog]; exact hs, h.wal, h.caller_rows⟩

theorem callerRowsOf_congr (h : b.caller_rows = a.caller_rows) (k : StreamKey) :
    b.callerRowsOf k = a.callerRowsOf k := by
  rw [callerRowsOf, callerRowsOf, h]

end Archive

/-! ## Sealing one stream -/

section

variable {env : Env} {s s₀ : WriterState} {source_id : Int} {stream : String}

theorem ends_commit {w : Write} {P : Outcome Error Unit → WriterState → Prop}
    (hok : ∀ db, w.apply s.db = .ok db → P (.ok ()) (s.run w))
    (herr : ∀ e, w.apply s.db = .error e → P (.err e) (s.run w)) (hfail : ∀ e, P (.err e) s)
    (hkill : P .killed s) : Prog.Ends (commit w) s P := by
  refine .call (fun _ s' h => ?_) (fun e s' h => ?_) hfail hkill
  · obtain ⟨rfl, ⟨db, ha, -⟩ | ⟨e, -, he⟩⟩ := commit_cases h
    · exact hok db ha
    · exact absurd he (by simp)
  · obtain ⟨rfl, ⟨db, -, hr⟩ | ⟨e', ha, hr⟩⟩ := commit_cases h
    · exact absurd hr (by simp)
    · obtain rfl := Except.error.inj hr
      exact herr e ha

/-- What an attempt to seal one stream leaves of the rest, and of what is deferred. -/
structure Aside (k : StreamKey) (s₀ s : WriterState) : Prop where
  others : ∀ k' ≠ k, Archive.Same s₀.db s.db k'
  caller_rows : s.db.caller_rows = s₀.db.caller_rows
  deferred : s.mem.deferred = s₀.mem.deferred

theorem Aside.refl (k : StreamKey) (s : WriterState) : Aside k s s := ⟨fun _ _ => .refl _ _, rfl, rfl⟩

theorem Aside.untouched {k k' : StreamKey} (h : Aside k s₀ s) (hk : k' ≠ k) :
    Archive.Untouched s₀.db s.db k' :=
  ⟨h.others k' hk, Archive.callerRowsOf_congr h.caller_rows k'⟩

/-- How an attempt to seal one stream ends: nothing else is touched, and unless it returned
the stream itself has lost nothing. -/
structure SealEnds (k : StreamKey) (s₀ : WriterState) (r : Outcome Error Unit) (s : WriterState) :
    Prop extends Aside k s₀ s where
  keeps : r ≠ .ok () → Archive.Keeps s₀.db s.db k

theorem Aside.run {k : StreamKey} (h : Aside k s₀ s) {w : Write} {db : Archive}
    (hdb : w.apply s.db = .ok db) (hother : ∀ k' ≠ k, Archive.Same s.db db k')
    (hcaller : db.caller_rows = s.db.caller_rows) : Aside k s₀ (s.run w) := by
  rw [run_of_ok hdb]
  exact ⟨fun k' hk' => (h.others k' hk').trans (hother k' hk'), hcaller.trans h.caller_rows,
    h.deferred⟩

theorem run_of_error_db {w : Write} {e : Error} (h : w.apply s.db = .error e) :
    (s.run w).db = s.db ∧ (s.run w).mem = s.mem := by
  rw [run_of_error h]
  exact ⟨rfl, rfl⟩

theorem sealed_deferred (source_id : Int) : ∀ (es : List Encoded) (m : Caches),
    (sealed source_id m es).deferred = m.deferred
  | [], _ => rfl
  | _ :: es, _ => sealed_deferred source_id es _

theorem ends_query_bind {α β : Type} {f : Archive → Except Error β} {k : β → WriterM α}
    {P : Outcome Error α → WriterState → Prop} (hok : ∀ b, f s.db = .ok b → Prog.Ends (k b) s P)
    (hfail : ∀ e, P (.err e) s) (hkill : P .killed s) : Prog.Ends (query f >>= k) s P := by
  have hread : Prog.Ends (query f) s fun r s' => s' = s ∧ ∀ b, r = .ok b → f s.db = .ok b := by
    refine Prog.Ends.read (fun b hb => ⟨rfl, fun b' h => ?_⟩) (fun _ => ⟨rfl, nofun⟩) ⟨rfl, nofun⟩
    injection h with h
    exact h ▸ hb
  refine hread.bind ?_ (fun e s' h => h.1 ▸ hfail e) fun s' h => h.1 ▸ hkill
  rintro b s' ⟨rfl, hb⟩
  exact hok b (hb b rfl)

theorem ends_remembered_bind {α : Type} {k : Caches → WriterM α}
    {P : Outcome Error α → WriterState → Prop} (h : Prog.Ends (k s.mem) s P) :
    Prog.Ends (remembered >>= k) s P := h

theorem ends_remember_bind {α : Type} {f : Caches → Caches} {k : Unit → WriterM α}
    {P : Outcome Error α → WriterState → Prop}
    (h : Prog.Ends (k ()) { s with mem := f s.mem } P) : Prog.Ends (remember f >>= k) s P := h

theorem ends_encodeStream {uuid : Option String} {max_rows : Nat} {acc : Batch} :
    Prog.Ends (encodeStream env source_id uuid max_rows acc stream) s fun r s' => s' = s ∧
      ∀ acc', r = .ok acc' → (∀ e ∈ acc.1, e.stream = stream) →
        ∀ e ∈ acc'.1, e.stream = stream := by
  have hsame : ∀ acc', (Outcome.ok acc : Outcome Error Batch) = .ok acc' →
      (∀ e ∈ acc.1, e.stream = stream) → ∀ e ∈ acc'.1, e.stream = stream := by
    intro acc' h hacc
    injection h with h
    exact h ▸ hacc
  unfold encodeStream
  refine ends_query_bind (fun rows _ => ?_) (fun _ => ⟨rfl, nofun⟩) ⟨rfl, nofun⟩
  split
  · exact ends_query_bind (fun _ _ => .pure ⟨rfl, hsame⟩) (fun _ => ⟨rfl, nofun⟩) ⟨rfl, nofun⟩
  · refine .bind (P := fun _ s' => s' = s) (.lift (fun _ _ => rfl) fun _ _ => rfl) ?_
      (fun _ _ h => ⟨h, nofun⟩) fun _ h => ⟨h, nofun⟩
    rintro parts s' rfl
    split
    · exact .pure ⟨rfl, hsame⟩
    · split
      · exact .abort ⟨rfl, nofun⟩
      · refine ends_remembered_bind (.pure ⟨rfl, fun acc' h hacc => ?_⟩)
        injection h with h
        subst h
        intro e he
        rcases List.mem_append.mp he with he | he
        · exact hacc e he
        · obtain ⟨p, -, rfl⟩ := List.mem_map.mp he
          rfl

/-- A commit leaves what the thread remembers. -/
theorem keeps_commit {w : Write} {d : OrdMap StreamKey Nat} (h : s.mem.deferred = d) :
    Prog.Keeps (commit w) s fun s' => s'.mem.deferred = d :=
  ends_commit (fun _ _ => h) (fun _ _ => h) (fun _ => h) h

/-- An attempt to seal leaves the list of deferred seals. -/
theorem keeps_sealBatch {batch : List String} {max_rows : Nat} {d : OrdMap StreamKey Nat}
    (h : s.mem.deferred = d) :
    Prog.Keeps (sealBatch env source_id batch max_rows) s fun s' => s'.mem.deferred = d := by
  unfold sealBatch
  refine ends_query_bind (fun uuid _ => ?_) (fun _ => h) h
  have hencode : Prog.Keeps (Prog.foldEach (encodeStream env source_id uuid max_rows) ([], none) batch)
      s fun s' => s'.mem.deferred = d := by
    refine (Prog.Ends.foldEach (I := fun _ => True) (fun stream _ acc _ => ?_) trivial).mono
      fun _ s' hs' => hs'.1 ▸ h
    exact ends_encodeStream.mono fun _ _ hs' => ⟨hs'.1, fun _ _ => trivial⟩
  refine hencode.bind fun acc s₁ hs₁ => ?_
  obtain ⟨encoded, observation⟩ := acc
  refine (keeps_commit hs₁).bind fun _ s₂ hs₂ => ?_
  refine .update_bind (.forEach (fun e _ s₃ hs₃ => keeps_commit hs₃) ?_)
  exact (sealed_deferred source_id encoded s₂.mem).trans hs₂

/-- The parts of one stream are pruned once, to the end of the last of them. -/
theorem lastParts_one : ∀ {es : List Encoded}, (∀ e ∈ es, e.stream = stream) →
    (lastParts es).length ≤ 1
  | [], _ => by simp [lastParts]
  | [e], _ => by simp [lastParts]
  | e :: next :: es, h => by
      have hnext : next.stream = e.stream := (h next (by simp)).trans (h e (by simp)).symm
      unfold lastParts
      rw [if_pos hnext]
      exact lastParts_one fun e' he' => h e' (by simp [he'])

/-- A seal's transaction adds segments, and touches neither the WAL nor the caller's rows. -/
theorem seal_apply_aside {a a' : Archive} {batch : List String} {encoded : List Encoded}
    {observation : Option (Int64 × Int64)} (hone : ∀ e ∈ encoded, e.stream = stream)
    (h : (Write.seal source_id batch encoded observation).apply a = .ok a') :
    (∀ k ≠ streamKey source_id stream, Archive.Same a a' k) ∧ a'.caller_rows = a.caller_rows ∧
      Archive.Keeps a a' (streamKey source_id stream) := by
  simp only [Write.apply, Except.bind_eq_ok] at h
  obtain ⟨b, hb, h⟩ := h
  have hsealed := Archive.sealed_of_insertEncoded hb
  have htables : a'.segments = b.segments ∧ a'.wal = b.wal ∧ a'.caller_rows = b.caller_rows := by
    cases observation with
    | none =>
        obtain rfl := Except.pure_eq_ok.mp h
        exact ⟨rfl, rfl, rfl⟩
    | some o =>
        rw [Archive.insertClockOffset_tables h]
        exact ⟨rfl, rfl, rfl⟩
  have hwal : a'.wal = a.wal := by rw [htables.2.1, hsealed.frame]
  have hcaller : a'.caller_rows = a.caller_rows := by rw [htables.2.2, hsealed.frame]
  have hcatalog : ∀ k, a'.catalog k =
      (a.catalog k).insertAll (Archive.entries a.layout source_id encoded k) := by
    intro k
    rw [← hsealed.catalog k, Archive.catalog, Archive.catalog, htables.1]
  refine ⟨fun k hk => ⟨?_, congrArg (OrdMap.group · k) hwal⟩, hcaller, fun seq c hc => ?_,
    congrArg (OrdMap.group · _) hwal, Archive.callerRowsOf_congr hcaller _⟩
  · have hnil : Archive.entries a.layout source_id encoded k = [] := by
      refine List.map_eq_nil_iff.mpr (List.filter_eq_nil_iff.mpr fun e he => ?_)
      rw [hone e he]
      simpa using Ne.symm hk
    rw [hcatalog, hnil]
    rfl
  · -- a stored `seq` is taken, and the new ones are not
    rw [hcatalog, OrdMap.get?_insertAll_of_not_mem, hc]
    intro x hx heq
    have hfree := hsealed.fresh.free _ x hx
    rw [heq, hc] at hfree
    exact absurd hfree (by simp)

/-- **An attempt to seal one stream touches nothing else, and only a seal that returned has
pruned it.** -/
theorem ends_sealBatch {max_rows : Nat} (h : Aside (streamKey source_id stream) s₀ s)
    (hkeeps : Archive.Keeps s₀.db s.db (streamKey source_id stream)) :
    Prog.Ends (sealBatch env source_id [stream] max_rows) s
      (SealEnds (streamKey source_id stream) s₀) := by
  have hhere : ∀ r, SealEnds (streamKey source_id stream) s₀ r s := fun r => ⟨h, fun _ => hkeeps⟩
  unfold sealBatch
  refine ends_query_bind (fun uuid _ => ?_) (fun e => hhere _) (hhere _)
  refine .bind (P := fun r s' => s' = s ∧ ∀ acc : Batch, r = .ok acc → ∀ e ∈ acc.1, e.stream = stream)
    (Prog.Ends.foldEach (I := fun acc : Batch => ∀ e ∈ acc.1, e.stream = stream) ?_ (by simp)) ?_
    (fun e s' hs' => hs'.1 ▸ hhere _) fun s' hs' => hs'.1 ▸ hhere _
  · intro st hst acc hacc
    obtain rfl : st = stream := by simpa using hst
    exact ends_encodeStream.mono fun r _ hr => ⟨hr.1, fun acc' h' => hr.2 acc' h' hacc⟩
  rintro ⟨encoded, observation⟩ s' ⟨rfl, hencoded⟩
  have hone : ∀ e ∈ encoded, e.stream = stream := hencoded _ rfl
  refine .bind (P := fun r s₁ => Aside (streamKey source_id stream) s₀ s₁ ∧
    Archive.Keeps s₀.db s₁.db (streamKey source_id stream)) (ends_commit (fun db hdb => ?_)
      (fun e he => ?_) (fun _ => ⟨h, hkeeps⟩) ⟨h, hkeeps⟩) ?_
    (fun e s₁ hs₁ => ⟨hs₁.1, fun _ => hs₁.2⟩) fun s₁ hs₁ => ⟨hs₁.1, fun _ => hs₁.2⟩
  · obtain ⟨hother, hcaller, hown⟩ := seal_apply_aside hone hdb
    refine ⟨h.run hdb hother hcaller, hkeeps.trans ?_⟩
    rw [run_of_ok hdb]
    exact hown
  · obtain ⟨hdb, hmem⟩ := run_of_error_db he
    rw [hdb]
    exact ⟨⟨hdb ▸ h.others, hdb ▸ h.caller_rows, hmem ▸ h.deferred⟩, hkeeps⟩
  rintro _ s₁ ⟨haside, hkept⟩
  -- the caches move with the commit; what is left is at most one prune
  have haside' : Aside (streamKey source_id stream) s₀
      { s₁ with mem := sealed source_id s₁.mem encoded } :=
    ⟨haside.others, haside.caller_rows, (sealed_deferred source_id encoded s₁.mem).trans
      haside.deferred⟩
  refine ends_remember_bind ?_
  have hsub := lastParts_subset encoded
  have hlen := lastParts_one hone
  rcases hparts : lastParts encoded with _ | ⟨e, es⟩
  · exact .pure ⟨haside', fun _ => hkept⟩
  · obtain rfl : es = [] := by
      rw [hparts, List.length_cons] at hlen
      exact List.length_eq_zero_iff.mp (by omega)
    have hstream : e.stream = stream := hone e (hsub (by simp [hparts]))
    refine .bind (ends_commit (P := SealEnds (streamKey source_id stream) s₀) (fun db hdb => ?_)
      (fun e' he => absurd he nofun) (fun _ => ⟨haside', fun _ => hkept⟩)
      ⟨haside', fun _ => hkept⟩) (fun _ _ hs₂ => .pure hs₂) (fun _ _ hs₂ => hs₂) fun _ hs₂ => hs₂
    have hdb' := Except.ok.inj hdb
    refine ⟨haside'.run hdb (fun k hk => ?_) (hdb' ▸ rfl), fun hne => absurd rfl hne⟩
    rw [← hdb', hstream]
    exact Archive.pruneWal_same (Ne.symm hk)

end

/-! ## Attempts -/

/-- How an attempt to seal ended. -/
inductive Sealing where
  | sealed
  /-- By a failure that can clear. -/
  | deferred
  | failed
  deriving DecidableEq

/-- How an attempt ended that was not cut short by a kill. -/
def Sealing.of : Outcome Error Unit → Option Sealing
  | .ok () => some .sealed
  | .err e => some (if e.isRetryable then .deferred else .failed)
  | .killed => none

/-- One attempt to seal some streams of a source, with its retries. -/
structure Attempt where
  source_id : Int
  streams : List String
  sealing : Sealing
  deriving DecidableEq

/-- Whether an attempt was at a stream. -/
def Attempt.covers (t : Attempt) (source_id : Int) (stream : String) : Bool :=
  t.source_id = source_id && t.streams.contains stream

/-- The attempts of a retention pass at the deferred streams of its source, one after the
other, until one is deferred again. -/
def retriedAttempts (env : Env) (source_id : Int) :
    List (String × Nat) → WriterState → List (Fault StorageFailure) → List Attempt
  | [], _, _ => []
  | e :: es, s, faults =>
    let run := withRetries (sealBatch env source_id [e.1] e.2) s faults
    match Sealing.of run.1 with
    | none => []
    | some .deferred => [⟨source_id, [e.1], .deferred⟩]
    | some sealing => ⟨source_id, [e.1], sealing⟩ :: retriedAttempts env source_id es run.2.1 run.2.2

/-- What a retention pass starts from: the deferred streams of the source are off the list. -/
def WriterState.undeferred (s : WriterState) (source_id : Int) : WriterState :=
  { s with mem := { s.mem with
      deferred := s.mem.deferred.filter fun k _ => (ofLex k).1 ≠ source_id } }

/-- The attempts to seal that a message makes. -/
def attemptsOf (env : Env) (msg : Msg) (s : WriterState) (faults : List (Fault StorageFailure)) :
    List Attempt :=
  match msg with
  | .seal source_id batch max_rows =>
    match Sealing.of (withRetries (sealBatch env source_id batch max_rows) s faults).1 with
    | none => []
    | some sealing => [⟨source_id, batch, sealing⟩]
  | .evict source_id .. =>
    retriedAttempts env source_id (s.mem.deferred.group source_id).entries
      (s.undeferred source_id) faults
  | _ => []

/-- A stream is held when the last attempt at it was deferred. -/
def held (past : List Attempt) (source_id : Int) (stream : String) : Bool :=
  match (past.filter fun t => t.covers source_id stream).getLast? with
  | some t => t.sealing = .deferred
  | none => false

theorem held_append_singleton (past : List Attempt) (t : Attempt) (source_id : Int)
    (stream : String) : held (past ++ [t]) source_id stream =
      if t.covers source_id stream then decide (t.sealing = .deferred)
      else held past source_id stream := by
  unfold held
  by_cases h : t.covers source_id stream
  · rw [List.filter_append, List.filter_singleton, h, if_pos rfl]
    simp
  · rw [List.filter_append, List.filter_singleton, if_neg h]
    simp [h]

/-- Attempts at other streams change nothing. -/
theorem held_append_of_not_covers {source_id : Int} {stream : String} : ∀ {ts past : List Attempt},
    (∀ t ∈ ts, t.covers source_id stream = false) →
      held (past ++ ts) source_id stream = held past source_id stream
  | [], past, _ => by rw [List.append_nil]
  | t :: ts, past, h => by
      rw [List.append_cons, held_append_of_not_covers fun t' ht' => h t' (by simp [ht']),
        held_append_singleton, h t (by simp)]
      rfl

/-! ## The retries before a pass -/

section

variable {env : Env} {source_id : Int}

theorem ends_retriedSeal (source_id : Int) (stream : String) (max_rows : Nat) (s : WriterState) :
    Prog.Ends (withRetries (sealBatch env source_id [stream] max_rows)) s
      (SealEnds (streamKey source_id stream) s) :=
  Prog.Ends.retry (I := fun s' => Aside (streamKey source_id stream) s s' ∧
      Archive.Keeps s.db s'.db (streamKey source_id stream))
    (fun _ h => ends_sealBatch h.1 h.2) (fun _ _ h => ⟨h.toAside, h.keeps nofun⟩) 3 s
    ⟨.refl _ _, .refl _ _⟩

/-- What the retries leave, by the attempts they made. -/
structure Retried (source_id : Int) (es : List (String × Nat)) (attempts : List Attempt)
    (s : WriterState) (r : Outcome Error (List (String × Nat))) (s' : WriterState) : Prop where
  covers : ∀ t ∈ attempts, ∃ e ∈ es, t.source_id = source_id ∧ t.streams = [e.1]
  /-- A retry that fails is not the pass's failure. -/
  returns : ∀ e, r ≠ .err e
  caller_rows : s'.db.caller_rows = s.db.caller_rows
  deferred : s'.mem.deferred = s.mem.deferred
  keeps : ∀ past stream, held (past ++ attempts) source_id stream = true →
    Archive.Keeps s.db s'.db (streamKey source_id stream)
  same : r ≠ .killed → ∀ k, (∀ t ∈ attempts, t.covers (ofLex k).1 (ofLex k).2 = false) →
    Archive.Same s.db s'.db k
  /-- What is returned are the streams still held. -/
  remain : ∀ left, r = .ok left → left.Sublist es ∧
    ∀ past, (∀ e ∈ es, held past source_id e.1 = true) →
      ∀ e ∈ es, e.1 ∈ left.map Prod.fst ↔ held (past ++ attempts) source_id e.1 = true

theorem Attempt.covers_one {t : Attempt} {name stream : String} (hid : t.source_id = source_id)
    (hs : t.streams = [name]) : t.covers source_id stream = decide (stream = name) := by
  simp [Attempt.covers, hid, hs]

/-- Once a stream is held the rest are held without being tried. -/
theorem run_retry_held {left : List (String × Nat)} (hleft : left ≠ []) :
    ∀ (es : List (String × Nat)) (s : WriterState) (faults : List (Fault StorageFailure)),
      Prog.foldEach (retryDeferredSeal env source_id) left es s faults = (.ok (left ++ es), s, faults) := by
  intro es
  induction es generalizing left with
  | nil =>
      intro s faults
      rw [List.append_nil]
      rfl
  | cons e es ih =>
      intro s faults
      have hne : (!left.isEmpty) = true := by simpa using hleft
      have hturn : retryDeferredSeal env source_id left e s faults =
          (.ok (left ++ [e]), s, faults) := by
        unfold retryDeferredSeal
        rw [if_pos hne]
        rfl
      rw [Prog.foldEach, Prog.run_bind_ok hturn, ih (by simp), List.append_assoc]
      rfl

/-- One turn of the retries, when no stream is held yet. -/
theorem run_retry_first (e : String × Nat) (s : WriterState) (faults : List (Fault StorageFailure)) :
    retryDeferredSeal env source_id [] e s faults =
      let run := withRetries (sealBatch env source_id [e.1] e.2) s faults
      (match run.1 with
        | .ok () => .ok []
        | .err err => .ok (if err.isRetryable then [e] else [])
        | .killed => .killed, run.2) := by
  unfold retryDeferredSeal
  rw [if_neg (by simp), Prog.run_bind]
  unfold Prog.attempt
  rcases hr : withRetries (sealBatch env source_id [e.1] e.2) s faults with ⟨u | err | -, s', fs'⟩
  · rfl
  · dsimp only
    by_cases he : err.isRetryable
    · rw [if_pos he, if_pos he]
      rfl
    · rw [if_neg he, if_neg he]
      rfl
  · rfl

/-- A stream that sealed or failed for good, before the rest. -/
theorem Retried.cons {e : String × Nat} {es : List (String × Nat)} {attempts : List Attempt}
    {sealing : Sealing} {s s' s'' : WriterState} {r : Outcome Error (List (String × Nat))}
    (hnew : e.1 ∉ es.map Prod.fst) (hne : sealing ≠ .deferred)
    (haside : Aside (streamKey source_id e.1) s s') (h : Retried source_id es attempts s' r s'') :
    Retried source_id (e :: es) (⟨source_id, [e.1], sealing⟩ :: attempts) s r s'' := by
  have hcov : ∀ stream, Attempt.covers ⟨source_id, [e.1], sealing⟩ source_id stream =
      decide (stream = e.1) := fun stream => Attempt.covers_one rfl rfl
  -- the stream just tried is not held: no later attempt is at it
  have hoff : ∀ past, held (past ++ ⟨source_id, [e.1], sealing⟩ :: attempts) source_id e.1 = false := by
    intro past
    have hlater : ∀ t ∈ attempts, t.covers source_id e.1 = false := by
      intro t ht
      obtain ⟨e', he', hid, hstreams⟩ := h.covers t ht
      rw [Attempt.covers_one hid hstreams, decide_eq_false_iff_not]
      intro heq
      exact hnew (heq ▸ List.mem_map_of_mem he')
    rw [List.append_cons, held_append_of_not_covers hlater, held_append_singleton, hcov,
      if_pos (by simp), decide_eq_false_iff_not]
    exact hne
  refine ⟨?_, h.returns, h.caller_rows.trans haside.caller_rows,
    h.deferred.trans haside.deferred, fun past stream hs => ?_, fun hr k hk => ?_, fun left hleft => ?_⟩
  · intro t ht
    rcases List.mem_cons.mp ht with rfl | ht
    · exact ⟨e, by simp, rfl, rfl⟩
    · obtain ⟨e', he', hcovers⟩ := h.covers t ht
      exact ⟨e', by simp [he'], hcovers⟩
  · have hstream : stream ≠ e.1 := by
      rintro rfl
      exact absurd (hs.symm.trans (hoff past)) (by simp)
    rw [List.append_cons] at hs
    refine (haside.untouched ?_).keeps.trans (h.keeps _ stream hs)
    intro hkey
    exact hstream (congrArg (fun k => (ofLex k).2) hkey)
  · have hrest := h.same hr k fun t ht => hk t (by simp [ht])
    refine (haside.others k ?_).trans hrest
    rintro rfl
    have hfirst := hk _ (List.mem_cons_self ..)
    exact absurd ((hcov e.1).symm.trans hfirst) (by simp)
  · obtain ⟨hsub, hheld⟩ := h.remain left hleft
    refine ⟨hsub.cons e, fun past hpast e' he' => ?_⟩
    rcases List.mem_cons.mp he' with rfl | he'
    · rw [hoff past]
      exact iff_of_false (fun hmem => hnew ((hsub.map Prod.fst).subset hmem)) (by simp)
    · rw [List.append_cons]
      refine hheld (past ++ [_]) (fun e'' he'' => ?_) e' he'
      have hneq : e''.1 ≠ e.1 := fun heq => hnew (heq ▸ List.mem_map_of_mem he'')
      rw [held_append_singleton, hcov, if_neg (by simpa using hneq)]
      exact hpast e'' (by simp [he''])

/-- The first stream that is deferred again: it and the rest are held. -/
theorem Retried.deferred_first {e : String × Nat} {es : List (String × Nat)} {s s' : WriterState}
    (haside : Aside (streamKey source_id e.1) s s')
    (hkeeps : Archive.Keeps s.db s'.db (streamKey source_id e.1)) :
    Retried source_id (e :: es) [⟨source_id, [e.1], .deferred⟩] s (.ok ([e] ++ es)) s' := by
  have hcov : ∀ stream, Attempt.covers ⟨source_id, [e.1], .deferred⟩ source_id stream =
      decide (stream = e.1) := fun stream => Attempt.covers_one rfl rfl
  refine ⟨?_, nofun, haside.caller_rows, haside.deferred, fun _ stream _ => ?_, fun _ k hk => ?_,
    fun left hleft => ?_⟩
  · intro t ht
    rw [List.mem_singleton.mp ht]
    exact ⟨e, by simp, rfl, rfl⟩
  · by_cases hstream : stream = e.1
    · exact hstream ▸ hkeeps
    · refine (haside.untouched ?_).keeps
      intro hkey
      exact hstream (congrArg (fun k => (ofLex k).2) hkey)
  · refine haside.others k ?_
    rintro rfl
    exact absurd ((hcov e.1).symm.trans (hk _ (List.mem_cons_self ..))) (by simp)
  · injection hleft with hleft
    subst hleft
    refine ⟨.refl _, fun past hpast e' he' => iff_of_true (List.mem_map_of_mem he') ?_⟩
    rw [held_append_singleton, hcov]
    split
    · rfl
    · exact hpast e' he'

/-- **The retries return the streams still held, and take nothing from a stream they did not
seal.** -/
theorem retried : ∀ (es : List (String × Nat)), (es.map Prod.fst).Nodup →
    ∀ (s : WriterState) (faults : List (Fault StorageFailure)),
      Retried source_id es (retriedAttempts env source_id es s faults) s
        (Prog.foldEach (retryDeferredSeal env source_id) [] es s faults).1
        (Prog.foldEach (retryDeferredSeal env source_id) [] es s faults).2.1 := by
  intro es
  induction es with
  | nil =>
      intro _ s faults
      refine ⟨by simp [retriedAttempts], nofun, rfl, rfl, fun _ _ _ => .refl _ _,
        fun _ _ _ => .refl _ _, fun left h => ?_⟩
      injection h with h
      subst h
      exact ⟨.slnil, fun _ _ e he => absurd he List.not_mem_nil⟩
  | cons e es ih =>
      intro hnd s faults
      obtain ⟨hnew, hnd⟩ := List.nodup_cons.mp hnd
      have hseal := @ends_retriedSeal env source_id e.1 e.2 s faults
      have hturn := @run_retry_first env source_id e s faults
      unfold retriedAttempts Prog.foldEach
      rcases hr : withRetries (sealBatch env source_id [e.1] e.2) s faults with
        ⟨u | err | -, s', fs'⟩ <;> rw [hr] at hseal hturn
      · rw [Prog.run_bind_ok hturn]
        exact .cons hnew (by simp) hseal.toAside (ih hnd s' fs')
      · by_cases herr : err.isRetryable
        · simp only [herr, if_true] at hturn
          rw [Prog.run_bind_ok hturn, run_retry_held (by simp)]
          simp only [Sealing.of, herr, if_true]
          exact .deferred_first hseal.toAside (hseal.keeps nofun)
        · simp only [herr, Bool.false_eq_true, if_false] at hturn
          rw [Prog.run_bind_ok hturn]
          simp only [Sealing.of, herr, Bool.false_eq_true, if_false]
          exact .cons hnew (by simp) hseal.toAside (ih hnd s' fs')
      · rw [Prog.run_bind, hturn]
        refine ⟨by simp [Sealing.of], nofun, hseal.caller_rows, hseal.deferred,
          fun _ stream _ => ?_, fun h => absurd rfl h, nofun⟩
        by_cases hstream : stream = e.1
        · exact hstream ▸ hseal.keeps nofun
        · refine (hseal.toAside.untouched ?_).keeps
          intro hkey
          exact hstream (congrArg (fun k => (ofLex k).2) hkey)

end

/-! ## The pass -/

namespace Archive

variable {a b : Archive} {source_id : Int} {cutoff_ts : Int64} {floor : Option CallerRowFloor}

theorem callerRowCut_same {stream : String} (h : Same a b (streamKey source_id stream)) :
    b.callerRowCut source_id stream cutoff_ts floor =
      a.callerRowCut source_id stream cutoff_ts floor := by
  have hold : b.oldestRow source_id stream = a.oldestRow source_id stream := by
    unfold oldestRow
    dsimp only
    rw [h.catalog, h.wal]
  unfold callerRowCut
  rw [hold]

theorem callerRowsOf_evictCallerRows (stream : String) :
    (evictCallerRows source_id cutoff_ts floor a stream).callerRowsOf (streamKey source_id stream) =
      (a.callerRowsOf (streamKey source_id stream)).filter fun r =>
        !decide (r.ts < a.callerRowCut source_id stream cutoff_ts floor) := by
  unfold callerRowsOf evictCallerRows
  dsimp only
  rw [List.filter_filter, List.filter_map, List.filter_filter]
  refine congrArg _ (List.filter_congr fun e _ => ?_)
  by_cases hk : e.1 = streamKey source_id stream
  · simp [hk]
  · simp [hk]

theorem callerRowsOf_evictCallerRows_ne {stream : String} {k : StreamKey}
    (hk : streamKey source_id stream ≠ k) :
    (evictCallerRows source_id cutoff_ts floor a stream).callerRowsOf k = a.callerRowsOf k := by
  unfold callerRowsOf evictCallerRows
  dsimp only
  rw [List.filter_filter]
  refine congrArg _ (List.filter_congr fun e _ => ?_)
  by_cases he : e.1 = k
  · simp [he, Ne.symm hk]
  · simp [he]

/-- Cutting the caller's rows of some names cuts those of each, however often it is named. -/
theorem callerRowsOf_foldl_evictCallerRows (stream : String) : ∀ (names : List String) (a : Archive),
    (names.foldl (evictCallerRows source_id cutoff_ts floor) a).callerRowsOf
        (streamKey source_id stream) =
      if stream ∈ names then (a.callerRowsOf (streamKey source_id stream)).filter fun r =>
        !decide (r.ts < a.callerRowCut source_id stream cutoff_ts floor)
      else a.callerRowsOf (streamKey source_id stream) := by
  intro names
  induction names with
  | nil => exact fun a => rfl
  | cons name names ih =>
      intro a
      have hcut : ∀ stream, (evictCallerRows source_id cutoff_ts floor a name).callerRowCut source_id
          stream cutoff_ts floor = a.callerRowCut source_id stream cutoff_ts floor := fun stream =>
        callerRowCut_same evictCallerRows_same
      rw [List.foldl_cons, ih, hcut]
      by_cases hname : name = stream
      · subst hname
        rw [callerRowsOf_evictCallerRows, List.filter_filter]
        simp
      · have hne : streamKey source_id name ≠ streamKey source_id stream := fun h =>
          hname (congrArg (fun k => (ofLex k).2) h)
        rw [callerRowsOf_evictCallerRows_ne hne]
        simp [List.mem_cons, Ne.symm hname]

theorem callerRowsOf_foldl_evictCallerRows_ne {k : StreamKey} (hk : (ofLex k).1 ≠ source_id) :
    ∀ (names : List String) (a : Archive),
      (names.foldl (evictCallerRows source_id cutoff_ts floor) a).callerRowsOf k = a.callerRowsOf k
  | [], _ => rfl
  | name :: names, a => by
      have hne : streamKey source_id name ≠ k := fun h => hk (h ▸ rfl)
      rw [List.foldl_cons, callerRowsOf_foldl_evictCallerRows_ne hk names,
        callerRowsOf_evictCallerRows_ne hne]

theorem EvictedAt.trans_untouched {c : Archive} {stream : String}
    (h : EvictedAt a b source_id stream cutoff_ts floor)
    (h' : Untouched b c (streamKey source_id stream)) :
    EvictedAt a c source_id stream cutoff_ts floor := by
  refine ⟨h.toCutAt.trans_same h'.toSame, ?_⟩
  rw [h'.caller_rows, h.caller_rows, callerRowCut_same h'.toSame]

theorem Untouched.trans_evicted {c : Archive} {stream : String}
    (h : Untouched a b (streamKey source_id stream))
    (h' : EvictedAt b c source_id stream cutoff_ts floor) :
    EvictedAt a c source_id stream cutoff_ts floor := by
  refine ⟨h.toSame.trans_cut h'.toCutAt, ?_⟩
  rw [h'.caller_rows, h.caller_rows]

/-- A pass over the streams of a source that a predicate accepts. -/
structure Passed (a b : Archive) (source_id : Int) (cutoff_ts : Int64)
    (floor : Option CallerRowFloor) (accepts : String → Bool) : Prop where
  evicted : ∀ stream, accepts stream = true → EvictedAt a b source_id stream cutoff_ts floor
  untouched : ∀ k, ((ofLex k).1 = source_id → accepts (ofLex k).2 = false) → Untouched a b k

/-- **A pass over a source evicts every stream of it.** -/
theorem evict_passed {names : List String}
    (hnames : floor.isSome = true → ∀ stream, a.callerRowsOf (streamKey source_id stream) ≠ [] →
      stream ∈ names) :
    Passed a (a.evict source_id cutoff_ts floor names) source_id cutoff_ts floor fun _ => true := by
  refine ⟨fun stream _ => ⟨evict_cut rfl, ?_⟩, fun k hk => ?_⟩
  · cases floor with
    | none =>
        show (List.filter _ (List.filter _ a.caller_rows)).map Prod.snd =
          (a.callerRowsOf (streamKey source_id stream)).filter fun r => !decide (r.ts < cutoff_ts)
        rw [callerRowsOf, List.filter_filter, List.filter_map, List.filter_filter]
        refine congrArg _ (List.filter_congr fun e _ => ?_)
        by_cases he : e.1 = streamKey source_id stream
        · simp [he]
        · simp [he]
    | some f =>
        unfold evict
        dsimp only
        rw [callerRowsOf_foldl_evictCallerRows, callerRowCut_same foldl_evictCallerRows_same]
        split
        · rfl
        · rename_i hmem
          have hnil : a.callerRowsOf (streamKey source_id stream) = [] :=
            not_not.mp fun hne => hmem (hnames rfl stream hne)
          show a.callerRowsOf (streamKey source_id stream) = _
          rw [hnil]
          rfl
  · have hne : (ofLex k).1 ≠ source_id := fun h => absurd (hk h) (by simp)
    refine ⟨evict_same hne, ?_⟩
    cases floor with
    | none =>
        show (List.filter _ (List.filter _ a.caller_rows)).map Prod.snd = _
        rw [callerRowsOf, List.filter_filter]
        refine congrArg _ (List.filter_congr fun e _ => ?_)
        by_cases he : e.1 = k
        · simp [he, hne]
        · simp [he]
    | some f =>
        unfold evict
        exact callerRowsOf_foldl_evictCallerRows_ne hne names _

/-- **A pass over some streams evicts each of them.** -/
theorem evictStreams_passed {streams : List String} (hnd : streams.Nodup) :
    (∀ stream ∈ streams, EvictedAt a (a.evictStreams source_id cutoff_ts floor streams) source_id
      stream cutoff_ts floor) ∧
    ∀ k ∉ streams.map (streamKey source_id),
      Untouched a (a.evictStreams source_id cutoff_ts floor streams) k := by
  suffices ∀ {a : Archive}, (∀ stream ∈ streams, EvictedAt a (streams.foldl (fun a stream =>
        evictCallerRows source_id cutoff_ts floor (evictStream source_id cutoff_ts a stream) stream) a)
          source_id stream cutoff_ts floor) ∧
      ∀ k ∉ streams.map (streamKey source_id), Untouched a (streams.foldl (fun a stream =>
        evictCallerRows source_id cutoff_ts floor (evictStream source_id cutoff_ts a stream) stream) a)
          k from
    ⟨fun stream hs => (this.1 stream hs).trans_untouched ⟨.of_tables rfl rfl, rfl⟩,
      fun k hk => (this.2 k hk).trans ⟨.of_tables rfl rfl, rfl⟩⟩
  induction streams with
  | nil => exact fun {a} => ⟨fun _ h => absurd h List.not_mem_nil, fun k _ => .refl a k⟩
  | cons name streams ih =>
      intro a
      obtain ⟨hnew, hnd⟩ := List.nodup_cons.mp hnd
      obtain ⟨ih₁, ih₂⟩ := @ih hnd (evictCallerRows source_id cutoff_ts floor
        (evictStream source_id cutoff_ts a name) name)
      have hsame := @evictCallerRows_same (evictStream source_id cutoff_ts a name) source_id
        cutoff_ts floor name (streamKey source_id name)
      have hfirst : EvictedAt a (evictCallerRows source_id cutoff_ts floor
          (evictStream source_id cutoff_ts a name) name) source_id name cutoff_ts floor := by
        refine ⟨evictStream_cut.trans_same hsame, ?_⟩
        rw [callerRowsOf_evictCallerRows, callerRowCut_same hsame]
        rfl
      have hother : ∀ k, streamKey source_id name ≠ k → Untouched a (evictCallerRows source_id
          cutoff_ts floor (evictStream source_id cutoff_ts a name) name) k := fun k hk =>
        ⟨(evictStream_same hk).trans evictCallerRows_same,
          (callerRowsOf_evictCallerRows_ne hk).trans rfl⟩
      refine ⟨fun stream hs => ?_, fun k hk => ?_⟩
      · rcases List.mem_cons.mp hs with rfl | hs
        · refine hfirst.trans_untouched (ih₂ _ fun hmem => hnew ?_)
          obtain ⟨n, hn, heq⟩ := List.mem_map.mp hmem
          have hname : n = stream := congrArg (fun k => (ofLex k).2) heq
          exact hname ▸ hn
        · refine (hother _ fun heq => hnew ?_).trans_evicted (ih₁ stream hs)
          have hname : name = stream := congrArg (fun k => (ofLex k).2) heq
          exact hname ▸ hs
      · rw [List.map_cons, List.mem_cons, not_or] at hk
        exact (hother k (Ne.symm hk.1)).trans (ih₂ k hk.2)

theorem mem_callerRowStreams {stream : String}
    (h : a.callerRowsOf (streamKey source_id stream) ≠ []) :
    stream ∈ a.callerRowStreams source_id := by
  obtain ⟨r, hr⟩ := List.exists_mem_of_ne_nil _ h
  obtain ⟨e, he, rfl⟩ := List.mem_map.mp hr
  obtain ⟨he, hk⟩ := List.mem_filter.mp he
  have hkey : e.1 = streamKey source_id stream := of_decide_eq_true hk
  refine mem_distinct.mpr (List.mem_filterMap.mpr ⟨e, he, ?_⟩)
  rw [hkey]
  exact if_pos rfl

/-- An eviction of nothing. -/
theorem EvictedAt.of_nothing {stream : String} (hstored : stream ∉ a.allStreams source_id)
    (hcaller : a.callerRowsOf (streamKey source_id stream) = [])
    (h : Untouched a b (streamKey source_id stream)) :
    EvictedAt a b source_id stream cutoff_ts floor := by
  obtain ⟨hseg, hwal⟩ := of_not_mem_allStreams hstored
  refine ⟨⟨?_, ?_⟩, ?_⟩
  · rw [h.catalog, OrdMap.filter_eq_self fun seq c hc => absurd hc (hseg seq c)]
  · rw [h.wal, OrdMap.filter_eq_self fun ts c hc => absurd hc (hwal ts c)]
  · rw [h.caller_rows, hcaller]
    rfl

/-- The streams, and the other names of the caller's store, that a predicate accepts. -/
theorem evictStreams_accepted {accepts : String → Bool} {streams : List String}
    (hs : streams = ((a.allStreams source_id ++ (a.callerRowStreams source_id).filter
      fun n => !(a.allStreams source_id).contains n).filter accepts)) :
    Passed a (a.evictStreams source_id cutoff_ts floor streams) source_id cutoff_ts floor accepts := by
  have hnd : streams.Nodup := hs ▸ a.nodup_streamsAndNames source_id accepts
  have hmem : ∀ stream, stream ∈ streams ↔ (stream ∈ a.allStreams source_id ∨
      stream ∈ a.callerRowStreams source_id) ∧ accepts stream = true := by
    intro stream
    rw [hs, List.mem_filter, List.mem_append, List.mem_filter]
    refine and_congr_left fun _ => ?_
    by_cases hall : stream ∈ a.allStreams source_id
    · simp [hall]
    · simp [hall]
  obtain ⟨hevicted, huntouched⟩ := @evictStreams_passed a source_id cutoff_ts floor streams hnd
  refine ⟨fun stream haccept => ?_, fun k hk => huntouched k fun hmap => ?_⟩
  · by_cases hin : stream ∈ streams
    · exact hevicted stream hin
    · have hnone : ¬(stream ∈ a.allStreams source_id ∨ stream ∈ a.callerRowStreams source_id) :=
        fun h => hin ((hmem stream).mpr ⟨h, haccept⟩)
      rw [not_or] at hnone
      refine .of_nothing hnone.1 (not_not.mp fun hne => hnone.2 (mem_callerRowStreams hne))
        (huntouched _ fun hmap => hin ?_)
      obtain ⟨n, hn, heq⟩ := List.mem_map.mp hmap
      have hname : n = stream := congrArg (fun k => (ofLex k).2) heq
      exact hname ▸ hn
  · obtain ⟨n, hn, rfl⟩ := List.mem_map.mp hmap
    have hnot : accepts n = false := hk rfl
    exact absurd ((hmem n).mp hn).2 (by simp [hnot])

end Archive

/-! ## The Evict arm -/

/-- The streams a caller's filter accepts: all of them when there is none. -/
def accepted (streams : Option (String → Bool)) (stream : String) : Bool :=
  match streams with
  | some accepts => accepts stream
  | none => true

section

variable {env : Env} {s : WriterState} {source_id : Int} {cutoff_ts : Int64}
  {floor : Option Archive.CallerRowFloor}

/-- How a pass ends: it evicted what it accepts, or it did nothing and did not return. -/
structure PassEnds {α : Type} (source_id : Int) (cutoff_ts : Int64)
    (floor : Option Archive.CallerRowFloor) (accepts : String → Bool) (s : WriterState)
    (r : Outcome Error α) (s' : WriterState) : Prop where
  mem : s'.mem = s.mem
  db : (Archive.Passed s.db s'.db source_id cutoff_ts floor accepts ∧ ∀ e, r ≠ .err e) ∨
    s'.db = s.db ∧ ∀ a, r ≠ .ok a

theorem ends_pass {w : Write} {accepts : String → Bool} {counts : WriterState → Archive.Evicted}
    (hw : ∀ db, w.apply s.db = .ok db →
      Archive.Passed s.db db source_id cutoff_ts floor accepts) :
    Prog.Ends (commit w >>= fun _ => Prog.state >>= fun s' => pure (counts s')) s
      (PassEnds source_id cutoff_ts floor accepts s) := by
  refine .bind (P := PassEnds source_id cutoff_ts floor accepts s) (ends_commit
    (fun db hdb => ?_) (fun e he => ?_) (fun e => ⟨rfl, .inr ⟨rfl, nofun⟩⟩)
    ⟨rfl, .inr ⟨rfl, nofun⟩⟩) (fun _ s' h => ?_) (fun e _ h => ?_) fun _ h => ?_
  · rw [run_of_ok hdb]
    exact ⟨rfl, .inl ⟨hw db hdb, nofun⟩⟩
  · obtain ⟨hdb, hmem⟩ := run_of_error_db he
    exact ⟨hmem, .inr ⟨hdb, nofun⟩⟩
  · rcases h.db with ⟨hpassed, -⟩ | ⟨-, hne⟩
    · exact fun _ => ⟨h.mem, .inl ⟨hpassed, nofun⟩⟩
    · exact absurd rfl (hne _)
  · rcases h.db with ⟨-, hne⟩ | ⟨hsame, -⟩
    · exact absurd rfl (hne e)
    · exact ⟨h.mem, .inr ⟨hsame, nofun⟩⟩
  · exact ⟨h.mem, h.db.imp (fun h => ⟨h.1, nofun⟩) fun h => ⟨h.1, nofun⟩⟩

theorem ends_evictBefore :
    Prog.Ends (evictBefore source_id cutoff_ts floor) s
      (PassEnds source_id cutoff_ts floor (fun _ => true) s) := by
  unfold evictBefore
  cases floor with
  | none =>
      refine ends_pass fun db hdb => ?_
      rw [← Except.ok.inj hdb]
      exact Archive.evict_passed nofun
  | some f =>
      refine ends_query_bind (fun names hnames => ?_) (fun _ => ⟨rfl, .inr ⟨rfl, nofun⟩⟩)
        ⟨rfl, .inr ⟨rfl, nofun⟩⟩
      refine ends_pass fun db hdb => ?_
      rw [← Except.ok.inj hdb, ← Except.ok.inj hnames]
      exact Archive.evict_passed fun _ _ => Archive.mem_callerRowStreams

theorem ends_evictStreamsBefore {accepts : String → Bool} :
    Prog.Ends (evictStreamsBefore source_id cutoff_ts accepts floor) s
      (PassEnds source_id cutoff_ts floor accepts s) := by
  have hstop : ∀ r : Outcome Error Archive.Evicted, (∀ a, r ≠ .ok a) →
      PassEnds source_id cutoff_ts floor accepts s r s := fun r h => ⟨rfl, .inr ⟨rfl, h⟩⟩
  unfold evictStreamsBefore
  refine ends_query_bind (fun streams hstreams => ?_) (fun _ => hstop _ nofun) (hstop _ nofun)
  refine ends_query_bind (fun names hnames => ?_) (fun _ => hstop _ nofun) (hstop _ nofun)
  refine ends_pass fun db hdb => ?_
  rw [← Except.ok.inj hdb]
  refine Archive.evictStreams_accepted ?_
  rw [← Except.ok.inj hstreams, ← Except.ok.inj hnames]

end

/-! ## The list of deferred seals -/

/-- The thread's list of deferred seals is what the attempts make it. -/
def DeferredExact (past : List Attempt) (m : Caches) : Prop :=
  ∀ source_id stream,
    (m.deferred.get? (streamKey source_id stream)).isSome = held past source_id stream

section

variable {env : Env} {past : List Attempt} {s : WriterState} {source_id : Int}

/-- What a retention pass goes on from: the streams still held are back on the list. -/
def WriterState.deferAgain (s : WriterState) (source_id : Int) (left : List (String × Nat)) :
    WriterState :=
  let again := left.map fun e => (streamKey source_id e.1, e.2)
  { s with mem := { s.mem with deferred := s.mem.deferred.insertAll again } }

theorem run_retryDeferredSeals (faults : List (Fault StorageFailure)) :
    retryDeferredSeals env source_id s faults =
      let run := Prog.foldEach (retryDeferredSeal env source_id) []
        (s.mem.deferred.group source_id).entries (s.undeferred source_id) faults
      match run.1 with
      | .ok left => (.ok (left.map Prod.fst), run.2.1.deferAgain source_id left, run.2.2)
      | .err e => (.err e, run.2)
      | .killed => (.killed, run.2) := by
  have hstart : retryDeferredSeals env source_id s faults = (Prog.foldEach
      (retryDeferredSeal env source_id) [] (s.mem.deferred.group source_id).entries >>= fun left =>
        Prog.update (fun s => s.deferAgain source_id left) >>= fun _ => pure (left.map Prod.fst))
          (s.undeferred source_id) faults := rfl
  rw [hstart, Prog.run_bind]
  rcases Prog.foldEach (retryDeferredSeal env source_id) [] (s.mem.deferred.group source_id).entries
    (s.undeferred source_id) faults with ⟨left | e | -, s', fs'⟩ <;> rfl

/-- The retries before a pass, by what was attempted so far. -/
structure RetriedAll (past : List Attempt) (source_id : Int) (attempts : List Attempt)
    (s : WriterState) (r : Outcome Error (List String)) (mid : WriterState) : Prop where
  returns : ∀ e, r ≠ .err e
  keeps : ∀ stream, held (past ++ attempts) source_id stream = true →
    Archive.Keeps s.db mid.db (streamKey source_id stream)
  untried : r ≠ .killed → ∀ k, (∀ t ∈ attempts, t.covers (ofLex k).1 (ofLex k).2 = false) →
    Archive.Untouched s.db mid.db k
  left : ∀ names, r = .ok names → names.Nodup ∧
    (∀ stream, stream ∈ names ↔ held (past ++ attempts) source_id stream = true) ∧
    DeferredExact (past ++ attempts) mid.mem

theorem group_keys (m : OrdMap StreamKey Nat) (source_id : Int) (stream : String) :
    (∃ e ∈ (m.group source_id).entries, e.1 = stream) ↔
      (m.get? (streamKey source_id stream)).isSome = true := by
  rw [← OrdMap.get?_group, Option.isSome_iff_exists]
  constructor
  · rintro ⟨⟨name, cap⟩, he, rfl⟩
    exact ⟨cap, OrdMap.get?_eq_some.mpr he⟩
  · rintro ⟨cap, hcap⟩
    exact ⟨(stream, cap), OrdMap.get?_eq_some.mp hcap, rfl⟩

/-- **The retries keep the list exact.** -/
theorem retriedAll (hpast : DeferredExact past s.mem) (faults : List (Fault StorageFailure)) :
    RetriedAll past source_id (retriedAttempts env source_id
        (s.mem.deferred.group source_id).entries (s.undeferred source_id) faults) s
      (retryDeferredSeals env source_id s faults).1 (retryDeferredSeals env source_id s faults).2.1 := by
  have hnd : ((s.mem.deferred.group source_id).entries.map Prod.fst).Nodup := OrdMap.keys_nodup _
  have h := @retried env source_id _ hnd (s.undeferred source_id) faults
  have hlisted : ∀ e ∈ (s.mem.deferred.group source_id).entries, held past source_id e.1 = true := by
    intro e he
    rw [← hpast]
    exact (group_keys _ _ _).mp ⟨e, he, rfl⟩
  rw [run_retryDeferredSeals]
  generalize retriedAttempts env source_id _ _ faults = attempts at h ⊢
  rcases hr : Prog.foldEach (retryDeferredSeal env source_id) []
    (s.mem.deferred.group source_id).entries (s.undeferred source_id) faults with
    ⟨left | e | -, s', fs'⟩ <;> rw [hr] at h
  · obtain ⟨hsub, hremain⟩ := h.remain left rfl
    have hheld : ∀ stream, stream ∈ left.map Prod.fst ↔
        held (past ++ attempts) source_id stream = true := by
      intro stream
      by_cases hstream : ∃ e ∈ (s.mem.deferred.group source_id).entries, e.1 = stream
      · obtain ⟨e, he, rfl⟩ := hstream
        exact hremain past hlisted e he
      · -- a stream that was not listed: no attempt is at it
        have hnot : ∀ t ∈ attempts, t.covers source_id stream = false := by
          intro t ht
          obtain ⟨e, he, hid, hstreams⟩ := h.covers t ht
          rw [Attempt.covers_one hid hstreams, decide_eq_false_iff_not]
          intro heq
          exact hstream ⟨e, he, heq.symm⟩
        rw [held_append_of_not_covers hnot, ← hpast, ← group_keys]
        refine iff_of_false (fun hmem => hstream ?_) hstream
        obtain ⟨e, he, rfl⟩ := List.mem_map.mp hmem
        exact ⟨e, hsub.subset he, rfl⟩
    refine ⟨nofun, h.keeps past, fun _ k hk => ⟨h.same nofun k hk,
      Archive.callerRowsOf_congr h.caller_rows k⟩, fun names hnames => ?_⟩
    injection hnames with hnames
    subst hnames
    refine ⟨(hsub.map Prod.fst).nodup hnd, hheld, fun id stream => ?_⟩
    have hdeferred : ∀ k, s'.mem.deferred.get? k =
        (s.mem.deferred.get? k).filter fun _ => (ofLex k).1 ≠ source_id := by
      intro k
      rw [h.deferred]
      exact OrdMap.get?_filter _ _ _
    show ((s'.mem.deferred.insertAll _).get? (streamKey id stream)).isSome = _
    by_cases hid : id = source_id
    · subst hid
      by_cases hmem : stream ∈ left.map Prod.fst
      · obtain ⟨e, he, rfl⟩ := List.mem_map.mp hmem
        have hkeys : ((left.map fun e => (streamKey id e.1, e.2)).map Prod.fst).Nodup := by
          have hkeys : (left.map fun e => (streamKey id e.1, e.2)).map Prod.fst =
              (left.map Prod.fst).map (streamKey id) := by simp
          rw [hkeys]
          exact ((hsub.map Prod.fst).nodup hnd).map fun x y hxy =>
            congrArg (fun k => (ofLex k).2) hxy
        rw [(hheld e.1).mp hmem, OrdMap.get?_insertAll_of_mem hkeys
          (List.mem_map_of_mem (f := fun e => (streamKey id e.1, e.2)) he)]
        rfl
      · rw [Bool.eq_false_iff.mpr fun hh => hmem ((hheld stream).mpr hh),
          OrdMap.get?_insertAll_of_not_mem, hdeferred]
        · cases s.mem.deferred.get? (streamKey id stream) <;> simp
        · intro x hx heq
          obtain ⟨e, he, rfl⟩ := List.mem_map.mp hx
          have hname : e.1 = stream := congrArg (fun k => (ofLex k).2) heq
          exact hmem (hname ▸ List.mem_map_of_mem he)
    · have hother : ∀ t ∈ attempts, t.covers id stream = false := by
        intro t ht
        obtain ⟨e, -, hsource, -⟩ := h.covers t ht
        simp [Attempt.covers, hsource, Ne.symm hid]
      rw [held_append_of_not_covers hother, ← hpast, OrdMap.get?_insertAll_of_not_mem, hdeferred]
      · cases s.mem.deferred.get? (streamKey id stream) <;> simp [hid]
      · intro x hx heq
        obtain ⟨e, he, rfl⟩ := List.mem_map.mp hx
        exact hid (congrArg (fun k => (ofLex k).1) heq).symm
  · exact absurd rfl (h.returns e)
  · exact ⟨nofun, h.keeps past, fun hne => absurd rfl hne, nofun⟩

/-- What an eviction does to every stream, by the attempts to seal made before it and by it;
`mid` is where its own retries left the file. -/
structure Retention (past : List Attempt) (source_id : Int) (cutoff_ts : Int64)
    (streams : Option (String → Bool)) (floor : Option Archive.CallerRowFloor)
    (s mid : WriterState) (r : Outcome Error (Except Error Archive.Evicted)) (s' : WriterState) :
    Prop where
  /-- A held stream loses nothing, however the eviction ends. -/
  kept : ∀ stream, held past source_id stream = true →
    Archive.Keeps s.db s'.db (streamKey source_id stream)
  /-- An eviction that succeeds cuts every other stream that the filter accepts, -/
  evicted : ∀ ev, r = .ok (.ok ev) → ∀ stream, accepted streams stream = true →
    held past source_id stream = false →
      Archive.EvictedAt mid.db s'.db source_id stream cutoff_ts floor
  /-- nothing else, -/
  untouched : ∀ ev, r = .ok (.ok ev) → ∀ k, ((ofLex k).1 = source_id →
    accepted streams (ofLex k).2 = false ∨ held past source_id (ofLex k).2 = true) →
      Archive.Untouched mid.db s'.db k
  /-- and reports how many of the streams that the filter accepts are held. -/
  held_streams : ∀ ev, r = .ok (.ok ev) → ev.held_streams = Set.ncard {stream |
    held past source_id stream = true ∧ accepted streams stream = true}
  /-- One that fails takes nothing. -/
  failed : ∀ e, r = .ok (.error e) → s'.db = mid.db

theorem ncard_held {names : List String} (hnd : names.Nodup)
    (hmem : ∀ stream, stream ∈ names ↔ held past source_id stream = true)
    (streams : Option (String → Bool)) :
    (names.filter (accepted streams)).length = Set.ncard {stream |
      held past source_id stream = true ∧ accepted streams stream = true} := by
  have hset : {stream | held past source_id stream = true ∧ accepted streams stream = true} =
      ((names.filter (accepted streams)).toFinset : Set String) := by
    ext stream
    simp [hmem]
  rw [hset, Set.ncard_coe_finset, List.toFinset_card_of_nodup (hnd.filter _)]

/-- How the arm ends after its retries: it evicted what it accepts, or it did nothing and does
not say that it did. -/
structure ArmEnds (source_id : Int) (cutoff_ts : Int64) (floor : Option Archive.CallerRowFloor)
    (accepts : String → Bool) (still : Nat) (mid : WriterState)
    (r : Outcome Error (Except Error Archive.Evicted)) (s' : WriterState) : Prop where
  mem : s'.mem = mid.mem
  db : (Archive.Passed mid.db s'.db source_id cutoff_ts floor accepts ∧ ∀ e, r ≠ .ok (.error e)) ∨
    s'.db = mid.db ∧ ∀ ev, r ≠ .ok (.ok ev)
  held_streams : ∀ ev, r = .ok (.ok ev) → ev.held_streams = still

theorem ends_arm {cutoff_ts : Int64} {floor : Option Archive.CallerRowFloor}
    {accepts : String → Bool} {still : Nat} {mid : WriterState} {pass : WriterM Archive.Evicted}
    {k : Except Error Archive.Evicted → WriterM (Except Error Archive.Evicted)}
    (hpass : Prog.Ends pass mid (PassEnds source_id cutoff_ts floor accepts mid))
    (herr : ∀ e, k (.error e) = pure (.error e))
    (hok : ∀ ev : Archive.Evicted, k (.ok ev) = Prog.attempt reclaim >>= fun _ =>
      pure (.ok { ev with held_streams := still })) :
    Prog.Ends (Prog.attempt pass >>= k) mid
      (ArmEnds source_id cutoff_ts floor accepts still mid) := by
  have hattempt : Prog.Ends (Prog.attempt pass) mid fun r s' => s'.mem = mid.mem ∧
      ((Archive.Passed mid.db s'.db source_id cutoff_ts floor accepts ∧ ∀ e, r ≠ .ok (.error e)) ∨
        s'.db = mid.db ∧ ∀ ev, r ≠ .ok (.ok ev)) ∧ ∀ e, r ≠ .err e := by
    refine hpass.attempt (fun ev s' h => ⟨h.mem, ?_, nofun⟩) (fun e s' h => ⟨h.mem, ?_, nofun⟩)
      fun s' h => ⟨h.mem, h.db.imp (fun h => ⟨h.1, nofun⟩) fun h => ⟨h.1, nofun⟩, nofun⟩
    · rcases h.db with ⟨hpassed, -⟩ | ⟨-, hne⟩
      · exact .inl ⟨hpassed, nofun⟩
      · exact absurd rfl (hne ev)
    · rcases h.db with ⟨-, hne⟩ | ⟨hsame, -⟩
      · exact absurd rfl (hne e)
      · exact .inr ⟨hsame, nofun⟩
  -- what follows the pass touches no table
  have hreclaim : ∀ s', Prog.Ends reclaim s' fun _ s'' => s'' = s' := fun s' =>
    Prog.Ends.read (P := fun _ s'' => s'' = s') (fun _ _ => rfl) (fun _ => rfl) rfl
  refine hattempt.bind ?_ (fun e s' h => absurd rfl (h.2.2 e)) fun s' h => ⟨h.1, ?_, nofun⟩
  · rintro (e | ev) s' ⟨hmem, hdb, -⟩
    · rw [herr]
      rcases hdb with ⟨-, hne⟩ | ⟨hsame, -⟩
      · exact absurd rfl (hne e)
      · exact .pure ⟨hmem, .inr ⟨hsame, nofun⟩, nofun⟩
    · rw [hok]
      rcases hdb with ⟨hpassed, -⟩ | ⟨-, hne⟩
      · refine .bind (P := fun r s'' => s'' = s' ∧ ∀ e, r ≠ .err e) ((hreclaim s').attempt
          (fun _ _ h => ⟨h, nofun⟩) (fun _ _ h => ⟨h, nofun⟩) fun _ h => ⟨h, nofun⟩) ?_
          (fun e _ h => absurd rfl (h.2 e)) ?_
        · rintro _ s'' ⟨rfl, -⟩
          refine .pure ⟨hmem, .inl ⟨hpassed, nofun⟩, fun ev' hev => ?_⟩
          injection hev with hev
          injection hev with hev
          rw [← hev]
        · rintro s'' ⟨rfl, -⟩
          exact ⟨hmem, .inl ⟨hpassed, nofun⟩, nofun⟩
      · exact absurd rfl (hne ev)
  · exact h.2.1.imp (fun h => ⟨h.1, nofun⟩) fun h => ⟨h.1, nofun⟩

/-- The filter a pass ends up with: the caller's, less the streams held. -/
theorem ends_evictArm {cutoff_ts : Int64} {streams : Option (String → Bool)}
    {floor : Option Archive.CallerRowFloor} {names : List String} {mid : WriterState}
    {pass : WriterM Archive.Evicted} (hpass : pass = match
        (if (names.filter (accepted streams)).isEmpty then streams else
          some fun n => !(names.filter (accepted streams)).contains n && accepted streams n) with
      | some accepts => evictStreamsBefore source_id cutoff_ts accepts floor
      | none => evictBefore source_id cutoff_ts floor) :
    Prog.Ends pass mid (PassEnds source_id cutoff_ts floor
      (fun n => accepted streams n && !names.contains n) mid) := by
  subst hpass
  have hstill : ∀ n, (names.filter (accepted streams)).contains n =
      (names.contains n && accepted streams n) := by
    intro n
    rw [Bool.eq_iff_iff]
    simp
  split_ifs with hempty
  · have hnone : ∀ n, (accepted streams n && !names.contains n) = accepted streams n := by
      intro n
      have hn := hstill n
      rw [List.isEmpty_iff.mp hempty, List.contains_nil] at hn
      cases hc : names.contains n with
      | false => rw [Bool.not_false, Bool.and_true]
      | true =>
          rw [hc, Bool.true_and] at hn
          rw [← hn]
          rfl
    rw [funext hnone]
    cases streams with
    | none => exact ends_evictBefore
    | some accepts => exact ends_evictStreamsBefore
  · have hsame : (fun n => !(names.filter (accepted streams)).contains n && accepted streams n) =
        fun n => accepted streams n && !names.contains n := by
      funext n
      rw [hstill]
      cases names.contains n <;> cases accepted streams n <;> rfl
    rw [← hsame]
    exact ends_evictStreamsBefore

/-- **Retention leaves the held streams alone**, and keeps the list exact. -/
theorem handleEvict_retention (hpast : DeferredExact past s.mem) (cutoff_ts : Int64)
    (streams : Option (String → Bool)) (floor : Option Archive.CallerRowFloor)
    (faults : List (Fault StorageFailure)) :
    let now := past ++ retriedAttempts env source_id (s.mem.deferred.group source_id).entries
      (s.undeferred source_id) faults
    let run := handleEvict env source_id cutoff_ts streams floor s faults
    Retention now source_id cutoff_ts streams floor s
        (retryDeferredSeals env source_id s faults).2.1 run.1 run.2.1 ∧
      ∀ a, run.1 = .ok a → DeferredExact now run.2.1.mem := by
  intro now run
  have hretried := @retriedAll env past s source_id hpast faults
  rcases hr : retryDeferredSeals env source_id s faults with ⟨names | e | -, mid, fs'⟩ <;>
    rw [hr] at hretried
  · obtain ⟨hnd, hmem, hexact⟩ := hretried.left names rfl
    have harm : ArmEnds source_id cutoff_ts floor (fun n => accepted streams n && !names.contains n)
        (names.filter (accepted streams)).length mid run.1 run.2.1 := by
      show ArmEnds _ _ _ _ _ mid (handleEvict env source_id cutoff_ts streams floor s faults).1
        (handleEvict env source_id cutoff_ts streams floor s faults).2.1
      unfold handleEvict
      rw [Prog.run_bind_ok hr]
      cases streams with
      | none =>
          refine ends_arm (ends_evictArm ?_) (fun _ => ?_) (fun _ => ?_) fs' <;> rfl
      | some accepts =>
          refine ends_arm (ends_evictArm ?_) (fun _ => ?_) (fun _ => ?_) fs' <;> rfl
    have haccepts : ∀ stream, held now source_id stream = false → accepted streams stream = true →
        (accepted streams stream && !names.contains stream) = true := by
      intro stream hh ha
      have hnot : stream ∉ names := fun hin => by
        rw [(hmem stream).mp hin] at hh
        exact absurd hh (by simp)
      simp [ha, hnot]
    have hrejects : ∀ stream, accepted streams stream = false ∨ held now source_id stream = true →
        (accepted streams stream && !names.contains stream) = false := by
      rintro stream (ha | hh)
      · rw [ha, Bool.false_and]
      · simp [(hmem stream).mpr hh]
    refine ⟨⟨fun stream hh => ?_, fun ev hev stream ha hh => ?_, fun ev hev k hk => ?_,
      fun ev hev => ?_, fun e he => ?_⟩, fun a _ => ?_⟩
    · refine (hretried.keeps stream hh).trans ?_
      rcases harm.db with ⟨hpassed, -⟩ | ⟨hsame, -⟩
      · exact (hpassed.untouched (streamKey source_id stream) fun _ =>
          hrejects stream (.inr hh)).keeps
      · rw [hsame]
        exact .refl _ _
    · rcases harm.db with ⟨hpassed, -⟩ | ⟨-, hne⟩
      · exact hpassed.evicted stream (haccepts stream hh ha)
      · exact absurd hev (hne ev)
    · rcases harm.db with ⟨hpassed, -⟩ | ⟨-, hne⟩
      · exact hpassed.untouched k fun hid => hrejects _ (hk hid)
      · exact absurd hev (hne ev)
    · rw [harm.held_streams ev hev, ncard_held hnd hmem]
    · rcases harm.db with ⟨-, hne⟩ | ⟨hsame, -⟩
      · exact absurd he (hne e)
      · exact hsame
    · rw [harm.mem]
      exact hexact
  · exact absurd rfl (hretried.returns e)
  · have hrun : run = (.killed, mid, fs') := by
      show handleEvict env source_id cutoff_ts streams floor s faults = _
      unfold handleEvict
      rw [Prog.run_bind, hr]
    rw [hrun]
    exact ⟨⟨hretried.keeps, nofun, nofun, nofun, nofun⟩, nofun⟩

end

/-! ## Runs -/

/-- The attempts that an event makes. -/
def Event.attempts (w : World) : Event → List Attempt
  | .message env msg faults =>
    match w.mem with
    | some m => attemptsOf env msg { disk := w.disk, mem := m } faults
    | none => []
  | _ => []

/-- The attempts that the thread that owns the file made since it opened it. -/
def World.attempts (w : World) (past : List Attempt) : List Event → List Attempt
  | [] => past
  | e :: es =>
    (w.apply e).attempts (match e, w.mem with
      | .reopen, none => []
      | _, _ => past ++ e.attempts w) es

section

variable {env : Env} {past : List Attempt} {s : WriterState}

/-- A message that does not seal leaves the list of deferred seals. -/
theorem deferred_steps {msg : Msg} (hmsg : msg.seals = false) {s' : WriterState}
    (h : ReflTransGen (WriterStep env msg) s s') : s'.mem.deferred = s.mem.deferred := by
  induction h with
  | refl => rfl
  | tail _ hlast ih =>
      refine Eq.trans ?_ ih
      cases hlast with
      | memory _ hd => exact hd hmsg
      | resumed _ _ _ hd _ => exact hd
      | sealed => exact sealed_deferred _ _ _
      | _ => rfl

theorem get?_foldl_erase {α : Type} (source_id : Int) (k : StreamKey) :
    ∀ (batch : List String) (m : OrdMap StreamKey α),
      ((batch.foldl (fun held stream => held.erase (streamKey source_id stream)) m).get? k) =
        if k ∈ batch.map (streamKey source_id) then none else m.get? k
  | [], m => rfl
  | stream :: batch, m => by
      rw [List.foldl_cons, get?_foldl_erase source_id k batch, OrdMap.get?_erase, List.map_cons]
      by_cases hk : k = streamKey source_id stream
      · simp [hk]
      · simp [hk]

theorem isSome_deferBatch (source_id : Int) (max_rows : Nat) (k : StreamKey) :
    ∀ (batch : List String) (m : OrdMap StreamKey Nat),
      ((deferBatch source_id batch max_rows m).get? k).isSome =
        (decide (k ∈ batch.map (streamKey source_id)) || (m.get? k).isSome)
  | [], m => rfl
  | stream :: batch, m => by
      have hrest := isSome_deferBatch source_id max_rows k batch
      unfold deferBatch at hrest ⊢
      rw [List.foldl_cons, hrest, OrdMap.get?_insert, List.map_cons]
      by_cases hk : k = streamKey source_id stream
      · simp [hk]
      · simp [hk]

theorem covers_iff {source_id id : Int} {batch : List String} {sealing : Sealing} {stream : String} :
    Attempt.covers ⟨source_id, batch, sealing⟩ id stream =
      decide (streamKey id stream ∈ batch.map (streamKey source_id)) := by
  rw [Bool.eq_iff_iff, decide_eq_true_iff, List.mem_map]
  simp only [Attempt.covers, Bool.and_eq_true, decide_eq_true_eq, List.contains_iff_mem]
  constructor
  · rintro ⟨rfl, hs⟩
    exact ⟨stream, hs, rfl⟩
  · rintro ⟨name, hname, heq⟩
    have hid : source_id = id := congrArg (fun k => (ofLex k).1) heq
    have hstream : name = stream := congrArg (fun k => (ofLex k).2) heq
    exact ⟨hid, hstream ▸ hname⟩

theorem attemptsOf_seal {source_id : Int} {batch : List String} {max_rows : Nat}
    {faults : List (Fault StorageFailure)} {sealing : Sealing}
    (h : Sealing.of (withRetries (sealBatch env source_id batch max_rows) s faults).1 = some sealing) :
    attemptsOf env (.seal source_id batch max_rows) s faults = [⟨source_id, batch, sealing⟩] := by
  unfold attemptsOf
  simp only [h]

/-- **A seal keeps the list exact.** -/
theorem handleSeal_exact (hpast : DeferredExact past s.mem) (source_id : Int) (batch : List String)
    (max_rows : Nat) (faults : List (Fault StorageFailure)) :
    let run := handleSeal env source_id batch max_rows s faults
    run.1 = .ok () →
      DeferredExact (past ++ attemptsOf env (.seal source_id batch max_rows) s faults) run.2.1.mem := by
  have hkeep : Prog.Keeps (withRetries (sealBatch env source_id batch max_rows)) s
      fun s' => s'.mem.deferred = s.mem.deferred :=
    .retry (fun _ hs' => keeps_sealBatch hs') (fun _ _ hs' => hs') 3 s rfl
  replace hkeep := hkeep faults
  intro run
  have hrun : run = handleSeal env source_id batch max_rows s faults := rfl
  unfold handleSeal at hrun
  rw [Prog.run_bind] at hrun
  unfold Prog.attempt at hrun
  have hattempts : ∀ sealing, Sealing.of _ = some sealing → _ := fun sealing =>
    @attemptsOf_seal env s source_id batch max_rows faults sealing
  rcases hr : withRetries (sealBatch env source_id batch max_rows) s faults with
    ⟨u | e | -, s', fs'⟩ <;> rw [hr] at hrun hkeep hattempts
  · rw [hrun, hattempts .sealed rfl]
    intro _ id stream
    show ((undeferBatch source_id batch s'.mem.deferred).get? (streamKey id stream)).isSome = _
    rw [undeferBatch, get?_foldl_erase, hkeep, held_append_singleton, covers_iff, ← hpast]
    by_cases hk : streamKey id stream ∈ batch.map (streamKey source_id)
    · simp [hk]
    · simp [hk]
  · by_cases he : e.isRetryable
    · simp only [he, if_true] at hrun
      rw [hrun, hattempts .deferred (congrArg some (if_pos he))]
      intro _ id stream
      show ((deferBatch source_id batch max_rows s'.mem.deferred).get? (streamKey id stream)).isSome = _
      rw [isSome_deferBatch, hkeep, held_append_singleton, covers_iff, ← hpast]
      by_cases hk : streamKey id stream ∈ batch.map (streamKey source_id)
      · simp [hk]
      · simp [hk]
    · simp only [he, Bool.false_eq_true, if_false] at hrun
      rw [hrun]
      exact fun h => nomatch h
  · rw [hrun]
    exact fun h => nomatch h

/-- **Every message keeps the list exact**, as long as the thread goes on. -/
theorem handle_exact (hpast : DeferredExact past s.mem) (msg : Msg)
    (faults : List (Fault StorageFailure)) (reply : Reply)
    (h : (handle env msg s faults).1 = .ok reply) :
    DeferredExact (past ++ attemptsOf env msg s faults) (handle env msg s faults).2.1.mem := by
  by_cases hmsg : msg.seals = false
  · have hkeep := deferred_steps hmsg ((handle_runs env msg s).steps faults)
    have hnone : attemptsOf env msg s faults = [] := by
      cases msg <;> first | rfl | exact absurd hmsg (by simp [Msg.seals])
    intro id stream
    rw [hnone, List.append_nil, hkeep]
    exact hpast id stream
  · cases msg with
    | «seal» source_id batch max_rows =>
        have hseal := @handleSeal_exact env past s hpast source_id batch max_rows faults
        have hrun : handle env (.seal source_id batch max_rows) s faults =
          (handleSeal env source_id batch max_rows >>= fun _ => pure Reply.done) s faults := rfl
        rw [hrun, Prog.run_bind] at h ⊢
        rcases hr : handleSeal env source_id batch max_rows s faults with ⟨u | e | -, s', fs'⟩ <;>
          rw [hr] at hseal h
        · exact hseal rfl
        · exact absurd h nofun
        · exact absurd h nofun
    | evict source_id cutoff_ts streams floor =>
        have hevict := (@handleEvict_retention env past s source_id hpast cutoff_ts
          streams floor faults).2
        have hrun : handle env (.evict source_id cutoff_ts streams floor) s faults =
          (handleEvict env source_id cutoff_ts streams floor >>= fun ev =>
            pure (Reply.evicted ev)) s faults := rfl
        rw [hrun, Prog.run_bind] at h ⊢
        rcases hr : handleEvict env source_id cutoff_ts streams floor s faults with
          ⟨ev | e | -, s', fs'⟩ <;> rw [hr] at hevict h
        · exact hevict ev rfl
        · exact absurd h nofun
        · exact absurd h nofun
    | _ => exact absurd rfl hmsg

end

theorem apply_exact {w : World} {past : List Attempt} (event : Event)
    (h : ∀ m, w.mem = some m → DeferredExact past m) (hopen : event = .reopen → w.mem ≠ none) :
    ∀ m, (w.apply event).mem = some m → DeferredExact (past ++ event.attempts w) m := by
  obtain ⟨disk, mem⟩ := w
  cases event with
  | message env msg faults =>
      cases mem with
      | none => exact fun m hm => absurd hm (by simp [World.apply])
      | some m =>
          intro m' hm'
          have hexact := @handle_exact env past ⟨disk, m⟩ (h m rfl) msg faults
          simp only [World.apply, World.left] at hm'
          rcases hr : (handle env msg ⟨disk, m⟩ faults).1 with reply | e | - <;> rw [hr] at hm'
          · split at hm'
            · exact Option.some.inj hm' ▸ hexact reply hr
            · exact absurd hm' (by simp)
          · exact absurd hm' (by simp [goesOn])
          · exact absurd hm' (by simp [goesOn])
  | beat faults =>
      cases mem with
      | none => exact fun m hm => absurd hm (by simp [World.apply])
      | some m =>
          intro m' hm'
          have hkeep := @deferred_steps Env.idle ⟨disk, m⟩ .sync rfl _
            ((beatTimer_runs Env.idle .sync ⟨disk, m⟩).steps faults)
          simp only [World.apply, World.left] at hm'
          split at hm'
          · obtain rfl := Option.some.inj hm'
            intro id stream
            have hnone : (Event.beat faults).attempts ⟨disk, some m⟩ = [] := rfl
            rw [hkeep, hnone, List.append_nil]
            exact h m rfl id stream
          · exact absurd hm' (by simp)
  | kill => exact fun m hm => absurd hm (by simp [World.apply])
  | reopen =>
      cases mem with
      | none => exact absurd rfl (hopen rfl)
      | some m =>
          intro m' hm'
          have hnone : Event.reopen.attempts ⟨disk, some m⟩ = [] := rfl
          rw [hnone, List.append_nil]
          exact h m' hm'

/-- **The list of deferred seals is exact after every run.** -/
theorem deferred_exact : ∀ (events : List Event) (w : World) (past : List Attempt),
    (∀ m, w.mem = some m → DeferredExact past m) →
      ∀ m, (w.run events).mem = some m → DeferredExact (w.attempts past events) m
  | [], _, _, h => h
  | event :: events, w, past, h => by
      refine deferred_exact events (w.apply event) _ ?_
      by_cases hopen : event = .reopen ∧ w.mem = none
      · obtain ⟨rfl, hnone⟩ := hopen
        intro m hm
        simp only [World.apply, hnone, Option.some.injEq] at hm
        simp only [hnone]
        intro id stream
        rw [← hm]
        rfl
      · have hkept := apply_exact event h fun he hnone => hopen ⟨he, hnone⟩
        intro m hm
        rcases hm' : w.mem with _ | m'
        · cases event with
          | reopen => exact absurd ⟨rfl, hm'⟩ hopen
          | _ => exact hkept m hm
        · cases event <;> exact hkept m hm

theorem apply_evict_disk {w : World} {m : Caches} (hm : w.mem = some m) (env : Env) (source_id : Int)
    (cutoff_ts : Int64) (streams : Option (String → Bool)) (floor : Option Archive.CallerRowFloor)
    (faults : List (Fault StorageFailure)) :
    (w.apply (.message env (.evict source_id cutoff_ts streams floor) faults)).disk =
      (handleEvict env source_id cutoff_ts streams floor ⟨w.disk, m⟩ faults).2.1.disk := by
  have hrun : handle env (.evict source_id cutoff_ts streams floor) ⟨w.disk, m⟩ faults =
    (handleEvict env source_id cutoff_ts streams floor >>= fun ev =>
      pure (Reply.evicted ev)) ⟨w.disk, m⟩ faults := rfl
  unfold World.apply
  rw [hm]
  dsimp only
  rw [hrun, Prog.run_bind]
  rcases handleEvict env source_id cutoff_ts streams floor ⟨w.disk, m⟩ faults with
    ⟨ev | e | -, s', fs'⟩ <;> rfl

/-- **Retention never touches a held stream.** After any run, whatever failed in it, an
eviction takes nothing from a stream whose last attempt to seal was deferred, the eviction's
own attempts among them; it evicts every other stream its filter accepts, and no other, and
reports how many of those it would have accepted are held. -/
theorem retention_leaves_held (layout : IndexLayout) (events : List Event) (m : Caches)
    (hm : ((World.create layout).run events).mem = some m) (env : Env) (source_id : Int)
    (cutoff_ts : Int64) (streams : Option (String → Bool)) (floor : Option Archive.CallerRowFloor)
    (faults : List (Fault StorageFailure)) :
    let w := (World.create layout).run events
    let s : WriterState := { disk := w.disk, mem := m }
    let msg := Msg.evict source_id cutoff_ts streams floor
    let mid := retryDeferredSeals env source_id s faults
    let run := handleEvict env source_id cutoff_ts streams floor s faults
    (w.apply (.message env msg faults)).disk = run.2.1.disk ∧
      Retention ((World.create layout).attempts [] events ++ attemptsOf env msg s faults) source_id
        cutoff_ts streams floor s mid.2.1 run.1 run.2.1 ∧
      (mid.1 ≠ .killed → ∀ k,
        (∀ t ∈ attemptsOf env msg s faults, t.covers (ofLex k).1 (ofLex k).2 = false) →
          Archive.Untouched s.db mid.2.1.db k) := by
  intro w s msg mid run
  have hexact : DeferredExact ((World.create layout).attempts [] events) s.mem := by
    refine deferred_exact events _ [] (fun m' hm' id stream => ?_) m hm
    rw [← Option.some.inj hm']
    rfl
  exact ⟨apply_evict_disk hm env source_id cutoff_ts streams floor faults,
    (handleEvict_retention hexact cutoff_ts streams floor faults).1,
    (retriedAll hexact faults).untried⟩

/-- A row at 5 whose seal cannot commit. -/
def deferredSeal : List Event :=
  let r : WalRow := { stream := "cpu", ts := 5, wall_offset := 0, row := [1] }
  let env := { Env.idle with encoder := oneRow r }
  let busy : Fault StorageFailure := .fails ⟨"", .sqliteFailure .databaseBusy "database is locked"⟩
  [.message env (.addSource { labels := ∅, metadata := ∅, clock_anchor_wall_ns := 0 } none) [],
    .message env (.wal [(1, [r])]) [],
    .message env (.seal 1 ["cpu"] 10) (List.replicate 4 busy)]

theorem retention_leaves_held_deferredSeal :
    let w := (World.create .table).run deferredSeal
    let busy : Fault StorageFailure := .fails ⟨"", .sqliteFailure .databaseBusy "database is locked"⟩
    let m := w.mem.get (by decide +kernel)
    let run := handleEvict Env.idle 1 10 none none { disk := w.disk, mem := m } (List.replicate 4 busy)
    Archive.Keeps w.disk.db run.2.1.db (streamKey 1 "cpu") ∧
      ∀ ev, run.1 = .ok (.ok ev) → ev.held_streams = Set.ncard {stream |
        held ((World.create .table).attempts [] deferredSeal ++ attemptsOf Env.idle
          (.evict 1 10 none none) { disk := w.disk, mem := m } (List.replicate 4 busy)) 1 stream =
            true ∧ accepted none stream = true} := by
  intro w busy m run
  have hm : w.mem = some m := (Option.some_get _).symm
  obtain ⟨-, hretention, -⟩ := retention_leaves_held .table deferredSeal m hm Env.idle 1 10 none none
    (List.replicate 4 busy)
  exact ⟨hretention.kept "cpu" (by decide +kernel), hretention.held_streams⟩

end Dendro
