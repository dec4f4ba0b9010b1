import Dendro.Writer.World

/-!
# The resume floor

A session that resumes a source may only write past every row the source already has. The
newest of them is found at the resume, over all streams, and kept as the source's floor.

`commit_tick` holds every row to the floor. `adopt_segment` does not look at it: it compares
a segment with its own stream's newest sealed row and unsealed rows, so into a stream that
is behind the others, or new, it lets a segment from before the floor. A session that offers
no such segment stays past the floor (`session_past_floor`).
-/

namespace Dendro

open Relation

/-- A time past every row that an archive holds for a source, in any of its streams. -/
structure Archive.PastSource (a : Archive) (source_id : Int) (ts : Int64) : Prop where
  sealed : ∀ stream, ∀ c ∈ a.runs (streamKey source_id stream), c.last < ts
  wal : ∀ stream, ∀ r ∈ a.readWal source_id stream, r.ts < ts

/-- What a transaction commits for a source is past every row of an earlier archive. -/
def Write.PastSource (a : Archive) (source_id : Int) : Write → Prop
  | .walRows ticks => ∀ t ∈ ticks, t.1 = source_id → ∀ r ∈ t.2, a.PastSource source_id r.ts
  | .adopt id segment _ => id = source_id → a.PastSource source_id segment.seg_meta.first_ts
  | _ => True

/-- **Past the newest row that the source is measured to have is past all its rows.** -/
theorem pastSource_of_span {a : Archive} {source_id : Int} {ts : Int64}
    (h : ∀ floor ∈ (a.sourceTimeSpan source_id).2, floor < ts) : a.PastSource source_id ts := by
  have hpast : ∀ t ∈ (a.segments.entries.filter
      fun e => (ofLex (ofLex e.1).1).1 = source_id).map (fun e => e.2.seg_meta.last_ts) ++
        (a.wal.keys.filter fun k => (ofLex (ofLex k).1).1 = source_id &&
          a.isLive (ofLex k).1 (ofLex k).2).map (fun k => (ofLex k).2), t < ts := by
    intro t ht
    rcases hmax : (a.sourceTimeSpan source_id).2 with _ | newest
    · rw [Archive.sourceTimeSpan, List.max?_eq_none_iff] at hmax
      rw [hmax] at ht
      exact absurd ht List.not_mem_nil
    · have hle := (List.max?_eq_some_iff.mp hmax).2 t ht
      exact lt_of_le_of_lt hle (h newest (by rw [hmax]; exact rfl))
  have hsealed : ∀ stream, ∀ c ∈ a.runs (streamKey source_id stream), c.last < ts := by
    intro stream c hc
    obtain ⟨seq, hseq⟩ := Archive.mem_runs.mp hc
    have hmem : (toLex (streamKey source_id stream, seq), c) ∈ a.segments.entries :=
      OrdMap.get?_eq_some.mp ((OrdMap.get?_group _ _ _).symm.trans hseq)
    exact hpast c.last (List.mem_append_left _ (List.mem_map.mpr
      ⟨_, List.mem_filter.mpr ⟨hmem, by simp [streamKey]⟩, rfl⟩))
  refine ⟨hsealed, fun stream r hr => ?_⟩
  obtain ⟨e, he, rfl⟩ := List.mem_map.mp hr
  show e.1 < ts
  by_cases hlive : a.isLive (streamKey source_id stream) e.1 = true
  · obtain ⟨ts', cols⟩ := e
    have hget : (a.walOf (streamKey source_id stream)).get? ts' = some cols :=
      OrdMap.get?_eq_some.mpr he
    have hkey : toLex (streamKey source_id stream, ts') ∈ a.wal.keys :=
      OrdMap.mem_keys.mpr ⟨cols, (OrdMap.get?_group _ _ _).symm.trans hget⟩
    exact hpast ts' (List.mem_append_right _ (List.mem_map.mpr
      ⟨_, List.mem_filter.mpr ⟨hkey, by simpa [streamKey] using hlive⟩, rfl⟩))
  · -- a row that is not live is at or below a segment
    rw [Archive.isLive_iff] at hlive
    push Not at hlive
    obtain ⟨c, hc, hle⟩ := hlive
    exact lt_of_le_of_lt hle (hsealed stream c hc)

/-! ## A session -/

/-- What holds of a thread while a session that began with the archive `a` and the history
`log` goes on: its floor is a floor, and it kept to it so far. -/
structure Session (a : Archive) (source_id : Int) (log : List (Archive × Write))
    (s : WriterState) : Prop where
  floor : ∀ ts, (∀ floor ∈ s.mem.floors.get? source_id, floor < ts) → a.PastSource source_id ts
  kept : ∃ since, s.disk.log = log ++ since ∧ ∀ e ∈ since, e.2.PastSource a source_id

section

variable {a : Archive} {source_id : Int} {log : List (Archive × Write)} {env : Env} {msg : Msg}
  {s s' : WriterState}

theorem Session.run (h : Session a source_id log s) {w : Write} (hw : w.PastSource a source_id)
    {m : Caches} (hm : m.floors = s.mem.floors) :
    Session a source_id log { s.run w with mem := m } := by
  obtain ⟨since, hlog, hpast⟩ := h.kept
  refine ⟨fun ts hts => h.floor ts (hm ▸ hts), ?_⟩
  rcases ha : w.apply s.db with e | db
  · rw [run_of_error ha]
    exact ⟨since, hlog, hpast⟩
  · rw [run_of_ok ha]
    refine ⟨since ++ [(s.db, w)], by simp [hlog], fun e he => ?_⟩
    rcases List.mem_append.mp he with he | he
    · exact hpast e he
    · obtain rfl := List.mem_singleton.mp he
      exact hw

theorem sealed_floors (source_id : Int) : ∀ (encoded : List Encoded) (m : Caches),
    (sealed source_id m encoded).floors = m.floors
  | [], _ => rfl
  | _ :: es, _ => sealed_floors source_id es _

/-- **Every step keeps a session past its floor**, but for an adoption and a new resume. -/
theorem Session.step (h : Session a source_id log s) (hs : WriterStep env msg s s')
    (hresume : ∀ anchor, msg ≠ .resumeSource source_id anchor)
    (hadopt : ∀ segment, msg ≠ .adoptSegment source_id segment) : Session a source_id log s' := by
  cases hs with
  | memory hm =>
      have hf : _ = s.mem.floors := congrArg (·.2.2) hm
      exact ⟨fun ts hts => h.floor ts (hf ▸ hts), h.kept⟩
  | @resumed id anchor m hmsg _ _ _ hother =>
      have hid : source_id ≠ id := by
        rintro rfl
        exact hresume anchor hmsg
      exact ⟨fun ts hts => h.floor ts (hother source_id hid ▸ hts), h.kept⟩
  | @beside w hw =>
      have hpast : w.PastSource a source_id := by
        cases w <;> first | exact trivial | exact absurd hw (by simp [Write.beside])
      exact h.run hpast rfl
  | @walRows asked ticks _ _ hfloor _ =>
      refine h.run (w := .walRows ticks) (fun t ht hid r hr => h.floor r.ts fun floor hf => ?_) rfl
      have hpast := hfloor t ht
      rw [belowFloor, hid] at hpast
      obtain hf : s.mem.floors.get? source_id = some floor := hf
      rw [hf] at hpast
      simp only [List.any_eq_false, decide_eq_true_eq, not_le] at hpast
      exact hpast r hr
  | prune => exact h.run (w := .pruneWal _ _ _) trivial rfl
  | evict => exact h.run (w := .evict _ _ _ _) trivial rfl
  | evictStreams => exact h.run (w := .evictStreams _ _ _ _) trivial rfl
  | sealed => exact h.run (w := .seal _ _ _ _) trivial (sealed_floors _ _ _)
  | sealRefused => exact h.run (w := .seal _ _ _ _) trivial rfl
  | @adopted id segment _ hmsg =>
      refine h.run (w := .adopt id segment _) (fun hid => ?_) rfl
      exact absurd (hid ▸ hmsg) (hadopt segment)
  | @adoptRefused id segment _ hmsg =>
      refine h.run (w := .adopt id segment _) (fun hid => ?_) rfl
      exact absurd (hid ▸ hmsg) (hadopt segment)

/-- An adoption of a segment that the checks would let in only past the floor. -/
theorem Session.adopt (h : Session a source_id log s) {segment : Adopted}
    (hoffer : AdoptPlan s source_id segment → a.PastSource source_id segment.seg_meta.first_ts)
    (faults : List (Fault StorageFailure)) : Session a source_id log
      (handle env (.adoptSegment source_id segment) s faults).2.1 := by
  have hstate : (handle env (.adoptSegment source_id segment) s faults).2.1 =
      (WriterM.withRetries (adoptSegment source_id segment) s faults).2.1 := by
    have hhandle : handle env (.adoptSegment source_id segment) = do
        return .adopted (← Prog.attempt (WriterM.withRetries (adoptSegment source_id segment))) :=
      rfl
    rw [hhandle, Prog.run_bind]
    unfold Prog.attempt
    rcases WriterM.withRetries (adoptSegment source_id segment) s faults with ⟨a | e | -, s', fs⟩
    · rfl
    · rfl
    · rfl
  rw [hstate]
  have hsteps := (@runs_adoptRetried source_id segment s).steps faults
  generalize (WriterM.withRetries (adoptSegment source_id segment) s faults).2.1 = s' at hsteps ⊢
  induction hsteps with
  | refl => exact h
  | tail _ hlast ih =>
      -- every attempt passes the checks it would have passed at the start
      have hfirst : ∀ {s₁ : WriterState}, s₁.mem = s.mem → s₁.db = s.db →
          AdoptPlan s₁ source_id segment → a.PastSource source_id segment.seg_meta.first_ts := by
        intro s₁ hmem hdb hplan
        exact hoffer ⟨hplan.rows, hplan.span, hmem ▸ hplan.past, hdb ▸ hplan.before_live⟩
      cases hlast with
      | inserted hmem hdb hplan _ =>
          exact ih.run (w := .adopt source_id segment _) (fun _ => hfirst hmem hdb hplan) rfl
      | refused hmem hdb hplan _ =>
          exact ih.run (w := .adopt source_id segment _) (fun _ => hfirst hmem hdb hplan) rfl

end

/-! ## Every session -/

/-- An event of a session of a source: the file is not reopened, and the source not resumed
again. -/
def Event.InSession (source_id : Int) : Event → Prop
  | .message _ (.resumeSource id _) _ => id ≠ source_id
  | .reopen => False
  | _ => True

/-- Every segment that the session offers for the source and that passes the checks of
`adopt_segment` starts past every row of `a`. -/
def World.OffersPast (a : Archive) (source_id : Int) : World → List Event → Prop
  | _, [] => True
  | w, e :: es => (∀ env segment faults m, e = .message env (.adoptSegment source_id segment) faults →
      w.mem = some m → AdoptPlan { disk := w.disk, mem := m } source_id segment →
        a.PastSource source_id segment.seg_meta.first_ts) ∧
    World.OffersPast a source_id (w.apply e) es

section

variable {a : Archive} {source_id : Int} {log : List (Archive × Write)}

/-- What a session has committed, and the thread that goes on with it. -/
abbrev World.Session (a : Archive) (source_id : Int) (log : List (Archive × Write)) (w : World) :
    Prop :=
  w.Kept (fun d => ∃ since, d.log = log ++ since ∧ ∀ e ∈ since, e.2.PastSource a source_id)
    (Dendro.Session a source_id log)

theorem Session.left {s : WriterState} (h : Session a source_id log s) (on : Bool) :
    (World.left on s).Session a source_id log := by
  refine ⟨h.kept, fun m hm => ?_⟩
  cases on with
  | false => exact absurd hm (by simp [World.left])
  | true => exact Option.some.inj hm ▸ h

theorem Session.steps {env : Env} {msg : Msg} {s s' : WriterState}
    (h : Session a source_id log s) (hs : ReflTransGen (WriterStep env msg) s s')
    (hresume : ∀ anchor, msg ≠ .resumeSource source_id anchor)
    (hadopt : ∀ segment, msg ≠ .adoptSegment source_id segment) :
    Session a source_id log s' := by
  induction hs with
  | refl => exact h
  | tail _ hlast ih => exact ih.step hlast hresume hadopt

theorem session_apply {w : World} (h : w.Session a source_id log) {e : Event}
    (he : e.InSession source_id) (hoffer : ∀ env segment faults m,
      e = .message env (.adoptSegment source_id segment) faults → w.mem = some m →
        AdoptPlan { disk := w.disk, mem := m } source_id segment →
          a.PastSource source_id segment.seg_meta.first_ts) :
    (w.apply e).Session a source_id log := by
  obtain ⟨disk, mem⟩ := w
  cases e with
  | message env msg faults =>
      cases mem with
      | none => exact h
      | some m =>
          have hthread := h.thread m rfl
          by_cases hadopt : ∃ segment, msg = .adoptSegment source_id segment
          · obtain ⟨segment, rfl⟩ := hadopt
            have hadopted := @Session.adopt a source_id log env _ hthread segment
              (hoffer env segment faults m rfl rfl) faults
            exact hadopted.left _
          · have hresume : ∀ anchor, msg ≠ .resumeSource source_id anchor := by
              rintro anchor rfl
              exact he rfl
            exact (hthread.steps ((handle_runs env msg _).steps faults) hresume
              fun segment hmsg => hadopt ⟨segment, hmsg⟩).left _
  | beat faults =>
      cases mem with
      | none => exact h
      | some m =>
          exact ((h.thread m rfl).steps ((beatTimer_runs Env.idle .sync _).steps faults)
            (fun _ hmsg => nomatch hmsg) fun _ hmsg => nomatch hmsg).left _
  | kill => exact ⟨h.disk, fun m hm => absurd hm (by simp [World.apply])⟩
  | reopen => exact absurd he id

theorem session_run : ∀ {events : List Event} {w : World}, w.Session a source_id log →
    (∀ e ∈ events, e.InSession source_id) → w.OffersPast a source_id events →
      (w.run events).Session a source_id log
  | [], _, h, _, _ => h
  | e :: events, _, h, hs, ho => @session_run events _ (session_apply h (hs e (by simp)) ho.1)
      (fun e' he' => hs e' (by simp [he'])) ho.2

end

/-- **A session stays past its floor.** From any state of a thread, after a resume of a
source that succeeded and through whatever messages, failures and kill follow, each row and
each adopted segment that was committed for the source is past every row it had at the
resume, as long as the segments offered for it that pass the checks of `adopt_segment` are. -/
theorem session_past_floor (disk : Disk) (m : Caches) (env : Env) (source_id : Int)
    (anchor : Int64) (faults : List (Fault StorageFailure)) {r : Resumed}
    (h : (handle env (.resumeSource source_id anchor) { disk, mem := m } faults).1 =
      .ok (.resumed (.ok r))) (events : List Event)
    (hs : ∀ e ∈ events, e.InSession source_id)
    (ho : (World.left true (handle env (.resumeSource source_id anchor) { disk, mem := m }
      faults).2.1).OffersPast disk.db source_id events) :
    let s := (handle env (.resumeSource source_id anchor) { disk, mem := m } faults).2.1
    ∃ since, ((World.left true s).run events).disk.log = s.disk.log ++ since ∧
      ∀ e ∈ since, e.2.PastSource disk.db source_id := by
  intro s
  have hresume := @steps_handleResume env source_id anchor { disk, mem := m } faults
  have hfloor : Session disk.db source_id s.disk.log s := by
    refine ⟨fun ts hts => pastSource_of_span fun floor hf => hts floor ?_, [], by simp, by simp⟩
    rcases hr : handle env (.resumeSource source_id anchor) { disk, mem := m } faults with
      ⟨reply | e | -, s', fs⟩ <;> rw [hr] at h hresume
    · obtain rfl : reply = .resumed (.ok r) := by simpa using h
      have hs' : s = s' := by
        show (handle env (.resumeSource source_id anchor) { disk, mem := m } faults).2.1 = s'
        rw [hr]
      rw [hs']
      exact hresume.2 r rfl floor hf
    · exact absurd h (by simp)
    · exact absurd h (by simp)
  exact (session_run (hfloor.left true) hs ho).disk

/-- A session that leaves a row at 5, and a thread that reopens its archive. -/
def leftAtFive : World :=
  (World.create .table).run [
    .message .idle (.addSource { labels := ∅, metadata := ∅, clock_anchor_wall_ns := 0 } none) [],
    .message .idle (.wal [(1, [{ stream := "cpu", ts := 5, wall_offset := 0, row := [1] }])]) [],
    .kill, .reopen]

/-- A segment of another stream that starts at a given time. -/
def startsAt (first_ts : Int64) : Adopted where
  stream := "mem"
  seg_meta := { rows := 1, first_ts, last_ts := first_ts }
  bytes := [1]
  caller_index := none

theorem session_past_floor_startsAt :
    let m := Caches.seed leftAtFive.disk.db
    let s := (handle .idle (.resumeSource 1 10) { disk := leftAtFive.disk, mem := m } []).2.1
    ∃ since, ((World.left true s).run
        [.message .idle (.adoptSegment 1 (startsAt 7)) []]).disk.log = s.disk.log ++ since ∧
      ∀ e ∈ since, e.2.PastSource leftAtFive.disk.db 1 := by
  refine session_past_floor (r := { labels := ∅, last_ts := some 5 }) leftAtFive.disk _ .idle 1 10 []
    rfl _ (by simp [Event.InSession]) ⟨fun env segment faults m he _ _ => ?_, trivial⟩
  obtain ⟨-, hmsg, -⟩ := Event.message.inj he
  obtain ⟨-, rfl⟩ := Msg.adoptSegment.inj hmsg
  refine pastSource_of_span fun floor hf => ?_
  have hspan : (leftAtFive.disk.db.sourceTimeSpan 1).2 = some 5 := by decide
  rw [hspan] at hf
  obtain rfl : floor = 5 := by simpa using hf.symm
  decide

/-- The previous session left a row at 5 and the floor says so; a segment that starts at 2
is adopted into a stream the source did not have. -/
theorem adopted_below_floor :
    let resume : Event := .message .idle (.resumeSource 1 10) []
    let adopt : Event := .message .idle (.adoptSegment 1 (startsAt 2)) []
    (leftAtFive.disk.db.readWal 1 "cpu").map (·.ts) = [5] ∧
      ((leftAtFive.apply resume).mem.bind fun m => m.floors.get? 1) = some 5 ∧
      (((leftAtFive.apply resume).apply adopt).disk.db.readSegments 1 "mem").map
        (·.seg_meta.first_ts) = [2] := by
  decide

end Dendro
