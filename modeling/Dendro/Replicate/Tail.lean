import Dendro.Archive.Growth
import Dendro.Lib.Along
import Dendro.Replicate.Shipping

/-!
# Tailing an archive that is being written

A publisher opened by `catching_up`, and the archive it reads, over any interleaving of
transactions and polls. What a publisher should have shipped after each poll, and the order of
writing under which it has, are properties of one source; `Follows` is what has to be shown of
one turn to know both along every run (`Follows.along_iff`).
-/

namespace Dendro.Replicate

open Dendro

/-- An archive, and the publisher that tails it. -/
structure Tailer where
  db : Archive
  /-- The archive as the last call that succeeded saw it. -/
  polled : Archive
  pub : ArchivePublisher
  /-- Every frame handed out, in order. -/
  sent : List Frame

/-- What can happen to the two. -/
inductive TailEvent where
  | write (w : Write)
  /-- A `next`: the time it would read, and what happens to its reads. -/
  | poll (now : Int64) (faults : List (Fault StorageFailure))

namespace Tailer

/-- A transaction that is rolled back leaves the archive, and a `next` that fails hands out
nothing. -/
def step (t : Tailer) : TailEvent → Tailer
  | .write w => match w.apply t.db with
    | .ok db => { t with db }
    | .error _ => t
  | .poll now faults => match ArchivePublisher.next t.db now t.pub faults with
    | (.ok frames, pub, _) => { t with polled := t.db, pub, sent := t.sent ++ frames }
    | (_, pub, _) => { t with pub }

/-- A `next` that succeeds. -/
theorem step_poll {t : Tailer} {now : Int64} {faults : List (Fault StorageFailure)}
    (h : (ArchivePublisher.next t.db now t.pub faults).1.isOk) : ∃ frames pub faults',
      ArchivePublisher.next t.db now t.pub faults = (.ok frames, pub, faults') ∧
      t.step (.poll now faults) = ⟨t.db, t.db, pub, t.sent ++ frames⟩ := by
  rcases hnext : ArchivePublisher.next t.db now t.pub faults with ⟨frames | e | -, pub, faults'⟩
  · exact ⟨frames, pub, faults', rfl, by simp only [step, hnext]⟩
  · rw [hnext] at h
    exact absurd h (by simp [Outcome.isOk])
  · rw [hnext] at h
    exact absurd h (by simp [Outcome.isOk])

/-- What `catching_up` makes of an archive whose reads do not fail. -/
def catchUp (since : Int64) (db : Archive) : Tailer :=
  match ArchivePublisher.open_ db (some since) (.unopened (some since)) [] with
  | (.ok frames, pub, _) => { db, polled := db, pub, sent := frames }
  | (_, pub, _) => { db, polled := db, pub, sent := [] }

/-- `t` is just what `catching_up` made of the archive. -/
def Opened (since : Int64) (t : Tailer) : Prop :=
  ∃ faults faults', ArchivePublisher.open_ t.db (some since) (.unopened (some since)) faults =
    (.ok t.sent, t.pub, faults') ∧ t.polled = t.db

theorem opened_catchUp {since : Int64} {db : Archive}
    (h : (ArchivePublisher.open_ db (some since) (.unopened (some since)) []).1.isOk) :
    (catchUp since db).Opened since := by
  unfold catchUp
  rcases hopen : ArchivePublisher.open_ db (some since) (.unopened (some since)) [] with
    ⟨frames | e | -, pub, faults'⟩
  · exact ⟨[], faults', hopen, rfl⟩
  · rw [hopen] at h
    exact absurd h (by simp [Outcome.isOk])
  · rw [hopen] at h
    exact absurd h (by simp [Outcome.isOk])

end Tailer

namespace TailEvent

/-- No retention pass, and no `next` that fails. -/
def Plain (t : Tailer) : TailEvent → Prop
  | .write w => w.evicts = false
  | .poll now faults => (ArchivePublisher.next t.db now t.pub faults).1.isOk

instance (t : Tailer) : ∀ e, Decidable (Plain t e)
  | .write w => inferInstanceAs (Decidable (w.evicts = false))
  | .poll now faults => inferInstanceAs
      (Decidable ((ArchivePublisher.next t.db now t.pub faults).1.isOk = true))

/-- `P` holds before a poll. -/
def Before (P : Tailer → Prop) (t : Tailer) : TailEvent → Prop
  | .write _ => True
  | .poll .. => P t

/-- `P` holds after a poll. -/
def After (P : Tailer → Prop) (t : Tailer) : TailEvent → Prop
  | .write _ => True
  | .poll now faults => P (t.step (.poll now faults))

instance (P : Tailer → Prop) [DecidablePred P] (t : Tailer) : ∀ e, Decidable (Before P t e)
  | .write _ => inferInstanceAs (Decidable True)
  | .poll .. => inferInstanceAs (Decidable (P t))

instance (P : Tailer → Prop) [DecidablePred P] (t : Tailer) : ∀ e, Decidable (After P t e)
  | .write _ => inferInstanceAs (Decidable True)
  | .poll now faults => inferInstanceAs (Decidable (P (t.step (.poll now faults))))

end TailEvent

/-! ## Following every source -/

/-- After the last call, what was shipped of every source is as `P` says. -/
def Tailer.Shipped (P : Archive → Int → List (Int64 × Int64) → (String → List CallerRow) → Prop)
    (t : Tailer) : Prop :=
  ∀ id ∈ t.db.sources.keys, ∃ c ∈ t.pub.sources, c.source_id = id ∧
    P t.db id (offsetsOf c.ordinal t.sent) fun name => entriesOf c.ordinal name t.sent

instance (P : Archive → Int → List (Int64 × Int64) → (String → List CallerRow) → Prop)
    [∀ db id os rows, Decidable (P db id os rows)] : DecidablePred (Tailer.Shipped P) := fun t =>
  inferInstanceAs (Decidable (∀ id ∈ t.db.sources.keys, ∃ c ∈ t.pub.sources, c.source_id = id ∧
    P t.db id (offsetsOf c.ordinal t.sent) fun name => entriesOf c.ordinal name t.sent))

/-- What was written to every source since the last call is as `C` says. -/
def Tailer.Written (C : Archive → Archive → Int → Prop) (t : Tailer) : Prop :=
  ∀ id ∈ t.polled.sources.keys, C t.polled t.db id

/-- What has to be known of one turn: `F` says of a cursor that it has kept up with its source,
`C` what may have been written since, and `P` what should have been shipped. -/
structure Follows (F : Archive → SourceCursor → List (Int64 × Int64) → (String → List CallerRow) → Prop)
    (C : Archive → Archive → Int → Prop)
    (P : Archive → Int → List (Int64 × Int64) → (String → List CallerRow) → Prop) : Prop where
  opened : ∀ {db c os rows}, Replicate.Opened db Int64.minValue c os rows → F db c os rows
  same : ∀ db id, C db db id
  turned : ∀ {polled db c c' os rows}, polled.Grown db → F polled c os rows →
    Moved db Int64.minValue (c.unsentOffsets db) c c' →
    (P db c.source_id (os ++ c.unsentOffsets db)
        (fun name => rows name ++ c.unsentEntries db Int64.minValue name) ↔
      C polled db c.source_id) ∧
    (C polled db c.source_id → F db c' (os ++ c.unsentOffsets db)
      fun name => rows name ++ c.unsentEntries db Int64.minValue name)

/-- Between polls: every source the last call saw has a cursor that has kept up with it. -/
structure KeptUp (F : Archive → SourceCursor → List (Int64 × Int64) → (String → List CallerRow) → Prop)
    (t : Tailer) : Prop where
  since : t.pub.since = Int64.minValue
  ordered : Ordered t.pub.sources
  nodup : (sourceIds t.pub.sources).Nodup
  ids : ∀ id, id ∈ sourceIds t.pub.sources ↔ id ∈ t.polled.sources.keys
  grown : t.polled.Grown t.db
  ledger : Ledger (F t.polled) t.pub.sources t.sent

theorem map_readSources (db : Archive) : db.readSources.map (·.id) = db.sources.keys := by
  unfold Archive.readSources OrdMap.keys
  rw [List.map_map]
  rfl

theorem Grown.keys {a a' : Archive} (h : a.Grown a') {id : Int} (hid : id ∈ a.sources.keys) :
    id ∈ a'.sources.keys := by
  rw [OrdMap.mem_keys] at hid ⊢
  obtain ⟨cols, hcols⟩ := hid
  exact h.sources id cols hcols

theorem mem_sourceIds {cs : List SourceCursor} {id : Int} :
    id ∈ sourceIds cs ↔ ∃ c ∈ cs, c.source_id = id := List.mem_map

section

variable {F : Archive → SourceCursor → List (Int64 × Int64) → (String → List CallerRow) → Prop}
  {C : Archive → Archive → Int → Prop}
  {P : Archive → Int → List (Int64 × Int64) → (String → List CallerRow) → Prop}
  {t : Tailer} {faults faults' : List (Fault StorageFailure)} {frames : List Frame}
  {pub : ArchivePublisher}

/-- The sources a publisher knows after a `next`. -/
theorem sourceIds_next {now : Int64} (hord : Ordered t.pub.sources)
    (hnodup : (sourceIds t.pub.sources).Nodup)
    (hknown : ∀ id ∈ sourceIds t.pub.sources, id ∈ t.db.sources.keys)
    (hnext : ArchivePublisher.next t.db now t.pub faults = (.ok frames, pub, faults')) :
    Ordered pub.sources ∧ (sourceIds pub.sources).Nodup ∧
      ∀ id, id ∈ sourceIds pub.sources ↔ id ∈ t.db.sources.keys := by
  obtain ⟨hemitted, hids⟩ := next_ok hord hnext
  have hunknown : ∀ id, id ∈ (unknown t.pub.sources t.db.readSources).map (·.id) ↔
      id ∈ t.db.sources.keys ∧ id ∉ sourceIds t.pub.sources := by
    intro id
    rw [← map_readSources, List.mem_map, List.mem_map]
    unfold unknown
    constructor
    · rintro ⟨rec, hrec, rfl⟩
      obtain ⟨hrec, hnot⟩ := List.mem_filter.mp hrec
      simp only [Bool.not_eq_true', List.any_eq_false, decide_eq_true_eq] at hnot
      refine ⟨⟨rec, hrec, rfl⟩, fun hmem => ?_⟩
      obtain ⟨c, hc, hid⟩ := mem_sourceIds.mp hmem
      exact hnot c hc hid
    · rintro ⟨⟨rec, hrec, rfl⟩, hnot⟩
      refine ⟨rec, List.mem_filter.mpr ⟨hrec, ?_⟩, rfl⟩
      simp only [Bool.not_eq_true', List.any_eq_false, decide_eq_true_eq]
      exact fun c hc hid => hnot (mem_sourceIds.mpr ⟨c, hc, hid⟩)
  refine ⟨hemitted.ordered, ?_, fun id => ?_⟩
  · rw [hids]
    refine List.Nodup.append hnodup ?_ fun id hid hid' => ((hunknown id).mp hid').2 hid
    have hall : (t.db.readSources.map (·.id)).Nodup := by
      rw [map_readSources]
      exact t.db.sources.keys_nodup
    exact hall.sublist (List.filter_sublist.map _)
  · rw [hids, List.mem_append, hunknown]
    constructor
    · rintro (hid | hid)
      · exact hknown id hid
      · exact hid.1
    · intro hid
      by_cases h : id ∈ sourceIds t.pub.sources
      · exact .inl h
      · exact .inr ⟨hid, h⟩

/-- **An opening has kept up.** -/
theorem Follows.keptUp (hF : Follows F C P) (hopened : t.Opened Int64.minValue) : KeptUp F t := by
  obtain ⟨faults, faults', hopen, hpolled⟩ := hopened
  obtain ⟨hemitted, hids⟩ := open_ok hopen
  obtain ⟨hledger, hsince⟩ := open_ledger hopen
  rw [map_readSources] at hids
  refine ⟨hsince, hemitted.ordered, ?_, fun id => by rw [hids, hpolled], ?_, ?_⟩
  · rw [hids]
    exact t.db.sources.keys_nodup
  · rw [hpolled]
    exact .refl _
  · rw [hpolled]
    exact hledger.mono fun _ _ _ _ h => hF.opened h

/-- **A poll ships what it should exactly if what was written can be followed**, and then it
has kept up again. -/
theorem Follows.poll (hF : Follows F C P) (hkept : KeptUp F t) {now : Int64}
    (hnext : ArchivePublisher.next t.db now t.pub faults = (.ok frames, pub, faults')) :
    (Tailer.Shipped P ⟨t.db, t.db, pub, t.sent ++ frames⟩ ↔ t.Written C) ∧
      (t.Written C → KeptUp F ⟨t.db, t.db, pub, t.sent ++ frames⟩) := by
  obtain ⟨hord, hnodup, hids⟩ := sourceIds_next hkept.ordered hkept.nodup
    (fun id hid => Grown.keys hkept.grown ((hkept.ids id).mp hid)) hnext
  have hknown := hkept.ledger.mono (G := fun c os rows =>
    c.source_id ∈ sourceIds t.pub.sources ∧ F t.polled c os rows)
      fun c hc _ _ h => ⟨mem_sourceIds.mpr ⟨c, hc, rfl⟩, h⟩
  obtain ⟨hledger, hsince⟩ := next_ledger hkept.ordered hknown hnext
  rw [hkept.since] at hledger hsince
  -- a source that was met is shipped whole, and its cursor has kept up
  have hmet : ∀ c os rows, Turned t.db (Replicate.Opened t.db Int64.minValue) c os rows →
      P t.db c.source_id os rows ∧ F t.db c os rows := by
    rintro c' _ _ ⟨c, os, rows, hopened, hmoved, rfl, rfl⟩
    obtain ⟨hiff, hnext⟩ := hF.turned (.refl t.db) (hF.opened hopened) hmoved
    rw [hmoved.source_id]
    exact ⟨hiff.mpr (hF.same _ _), hnext (hF.same _ _)⟩
  refine ⟨⟨fun hshipped id hid => ?_, fun hwritten id hid => ?_⟩, fun hwritten => ?_⟩
  · obtain ⟨c', hc', hcid, hP⟩ := hshipped id (Grown.keys hkept.grown hid)
    rcases hledger.known c' hc' with ⟨c, os, rows, ⟨-, hFc⟩, hmoved, hos, hrows⟩ | ⟨hnew, -⟩
    · dsimp only at hP
      rw [hos, hrows, ← hcid, hmoved.source_id] at hP
      rw [← hcid, hmoved.source_id]
      exact (hF.turned hkept.grown hFc hmoved).1.mp hP
    · rw [hcid] at hnew
      exact absurd ((hkept.ids id).mpr hid) hnew
  · obtain ⟨c', hc', hcid⟩ := mem_sourceIds.mp ((hids id).mpr hid)
    refine ⟨c', hc', hcid, ?_⟩
    rcases hledger.known c' hc' with ⟨c, os, rows, ⟨hmem, hFc⟩, hmoved, hos, hrows⟩ | ⟨-, hturned⟩
    · dsimp only
      rw [hos, hrows, ← hcid, hmoved.source_id]
      exact (hF.turned hkept.grown hFc hmoved).1.mpr (hwritten _ ((hkept.ids _).mp hmem))
    · rw [← hcid]
      exact (hmet c' _ _ hturned).1
  · refine ⟨hsince, hord, hnodup, hids, .refl _, hledger.mono fun c' _ os' rows' h => ?_⟩
    rcases h with ⟨c, os, rows, ⟨hmem, hFc⟩, hmoved, rfl, rfl⟩ | ⟨-, hturned⟩
    · exact (hF.turned hkept.grown hFc hmoved).2 (hwritten _ ((hkept.ids _).mp hmem))
    · exact (hmet c' _ _ hturned).2

/-- **Along every run without eviction and without a failed poll, what was shipped after each
poll is as it should be exactly if what was written before each can be followed.** -/
theorem Follows.along_iff (hF : Follows F C P) (hopened : t.Opened Int64.minValue)
    {es : List TailEvent} (hplain : Along Tailer.step TailEvent.Plain t es) :
    Along Tailer.step (TailEvent.After (Tailer.Shipped P)) t es ↔
      Along Tailer.step (TailEvent.Before (Tailer.Written C)) t es := by
  refine Along.iff_of_step (I := KeptUp F) (fun t e hkept hplain => ?_) (hF.keptUp hopened) hplain
  cases e with
  | write w =>
      refine ⟨Iff.rfl, fun _ => ?_⟩
      unfold Tailer.step
      dsimp only
      split
      · rename_i db hdb
        exact ⟨hkept.since, hkept.ordered, hkept.nodup, hkept.ids,
          hkept.grown.trans (w.grown hplain hdb), hkept.ledger⟩
      · exact hkept
  | poll now faults =>
      obtain ⟨frames, pub, faults', hnext, hstep⟩ := Tailer.step_poll hplain
      obtain ⟨hiff, hnext⟩ := hF.poll hkept hnext
      unfold TailEvent.After TailEvent.Before
      dsimp only
      rw [hstep]
      exact ⟨hiff, hnext⟩

end

/-- An archive of one source, in which nothing was recorded yet. -/
def oneSource : Archive := (Archive.create .table).insertSource ⟨∅, ∅, 0⟩ "u"

end Dendro.Replicate
