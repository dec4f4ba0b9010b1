import Dendro.Replicate.TailRows

/-!
# When a call gives up

A seal takes rows out of the live tail. A publisher that finds a stream's watermark past the newest
row it shipped reports it and ships nothing, and this is the only way a call fails whose reads do
not (`goes_next`). For a publisher that keeps up with a writer it means that a row was sealed before
any call had read it (`sealed_unread_iff`).
-/

/-! ## Programs whose calls do not fail -/

section

variable {σ τ φ ε α : Type}

theorem Prog.Goes.withValue {t : τ} {s : σ} {m : Prog (τ × σ) φ ε α} {P : α → τ × σ → Prop}
    {F : ε → τ × σ → Prop} {Q : τ → σ → Prop} {E : ε → σ → Prop} (hm : Prog.Goes m (t, s) P F)
    (hQ : ∀ a x, P a x → Q x.1 x.2) (hE : ∀ e x, F e x → E e x.2) :
    Prog.Goes (Prog.withValue t m) s Q E := by
  rcases hm with ⟨a, x, hr, h⟩ | ⟨e, x, hr, h⟩
  · exact .inl ⟨x.1, x.2, by rw [Prog.withValue, hr], hQ a x h⟩
  · exact .inr ⟨e, x.2, by rw [Prog.withValue, hr], hE e x h⟩

/-- A loop over a list gives up only where a turn does. -/
theorem Prog.Goes.onEach {m : Prog (τ × σ) φ ε Unit} {F : ε → Prop} : ∀ {ts : List τ} (s : σ),
    (∀ t ∈ ts, ∀ s, Prog.Goes m (t, s) (fun _ _ => True) fun e _ => F e) →
      Prog.Goes (Prog.onEach m) (ts, s) (fun _ _ => True) fun e _ => F e
  | [], s, _ => .inl ⟨(), ([], s), rfl, trivial⟩
  | t :: ts, s, hm => by
      rcases hm t List.mem_cons_self s with ⟨a, x, hr, -⟩ | ⟨e, x, hr, h⟩
      · have hrest := @Prog.Goes.onEach m F ts x.2 fun t' ht' => hm t' (List.mem_cons_of_mem t ht')
        rcases hrest with ⟨_, y, hgo, -⟩ | ⟨e, y, hgo, h⟩
        · refine .inl ⟨(), (x.1 :: y.1, y.2), ?_, trivial⟩
          have hgo : Prog.onEach.go m ts x.2 [] = (.ok (), y, []) := hgo
          show Prog.onEach.go m (t :: ts) s [] = _
          rw [Prog.onEach.go, hr]
          dsimp only
          rw [hgo]
        · refine .inr ⟨e, (x.1 :: y.1, y.2), ?_, h⟩
          have hgo : Prog.onEach.go m ts x.2 [] = (.err e, y, []) := hgo
          show Prog.onEach.go m (t :: ts) s [] = _
          rw [Prog.onEach.go, hr]
          dsimp only
          rw [hgo]
      · refine .inr ⟨e, (x.1 :: ts, x.2), ?_, h⟩
        show Prog.onEach.go m (t :: ts) s [] = _
        rw [Prog.onEach.go, hr]

end

namespace Dendro.Replicate

open Dendro

/-! ## Turns -/

/-- The error of a stream that was sealed past its cursor. -/
def PastAt (db : Archive) (c : SourceCursor) (stream : String) (e : Error) : Prop :=
  ∃ w a, db.watermark (streamKey c.source_id stream) = some w ∧ c.walAfter stream = some a ∧
    a < w ∧ e = sealedPast c.source_id stream w a

/-- The error of a source of which some stream was. -/
def PastCursor (db : Archive) (c : SourceCursor) (e : Error) : Prop := ∃ stream, PastAt db c stream e

section

variable {read : String → Bytes → List WalRow} {db : Archive} {p : Poll}

theorem PastAt.congr {c c' : SourceCursor} {stream : String} {e : Error}
    (hid : c'.source_id = c.source_id) (hwal : c'.walAfter stream = c.walAfter stream)
    (h : PastAt db c' stream e) : PastAt db c stream e := by
  unfold PastAt at h ⊢
  rwa [hid, hwal] at h

theorem Idle.pastCursor {p' : Poll} {e : Error} (h : Idle read p p') (hpast : PastCursor db p'.1 e) :
    PastCursor db p.1 e := by
  obtain ⟨stream, hpast⟩ := hpast
  exact ⟨stream, hpast.congr h.feeds.source_id (h.walAfter stream)⟩

/-- Nothing is past a cursor that everything is in the reach of. -/
theorem not_pastCursor {c : SourceCursor} {e : Error}
    (h : ∀ stream, InReach db c.source_id stream (c.walAfter stream)) : ¬ PastCursor db c e := by
  rintro ⟨stream, w, a, hw, ha, hlt, -⟩
  exact absurd (h stream w a hw ha) (not_le.mpr hlt)

theorem goes_ask {σ α : Type} {answer : α} {s : σ} {E : Error → σ → Prop} :
    Prog.Goes (ask answer) s (fun a s' => a = answer ∧ s' = s) E :=
  .read (fun _ h => ⟨(Except.ok.inj h).symm, rfl⟩) fun _ h => absurd h (by simp)

theorem goes_state {σ : Type} {s : σ} {E : Error → σ → Prop} :
    Prog.Goes (Prog.state : PublishM σ σ) s (fun a s' => a = s ∧ s' = s) E := .state ⟨rfl, rfl⟩

theorem goes_emitIndex {E : Error → Poll → Prop} (start : Int64) (stream : String) (p : Poll) :
    Prog.Goes (emitIndex db start stream) p (fun _ _ => True) E := by
  unfold emitIndex
  refine Prog.Goes.bind (Q := fun _ _ => True) (.update trivial) fun _ q _ => ?_
  refine goes_state.bind fun _ _ _ => ?_
  exact goes_ask.bind fun _ _ _ => .update trivial

theorem goes_emitIndexes {E : Error → Poll → Prop} (start : Int64) (names : List String) (p : Poll) :
    Prog.Goes (Prog.forEach (emitIndex db start) names) p (fun _ _ => True) E :=
  Prog.Goes.forEach (I := fun _ _ => True) (fun name _ s _ => goes_emitIndex start name s) trivial

theorem goes_shipLive {E : Error → Poll → Prop} (source_id : Int) (rows : List WalRow)
    (stream : String) (after : Option Int64) :
    Prog.Goes (shipLive db source_id rows stream after) p (fun _ _ => True) E := by
  unfold shipLive
  refine goes_ask.bind fun _ _ _ => ?_
  exact Prog.Goes.bind (Q := fun _ _ => True) (.update trivial) fun _ _ _ => .pure trivial

theorem goes_pollLive (watermark : Option Int64) (rows : List WalRow) (stream : String) :
    Prog.Goes (pollLive db watermark rows stream) p (fun _ _ => True) fun e _ =>
      ∃ w a, watermark = some w ∧ p.1.walAfter stream = some a ∧ a < w ∧
        e = sealedPast p.1.source_id stream w a := by
  unfold pollLive
  refine goes_state.bind ?_
  intro q q' h
  rw [h.1, h.2]
  dsimp only
  split
  · rename_i w a hafter
    split
    · rename_i hlt
      exact Prog.Goes.bind (Q := fun _ _ => False) (.fail ⟨w, a, rfl, hafter, hlt, rfl⟩)
        fun _ _ h => h.elim
    · exact goes_shipLive _ rows stream _
  · exact goes_shipLive _ rows stream _

/-- **A stream's part of a turn gives up only if it was sealed past its cursor.** -/
theorem goes_pollStream (rows : List WalRow) (stream : String) :
    Prog.Goes (pollStream db db.sealedWatermarks rows stream) p (fun _ _ => True) fun e _ =>
      PastAt db p.1 stream e := by
  have hwm : ∀ k, db.sealedWatermarks.get? k = db.watermark k := seed_watermarks db
  unfold pollStream
  refine Prog.Goes.bind (Q := fun _ p' => p' = (p.1.enter stream, p.2)) (.update rfl) ?_
  intro _ q hq
  rw [hq]
  refine goes_state.bind ?_
  intro q q' h
  rw [h.1, h.2]
  dsimp only
  have hid : (p.1.enter stream).source_id = p.1.source_id := rfl
  rw [hwm, hid]
  split
  · rename_i w hw hnone
    refine goes_ask.bind ?_
    intro segments q h
    rw [h.1, h.2]
    refine Prog.Goes.bind (Q := fun _ p' => p'.1 = (p.1.enter stream).advance stream (some w))
      (.update rfl) ?_
    intro _ q hq
    -- the cursor was just moved to the watermark
    refine (goes_pollLive _ rows stream).mono (fun _ _ h => h) fun e _ h => ?_
    obtain ⟨w', a, hw', ha, hlt, -⟩ := h
    rw [hw] at hw'
    rw [hq, walAfter_advance, if_pos rfl] at ha
    rw [← Option.some.inj hw', ← Option.some.inj ha] at hlt
    exact absurd hlt (lt_irrefl _)
  · refine (goes_pollLive _ rows stream).mono (fun _ _ h => h) fun e _ h => ?_
    obtain ⟨w, a, hw, ha, hlt, he⟩ := h
    have hsame := (@Idle.enter (fun _ _ => []) stream p).walAfter stream
    exact ⟨w, a, hw, hsame.symm.trans ha, hlt, he⟩

/-- The streams that are left have the cursors they had. -/
theorem goes_pollStreams {streams : List String} (hnodup : streams.Nodup) (rows : List WalRow) :
    Prog.Goes (Prog.foldEach (pollStream db db.sealedWatermarks) rows streams) p
      (fun _ _ => True) fun e _ => PastCursor db p.1 e := by
  have hfold := @Prog.Goes.foldEach _ _ _ _ _ (fun e _ => PastCursor db p.1 e)
    (pollStream db db.sealedWatermarks) (fun left _ p' => left.Nodup ∧
      p'.1.source_id = p.1.source_id ∧ ∀ name ∈ left, p'.1.walAfter name = p.1.walAfter name)
    (fun rows stream left p' h => by
      obtain ⟨hnodup, hid, hwal⟩ := h
      obtain ⟨hnew, hnodup⟩ := List.nodup_cons.mp hnodup
      have hgoes := @goes_pollStream db p' rows stream
      have hfed := (@emits_pollStream (fun _ _ => []) db p' rows stream).goes hgoes
      refine hfed.mono (fun rows' p'' h => ⟨hnodup, h.feeds.source_id.trans hid, ?_⟩) ?_
      · intro name hname
        have hne : name ≠ stream := by
          rintro rfl
          exact hnew hname
        rw [h.walAfter, if_neg hne]
        exact hwal name (List.mem_cons_of_mem _ hname)
      · intro e _ hpast
        exact ⟨stream, hpast.congr hid (hwal stream List.mem_cons_self)⟩)
    streams rows p ⟨hnodup, rfl, fun _ _ => rfl⟩
  exact hfold.mono (fun _ _ _ => trivial) fun _ _ h => h

/-- **A turn gives up only if a stream of its source was sealed past its cursor.** -/
theorem goes_poll (p : Poll) :
    Prog.Goes (poll db) p (fun _ _ => True) fun e _ => PastCursor db p.1 e := by
  unfold poll
  refine goes_state.bind ?_
  intro q q' h
  rw [h.1, h.2]
  dsimp only
  refine goes_ask.bind ?_
  intro names q h
  rw [h.1, h.2]
  have hindexes := emits_of_keeps (.forEach (fun name _ _ h' =>
    keeps_emitIndex_idle Int64.minValue name h') (@Idle.refl (fun _ _ => []) p) :
      Prog.Keeps (Prog.forEach (emitIndex db Int64.minValue)
        (db.callerRowStreams p.1.source_id)) p (Idle (fun _ _ => []) p))
  refine Prog.Goes.bind (hindexes.goes (goes_emitIndexes _ _ p)) ?_
  intro _ p₁ h₁
  refine goes_ask.bind ?_
  intro offsets q h
  rw [h.1, h.2]
  have h₂ := h₁.trans (Idle.foldl idle_pushOffset (db.readClockOffsets p.1.source_id) p₁)
  refine Prog.Goes.bind (Q := fun _ p' => Idle (fun _ _ => []) p p') (.update h₂) ?_
  intro _ p₂ h₂
  refine goes_ask.bind ?_
  intro watermarks q h
  rw [h.1, h.2]
  refine goes_ask.bind ?_
  intro streams q h
  rw [h.1, h.2]
  refine Prog.Goes.bind (Q := fun _ _ => True)
    ((goes_pollStreams (nodup_allStreams db p.1.source_id) []).mono (fun _ _ h => h) ?_) ?_
  · intro e _ hpast
    exact h₂.pastCursor hpast
  · intro rows p₃ _
    exact .update trivial

/-- A turn of a source the publisher knows. -/
theorem goes_pollKnown (now : Int64) (records : List SourceRow) (p : Poll) :
    Prog.Goes (pollKnown db now records) p (fun _ _ => True) fun e _ => PastCursor db p.1 e := by
  unfold pollKnown
  refine goes_state.bind ?_
  intro q q' h
  rw [h.1, h.2]
  obtain ⟨c, b⟩ := p
  dsimp only
  split
  · rename_i rec _
    have htold : Prog.Goes (updateIdentity now rec) (c, b) (fun _ _ => True)
        fun e _ => PastCursor db c e := by
      unfold updateIdentity
      refine goes_state.bind ?_
      intro q q' h
      rw [h.1, h.2]
      dsimp only
      split
      · split
        · exact .update trivial
        · exact goes_ask.bind fun _ _ _ => .update trivial
      · exact .pure trivial
    have hidle := emits_of_keeps (@keeps_updateIdentity_idle (fun _ _ => []) (c, b) now rec)
    refine Prog.Goes.bind (hidle.goes htold) fun _ p₁ h₁ => ?_
    exact (goes_poll p₁).mono (fun _ _ h => h) fun e _ h => h₁.pastCursor h
  · exact goes_poll (c, b)

end

/-! ## Whole calls -/

section

variable {db : Archive} {E : Error → Poll → Prop}

theorem goes_openStreams (since : Option Int64) (watermarks : OrdMap StreamKey Int64)
    (streams : List String) (p : Poll) :
    Prog.Goes (Prog.forEach (openStream db since watermarks) streams) p (fun _ _ => True) E := by
  refine Prog.Goes.forEach (I := fun _ _ => True) (fun stream _ q _ => ?_) trivial
  unfold openStream
  refine Prog.Goes.bind (Q := fun _ _ => True) (.update trivial) fun _ _ _ => ?_
  refine goes_state.bind fun _ _ _ => ?_
  dsimp only
  split
  · exact goes_ask.bind fun _ _ _ => .update trivial
  · exact goes_ask.bind fun _ _ _ => .update trivial

theorem goes_openSource (rec : SourceRow) (since : Option Int64)
    (watermarks : OrdMap StreamKey Int64) (p : Poll) :
    Prog.Goes (openSource db rec since watermarks) p (fun _ _ => True) E := by
  unfold openSource
  refine Prog.Goes.bind (Q := fun _ _ => True) (.update trivial) fun _ _ _ => ?_
  refine goes_ask.bind fun _ _ _ => ?_
  refine (goes_emitIndexes _ _ _).bind fun _ _ _ => ?_
  refine goes_ask.bind fun _ _ _ => ?_
  refine (goes_openStreams _ _ _ _).bind fun _ _ _ => ?_
  exact goes_ask.bind fun _ _ _ => .update trivial

/-- **A source that is met is never sealed past its cursor**: its opening moved it to the
watermark. -/
theorem goes_openSource_poll (since : Int64) (rec : SourceRow) (ordinal : UInt32) (b : Batch) :
    Prog.Goes (do
      openSource db rec (some since) db.sealedWatermarks
      poll db) (.fresh ordinal rec, b) (fun _ _ => True) E := by
  have hopened := (@emits_openSource_fed (fun _ _ => []) db since rec ordinal b).goes
    (goes_openSource (E := E) rec _ _ _)
  refine hopened.bind fun _ p₁ h₁ => ?_
  refine (goes_poll p₁).mono (fun _ _ h => h) fun e _ h => ?_
  refine absurd h (not_pastCursor fun stream w a hw ha => ?_)
  rw [h₁.walAfter, ← h₁.feeds.source_id, hw] at ha
  exact le_of_eq (Option.some.inj ha)

theorem goes_meet {E : Error → Polls → Prop} {opening : SourceRow → PublishM Poll Unit}
    {rec : SourceRow} (hopen : ∀ ordinal b, Prog.Goes (opening rec) (.fresh ordinal rec, b)
      (fun _ _ => True) fun _ _ => False) (x : Polls) (hfew : x.1.length < 2 ^ 32) :
    Prog.Goes (meet opening rec) x (fun _ x' => x'.1.length = x.1.length + 1) E := by
  unfold meet
  refine goes_state.bind ?_
  intro y y' h
  rw [h.1, h.2]
  dsimp only
  have hordinal : nextOrdinal x.1.length = .ok (UInt32.ofNat x.1.length) := if_pos hfew
  rw [hordinal]
  refine Prog.Goes.bind (Q := fun _ x' => x' = x)
    (.lift (fun _ _ => rfl) fun _ h => absurd h (by simp)) ?_
  intro ordinal x' hx
  rw [hx]
  refine Prog.Goes.bind (Q := fun _ x' => x'.1 = x.1) ?_ fun c x' hx' => .update ?_
  · refine Prog.Goes.zoom (P := fun _ _ => True) (F := fun _ _ => False) ?_ (fun _ _ _ => rfl)
      fun _ _ h => h.elim
    exact Prog.Goes.withValue (hopen ordinal x.2) (fun _ _ h => h) fun _ _ h => h
  · rw [List.length_append, List.length_singleton, hx']

theorem goes_meets {E : Error → Polls → Prop} {opening : SourceRow → PublishM Poll Unit}
    (hopen : ∀ rec ordinal b, Prog.Goes (opening rec) (.fresh ordinal rec, b)
      (fun _ _ => True) fun _ _ => False) {recs : List SourceRow} {x : Polls}
    (hfew : x.1.length + recs.length ≤ 2 ^ 32) :
    Prog.Goes (Prog.forEach (meet opening) recs) x (fun _ _ => True) E := by
  refine (Prog.Goes.forEach (I := fun left x => x.1.length + left.length ≤ 2 ^ 32)
    (fun rec left x h => ?_) hfew).mono (fun _ _ _ => trivial) fun _ _ h => h
  rw [List.length_cons] at h
  refine (goes_meet (hopen rec) x (by omega)).mono (fun _ x' hx' => ?_) fun _ _ h => h
  rw [hx']
  omega

/-- **A `next` whose reads do not fail gives up only if a stream was sealed past its cursor.** -/
theorem goes_collect {now since : Int64} {cs : List SourceCursor}
    (hfew : cs.length + (unknown cs db.readSources).length ≤ 2 ^ 32) :
    Prog.Goes (collect db now since) (cs, .empty) (fun _ _ => True) fun e _ =>
      ∃ c ∈ cs, PastCursor db c e := by
  have hturns : Prog.Goes (Prog.onEach (pollKnown db now db.readSources)) (cs, .empty)
      (fun _ _ => True) fun e _ => ∃ c ∈ cs, PastCursor db c e :=
    .onEach .empty fun c hc b => (goes_pollKnown now db.readSources (c, b)).mono (fun _ _ h => h)
      fun _ _ h => ⟨c, hc, h⟩
  have hfed := Prog.Runs.onEach (R := fun _ _ => True) (U := fun _ _ => True)
    (D := fun c b c' b' => Fed (fun _ _ => []) db (c, b) (c', b')) (F := fun _ _ _ _ _ => True)
    (fun c b => @emits_pollKnown_fed (fun _ _ => []) db now db.readSources (c, b))
    (fun _ _ _ _ _ _ => .single trivial) cs .empty
  unfold collect
  refine goes_ask.bind ?_
  intro records x h
  rw [h.1, h.2]
  refine (hfed.goes hturns).bind ?_
  intro _ x₁ heach
  refine goes_state.bind ?_
  intro y y' h
  rw [h.1, h.2]
  obtain ⟨cs₁, b₁⟩ := x₁
  -- the turns leave the sources they were of, so that the ordinals left are for the new ones
  have hids : sourceIds cs₁ = sourceIds cs :=
    sourceIds_each (fun _ _ _ _ h => h.feeds.source_id) heach
  have hlength : cs₁.length = cs.length := by
    have h := congrArg List.length hids
    unfold sourceIds at h
    rwa [List.length_map, List.length_map] at h
  dsimp only
  rw [unknown_congr hids]
  split
  · refine goes_ask.bind ?_
    intro watermarks x h
    rw [h.1, h.2]
    refine goes_meets (fun rec ordinal b => goes_openSource_poll since rec ordinal b) ?_
    rw [hlength]
    exact hfew
  · exact .pure trivial

theorem goes_next {now : Int64} {p : ArchivePublisher}
    (hfew : p.sources.length + (unknown p.sources db.readSources).length ≤ 2 ^ 32) :
    Prog.Goes (ArchivePublisher.next db now) p (fun _ _ => True) fun e _ =>
      ∃ c ∈ p.sources, PastCursor db c e := by
  have hcollect := @goes_collect db now p.since p.sources hfew
  unfold ArchivePublisher.next
  refine goes_state.bind ?_
  intro q q' h
  rw [h.1, h.2]
  refine Prog.Goes.zoom (P := fun _ _ => True) (F := fun e _ => ∃ c ∈ p.sources, PastCursor db c e)
    ?_ (fun _ _ h => h) fun _ _ h => h
  unfold collecting
  refine goes_ask.bind ?_
  intro _ cs h
  rw [h.2]
  refine Prog.Goes.bind (Q := fun _ _ => True) ?_ fun _ _ _ => .pure trivial
  refine Prog.Goes.withValue (P := fun _ _ => True)
    (F := fun e _ => ∃ c ∈ p.sources, PastCursor db c e) ?_ (fun _ _ h => h) fun _ _ h => h
  exact Prog.Goes.zoom hcollect (fun _ _ h => h) fun _ _ h => h

/-- What a `next` that succeeded found: no stream was sealed past its cursor. -/
theorem next_reach {now : Int64} {p p' : ArchivePublisher} {frames : List Frame}
    {faults faults' : List (Fault StorageFailure)}
    (hnext : ArchivePublisher.next db now p faults = (.ok frames, p', faults')) :
    ∀ c ∈ p.sources, ∀ stream, InReach db c.source_id stream (c.walAfter stream) := by
  have hcollect := @emits_collect db (fun _ _ _ _ _ => True)
    (fun c b c' b' => Fed (fun _ _ => []) db (c, b) (c', b')) now p.since
    (fun c b => @emits_pollKnown_fed (fun _ _ => []) db now db.readSources (c, b))
    (fun rec ordinal b =>
      (@emits_openSource_poll_rowsMet (fun _ _ => []) db p.since rec ordinal b).mono
        (fun _ _ _ => trivial) fun _ _ _ => trivial)
    (fun _ _ _ _ h => h.feeds.source_id) p.sources
  have heach : ∀ {cs cs' : List SourceCursor} {b b' : Batch},
      Prog.Each (fun c b c' b' => Fed (fun _ _ => []) db (c, b) (c', b')) cs b cs' b' →
        ∀ c ∈ cs, ∀ stream, InReach db c.source_id stream (c.walAfter stream) := by
    intro cs cs' b b' h
    induction h with
    | nil => exact fun _ hc => absurd hc List.not_mem_nil
    | cons hone _ ih =>
        intro c hc
        rcases List.mem_cons.mp hc with rfl | hc
        · exact hone.reach
        · exact ih c hc
  refine (@of_next db p p' faults faults' frames (fun _ _ => ∀ c ∈ p.sources, ∀ stream,
    InReach db c.source_id stream (c.walAfter stream)) now ?_ hnext).1
  refine hcollect.mono (fun _ _ h => ?_) fun _ _ _ => trivial
  obtain ⟨_, _, h, -⟩ := h
  exact heach h

/-- **A call whose reads do not fail succeeds exactly if no stream was sealed past its cursor.** -/
theorem next_isOk_iff {now : Int64} {p : ArchivePublisher}
    (hfew : p.sources.length + (unknown p.sources db.readSources).length ≤ 2 ^ 32) :
    (ArchivePublisher.next db now p []).1.isOk = true ↔
      ∀ c ∈ p.sources, ∀ stream, InReach db c.source_id stream (c.walAfter stream) := by
  rcases @goes_next db now p hfew with ⟨frames, p', hr, -⟩ | ⟨e, p', hr, c, hc, hpast⟩
  · rw [hr]
    exact ⟨fun _ => next_reach hr, fun _ => rfl⟩
  · rw [hr]
    refine ⟨fun h => absurd h (by simp [Outcome.isOk]), fun h => ?_⟩
    exact absurd hpast (not_pastCursor (h c hc))

/-- Where its reads do not fail, a call's error is that of a stream that was sealed past its
cursor. -/
theorem next_err {now : Int64} {p p' : ArchivePublisher} {e : Error}
    {faults : List (Fault StorageFailure)}
    (hfew : p.sources.length + (unknown p.sources db.readSources).length ≤ 2 ^ 32)
    (h : ArchivePublisher.next db now p [] = (.err e, p', faults)) :
    ∃ c ∈ p.sources, PastCursor db c e := by
  rcases @goes_next db now p hfew with ⟨frames, p₁, hr, -⟩ | ⟨e₁, p₁, hr, hpast⟩
  · rw [hr] at h
    exact absurd (congrArg Prod.fst h) (by simp)
  · rw [hr] at h
    have he : e₁ = e := Outcome.err.inj (congrArg Prod.fst h)
    rw [← he]
    exact hpast

end

/-! ## Keeping up with a writer -/

section

variable {read : String → Bytes → List WalRow}

/-- A stream that was shipped whole is in the reach of its cursor as long as nothing was sealed that
was not shipped. -/
theorem CaughtUp.inReach_iff {db : Archive} {source_id : Int} {stream : String} {seen : List WalRow}
    {after : Option Int64} (h : CaughtUp seen after) (hexact : db.Exact (byStream read))
    (hseen : seen <+: db.readerRows (byStream read) source_id stream) :
    InReach db source_id stream after ↔
      (seen ≠ [] → ∀ r ∈ db.sealedRows (byStream read) source_id stream, r ∈ seen) := by
  constructor
  · intro hreach hne r hr
    obtain ⟨first, hfirst⟩ := List.exists_mem_of_ne_nil seen hne
    have hsome := h.past first hfirst
    rcases after with _ | a
    · exact absurd hsome (by simp)
    obtain ⟨last, hlast, hts⟩ := h.cursor a rfl
    have hle : r.ts ≤ a := by
      rcases hw : db.watermark (streamKey source_id stream) with _ | w
      · rw [sealedRows_nil hw] at hr
        exact absurd hr List.not_mem_nil
      · exact le_trans ((hexact.watermark hw).1 r hr) (hreach w a hw rfl)
    have hmem : r ∈ db.readerRows (byStream read) source_id stream := List.mem_append_left _ hr
    have hsorted := hexact.sorted source_id stream
    obtain ⟨new, hnew⟩ := hseen
    rw [← hnew] at hmem hsorted
    rcases List.mem_append.mp hmem with hmem | hmem
    · exact hmem
    · -- what was added is past the cursor, which the row is not
      have hlt := (List.pairwise_append.mp hsorted).2.2 last hlast r hmem
      rw [hts] at hlt
      exact absurd hle (not_le.mpr hlt)
  · intro hall w a hw ha
    obtain ⟨last, hlast, -⟩ := h.cursor a ha
    obtain ⟨-, r, hr, hts⟩ := hexact.watermark hw
    have hshipped := h.past r (hall (List.ne_nil_of_mem hlast) r hr)
    rw [ha, hts] at hshipped
    simpa using hshipped

end

/-- **A call gives up exactly if a row was sealed that no call had read.** A publisher that is
catching up on its archive has just been called; then come any events of a writer that only adds
rows at the ends of streams and evicts none, whose encoders keep every row and which adopts only
segments that hold what they are cataloged with. The next call, if its reads do not fail and there
are ordinals left (its sources are no more than `2 ^ 32`), succeeds exactly if of every stream of
which the last call saw anything, it saw every row that is sealed by now. Otherwise its error names
such a stream, the newest row of it that is sealed and the newest that the last call saw. -/
theorem sealed_unread_iff (read : String → Bytes → List WalRow) (layout : IndexLayout)
    (since : Int64) {batches : List (List Frame)} {w : World} {p p' : ArchivePublisher}
    {now now' : Int64} {frames : List Frame} {faults faults' : List (Fault StorageFailure)}
    {events : List Event}
    (h : Tailing read layout since batches w p)
    (hnext : ArchivePublisher.next w.disk.db now p faults = (.ok frames, p', faults'))
    (hkeeps : ∀ e ∈ events, e.KeepsRows (byStream read))
    (horder : (w.run events).InOrder (byStream read))
    (hfew : p'.sources.length +
      (unknown p'.sources (w.run events).disk.db.readSources).length ≤ 2 ^ 32) :
    ((ArchivePublisher.next (w.run events).disk.db now' p' []).1.isOk = true ↔
      ∀ c ∈ p'.sources, ∀ stream, w.disk.db.readerRows (byStream read) c.source_id stream ≠ [] →
        ∀ r ∈ (w.run events).disk.db.sealedRows (byStream read) c.source_id stream,
          r ∈ w.disk.db.readerRows (byStream read) c.source_id stream) ∧
    ∀ e p'' faults'',
      ArchivePublisher.next (w.run events).disk.db now' p' [] = (.err e, p'', faults'') →
        ∃ c ∈ p'.sources, ∃ stream, ∃ newest ∈ (w.run events).disk.db.sealedRows (byStream read)
          c.source_id stream, ∃ last ∈ w.disk.db.readerRows (byStream read) c.source_id stream,
          e = sealedPast c.source_id stream newest.ts last.ts ∧ last.ts < newest.ts ∧
          (∀ r ∈ (w.run events).disk.db.sealedRows (byStream read) c.source_id stream,
            r.ts ≤ newest.ts) ∧
          ∀ r ∈ w.disk.db.readerRows (byStream read) c.source_id stream, r.ts ≤ last.ts := by
  have hbefore : w.InOrder (byStream read) := fun x hx =>
    horder x ((log_prefix_run events w).subset hx)
  have habreast := h.abreast hbefore
  obtain ⟨hledger, -⟩ := habreast.next hnext
  have hon := habreast.appends.reads_run hkeeps horder
  have hexact := (habreast.appends.run hkeeps).file
  refine ⟨?_, fun e p'' faults'' herr => ?_⟩
  · rw [next_isOk_iff hfew]
    refine forall₂_congr fun c hc => forall_congr' fun stream => ?_
    exact (hledger.known c hc stream).1.inReach_iff hexact (hon.rows c.source_id stream)
  · obtain ⟨c, hc, stream, t, a, hw, ha, hlt, he⟩ := next_err hfew herr
    obtain ⟨hle, newest, hnewest, ht⟩ := hexact.watermark hw
    have hcaught := (hledger.known c hc stream).1
    obtain ⟨last, hlast, hts⟩ := hcaught.cursor a ha
    refine ⟨c, hc, stream, newest, hnewest, last, hlast, ?_, ?_, ?_, fun r hr => ?_⟩
    · rw [ht, hts]
      exact he
    · rw [ht, hts]
      exact hlt
    · rw [ht]
      exact hle
    · have hshipped := hcaught.past r hr
      rw [ha] at hshipped
      rw [hts]
      simpa using hshipped

/-- The row that was shipped while it was live is all that is sealed. -/
theorem sealed_unread_iff_killedSeal : ∃ p,
    (ArchivePublisher.next ((World.create .table).run (killedSeal killedRow)).disk.db 0 p []).1.isOk =
        true ∧
      ∀ c ∈ p.sources, ∀ stream,
        ((World.create .table).run ((killedSeal killedRow).take 2)).disk.db.readerRows
          (fun _ _ => [killedRow]) c.source_id stream ≠ [] →
        ∀ r ∈ ((World.create .table).run (killedSeal killedRow)).disk.db.sealedRows
          (fun _ _ => [killedRow]) c.source_id stream,
          r ∈ ((World.create .table).run ((killedSeal killedRow).take 2)).disk.db.readerRows
            (fun _ _ => [killedRow]) c.source_id stream := by
  obtain ⟨frames, p, faults', hnext, hp, -⟩ := @Tailing.next_of_isOk _ _ _ _ _ _ 0 []
    tailing_killedSeal (by decide +kernel)
  have hiff := @sealed_unread_iff (fun _ _ => [killedRow]) .table _ _ _ _ p 0 0 frames [] faults'
    ((killedSeal killedRow).drop 2) tailing_killedSeal hnext
    (fun e he => keeps_killedSeal e (List.mem_of_mem_drop he))
  rw [run_killedSeal] at hiff
  have hok : (ArchivePublisher.next ((World.create .table).run (killedSeal killedRow)).disk.db 0 p
      []).1.isOk = true := by
    rw [hp]
    decide +kernel
  exact ⟨p, hok, (hiff inOrder_killedSeal (by rw [hp]; decide +kernel)).1.mp hok⟩

end Dendro.Replicate
