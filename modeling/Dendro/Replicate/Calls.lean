import Dendro.Replicate.Publisher

/-!
# The shape of the publisher's calls

A call polls the sources it knows, one turn each, and meets the ones it does not. What is true
of a whole call is put together here from what is true of one turn (`Prog.Each`) and of one
meeting (`Meets`), and what is true of a turn from what its parts do to the source's cursor and
to the batch (`Admits`), so that each property of the publisher only has to speak of the parts.
-/

namespace Dendro.Replicate

open Dendro

/-- What holds when a program of the publisher succeeds. -/
abbrev Emits {σ α : Type} (m : PublishM σ α) (s : σ) (Q : α → σ → Prop) : Prop :=
  Prog.Runs (fun _ _ => True) m s Q fun _ _ => True

theorem emits_ask {σ α : Type} {answer : α} {s : σ} :
    Emits (ask answer) s fun a s' => a = answer ∧ s' = s :=
  .read (fun _ h => ⟨(Except.ok.inj h).symm, rfl⟩) (fun _ _ => trivial) fun _ => trivial

theorem emits_state {σ : Type} {s : σ} : Emits (Prog.state : PublishM σ σ) s fun a s' => a = s ∧ s' = s :=
  .state ⟨rfl, rfl⟩

/-- What is left in any case is left by a success. -/
theorem emits_of_keeps {σ α : Type} {m : PublishM σ α} {s : σ} {I : σ → Prop}
    (h : Prog.Keeps m s I) : Emits m s fun _ s' => I s' :=
  h.runs.mono (fun _ _ h => h) fun _ _ _ => trivial

/-- A program that starts by reading the snapshot. -/
theorem keeps_ask {σ α β : Type} {answer : α} {k : α → PublishM σ β} {s : σ} {I : σ → Prop}
    (hs : I s) (h : Prog.Keeps (k answer) s I) : Prog.Keeps (ask answer >>= k) s I :=
  .read_bind hs fun _ ha => Except.ok.inj ha ▸ h

/-! ## The parts of a turn -/

section

variable {db : Archive} {p p₀ : Poll}

/-- What `emit_index` does to the poll, once it has read. -/
def indexed (db : Archive) (start : Int64) (stream : String) (p : Poll) : Poll :=
  let (from_, r) := ((p.1.enter stream).entry stream).resume start
  emitRows stream r (db.readCallerRows p.1.source_id stream from_ Int64.maxValue)
    (p.1.enter stream, p.2)

theorem emits_emitIndex (start : Int64) (stream : String) :
    Emits (emitIndex db start stream) p fun _ p' => p' = indexed db start stream p := by
  unfold emitIndex
  refine Prog.Runs.bind (Q := fun _ p' => p' = (p.1.enter stream, p.2)) (.update trivial rfl) ?_
  rintro _ _ rfl
  refine emits_state.bind ?_
  rintro _ _ ⟨rfl, rfl⟩
  refine emits_ask.bind ?_
  rintro _ _ ⟨rfl, rfl⟩
  exact .update trivial rfl

/-- The handshake of a source. -/
def SourceCursor.introduces (c : SourceCursor) (rec : SourceRow) : Frame :=
  .handshake c.ordinal rec.uuid rec.identity.labels rec.identity.metadata
    rec.identity.clock_anchor_wall_ns rec.complete

/-- A poll that has just introduced its source. -/
def Poll.introduced (p : Poll) (rec : SourceRow) : Poll := (p.1, p.2.push [p.1.introduces rec])

/-- A relation that allows what the streams' part of a turn does: it meets streams, moves
their cursors and ships segments. -/
structure Admits (R : Poll → Poll → Prop) : Prop where
  refl : ∀ p, R p p
  trans : ∀ {p p' p''}, R p p' → R p' p'' → R p p''
  enter : ∀ stream p, R p (p.1.enter stream, p.2)
  advance : ∀ stream wal_after p, R p (p.1.advance stream wal_after, p.2)
  segments : ∀ stream segments p, R p (pushSegments stream segments p)

/-- The live rows of a stream, past its cursor: the end of `pollStream`. -/
def shipLive (db : Archive) (source_id : Int) (rows : List WalRow) (stream : String)
    (after : Option Int64) : PublishM Poll (List WalRow) := do
  let live ← ask (db.liveWal source_id stream)
  let unsent := live.filter fun r => !after.any (r.ts ≤ ·)
  Prog.update fun p => (p.1.advance stream (newestShipped after unsent), p.2)
  return rows ++ unsent

/-- The end of `pollStream`: the live rows, unless the stream was sealed past the cursor. -/
def pollLive (db : Archive) (watermark : Option Int64) (rows : List WalRow) (stream : String) :
    PublishM Poll (List WalRow) := do
  let (c, _) ← Prog.state
  let after := (c.entry stream).wal_after
  match watermark, after with
  | some w, some after =>
    if after < w then Prog.fail (sealedPast c.source_id stream w after)
  | _, _ => pure ()
  shipLive db c.source_id rows stream after

namespace Admits

variable {R : Poll → Poll → Prop}

theorem shipLive (hR : Admits R) (source_id : Int) (rows : List WalRow) (stream : String)
    (after : Option Int64) (h : R p₀ p) :
    Prog.Keeps (shipLive db source_id rows stream after) p (R p₀) := by
  unfold Replicate.shipLive
  refine keeps_ask h ?_
  exact Prog.Keeps.bind (.update (hR.trans h (hR.advance stream _ p))) fun _ _ h' _ => h'

theorem pollLive (hR : Admits R) (watermark : Option Int64) (rows : List WalRow) (stream : String)
    (h : R p₀ p) : Prog.Keeps (pollLive db watermark rows stream) p (R p₀) := by
  unfold Replicate.pollLive
  refine .state_bind ?_
  dsimp only
  split
  · split
    · exact Prog.Keeps.bind (.fail h) fun _ _ h' => hR.shipLive _ rows stream _ h'
    · exact hR.shipLive _ rows stream _ h
  · exact hR.shipLive _ rows stream _ h

theorem pollStream (hR : Admits R) (watermarks : OrdMap StreamKey Int64) (rows : List WalRow)
    (stream : String) (h : R p₀ p) :
    Prog.Keeps (pollStream db watermarks rows stream) p (R p₀) := by
  unfold Replicate.pollStream
  have h₁ := hR.trans h (hR.enter stream p)
  refine .update_bind (.state_bind ?_)
  dsimp only
  split
  · refine keeps_ask h₁ ?_
    refine Prog.Keeps.bind (.update ?_) fun _ _ h₂ => hR.pollLive _ rows stream h₂
    exact hR.trans h₁ (hR.trans (hR.segments stream _ _) (hR.advance stream _ _))
  · exact hR.pollLive _ rows stream h₁

theorem openStream (hR : Admits R) (since : Option Int64) (watermarks : OrdMap StreamKey Int64)
    (stream : String) (h : R p₀ p) :
    Prog.Keeps (openStream db since watermarks stream) p (R p₀) := by
  unfold Replicate.openStream
  have h₁ := hR.trans h (hR.enter stream p)
  refine .update_bind (.state_bind ?_)
  dsimp only
  cases since with
  | some since =>
      refine keeps_ask h₁ (.update ?_)
      exact hR.trans h₁ (hR.trans (hR.segments stream _ _) (hR.advance stream _ _))
  | none => exact keeps_ask h₁ (.update (hR.trans h₁ (hR.advance stream _ _)))

theorem foldl (hR : Admits R) {α : Type} {g : Poll → α → Poll} (hg : ∀ p a, R p (g p a)) :
    ∀ (as : List α) (p : Poll), R p (as.foldl g p)
  | [], p => hR.refl p
  | a :: as, p => hR.trans (hg p a) (hR.foldl hg as (g p a))

theorem emitIndex (hR : Admits R) {start : Int64} {stream : String}
    (hindex : ∀ p, R p (indexed db start stream p)) (h : R p₀ p) :
    Prog.Keeps (emitIndex db start stream) p (R p₀) := by
  unfold Replicate.emitIndex
  refine .update_bind (.state_bind ?_)
  exact keeps_ask (hR.trans h (hR.enter stream p)) (.update (hR.trans h (hindex p)))

/-- A turn, if the relation allows what its other parts do as well. -/
theorem poll (hR : Admits R) (hindex : ∀ name p, R p (indexed db Int64.minValue name p))
    (hoffset : ∀ p offset, R p (pushOffset p offset)) (hrows : ∀ rows p, R p (pushRows rows p))
    (h : R p₀ p) : Prog.Keeps (poll db) p (R p₀) := by
  unfold Replicate.poll
  refine .state_bind (keeps_ask h ?_)
  refine Prog.Keeps.bind (.forEach (fun name _ _ h' => hR.emitIndex (hindex name) h') h) ?_
  intro _ p₁ h₁
  have h₂ := hR.trans h₁ (hR.foldl hoffset (db.readClockOffsets p.1.source_id) p₁)
  refine keeps_ask h₁ (.update_bind (keeps_ask h₂ (keeps_ask h₂ ?_)))
  refine Prog.Keeps.bind
    (.foldEach (fun stream _ rows _ h' => hR.pollStream _ rows stream h') h₂) ?_
  intro rows p₃ h₃
  exact .update (hR.trans h₃ (hrows rows p₃))

/-- An opening, after its handshake. -/
theorem openSource (hR : Admits R) (rec : SourceRow) (since : Option Int64)
    (watermarks : OrdMap StreamKey Int64)
    (hindex : ∀ name p, R p (indexed db (since.getD Int64.minValue) name p))
    (hoffset : ∀ p offset, R p (openOffset since p offset)) (h : R p₀ (p.introduced rec)) :
    Prog.Keeps (openSource db rec since watermarks) p (R p₀) := by
  unfold Replicate.openSource
  refine .update_bind (keeps_ask h ?_)
  refine Prog.Keeps.bind (.forEach (fun name _ _ h' => hR.emitIndex (hindex name) h') h) ?_
  intro _ p₁ h₁
  refine keeps_ask h₁ (Prog.Keeps.bind (.forEach (fun stream _ _ h' =>
    hR.openStream since watermarks stream h') h₁) ?_)
  intro _ p₂ h₂
  exact keeps_ask h₂ (.update (hR.trans h₂ (hR.foldl hoffset _ p₂)))

end Admits

end

/-! ## Whole calls -/

/-- The sources a call met, one by one, each as `B` says. -/
inductive Meets (B : SourceRow → UInt32 → Batch → SourceCursor → Batch → Prop) :
    List SourceRow → Polls → Polls → Prop where
  | nil {x : Polls} : Meets B [] x x
  | cons {rec : SourceRow} {recs : List SourceRow} {x x' : Polls} {ordinal : UInt32}
      {c : SourceCursor} {b : Batch} : nextOrdinal x.1.length = .ok ordinal →
      B rec ordinal x.2 c b → Meets B recs (x.1 ++ [c], b) x' → Meets B (rec :: recs) x x'

section

variable {db : Archive} {opening : SourceRow → PublishM Poll Unit}
  {B : SourceRow → UInt32 → Batch → SourceCursor → Batch → Prop}

theorem emits_meet {rec : SourceRow} (hopen : ∀ ordinal b,
      Emits (opening rec) (.fresh ordinal rec, b) fun _ p' => B rec ordinal b p'.1 p'.2)
    (x : Polls) : Emits (meet opening rec) x fun _ x' => ∃ ordinal c,
      nextOrdinal x.1.length = .ok ordinal ∧ B rec ordinal x.2 c x'.2 ∧ x'.1 = x.1 ++ [c] := by
  unfold meet
  refine emits_state.bind ?_
  rintro ⟨cs, b⟩ x' ⟨hx, rfl⟩
  obtain rfl := hx
  dsimp only
  refine Prog.Runs.bind (Q := fun ordinal x' => x' = (cs, b) ∧ nextOrdinal cs.length = .ok ordinal)
    (.lift (fun _ h => ⟨rfl, h⟩) fun _ _ => trivial) ?_
  rintro ordinal _ ⟨rfl, hordinal⟩
  refine Prog.Runs.bind (Q := fun c x' => x'.1 = cs ∧ B rec ordinal b c x'.2) ?_ ?_
  · refine Prog.Runs.zoom (U := fun _ _ => True) (P := fun c b' => B rec ordinal b c b')
      (F := fun _ _ => True) ?_ (fun _ _ => .single trivial) (fun _ _ h => ⟨rfl, h⟩)
      fun _ _ _ => trivial
    exact Prog.Runs.withValue (U := fun _ _ => True) (hopen ordinal b)
      (fun _ _ => .single trivial) (fun _ _ h => h) fun _ _ _ => trivial
  · rintro c ⟨cs', b'⟩ ⟨hcs, h⟩
    obtain rfl : cs' = cs := hcs
    exact .update trivial ⟨ordinal, c, hordinal, h, rfl⟩

/-- The sources a call meets, in the order of the records. -/
theorem emits_meets (hopen : ∀ rec ordinal b,
      Emits (opening rec) (.fresh ordinal rec, b) fun _ p' => B rec ordinal b p'.1 p'.2) :
    ∀ (recs : List SourceRow) (x : Polls),
      Emits (Prog.forEach (meet opening) recs) x fun _ x' => Meets B recs x x'
  | [], _ => .pure .nil
  | rec :: recs, x => by
      refine (emits_meet (hopen rec) x).bind ?_
      rintro _ ⟨cs, b⟩ ⟨ordinal, c, hordinal, hB, hcs⟩
      obtain rfl : cs = x.1 ++ [c] := hcs
      exact (emits_meets hopen recs _).mono (fun _ _ h => .cons hordinal hB h) fun _ _ _ => trivial

/-- The sources some cursors are of. -/
def sourceIds (cs : List SourceCursor) : List Int := cs.map (·.source_id)

theorem unknown_congr {cs cs' : List SourceCursor} (h : sourceIds cs = sourceIds cs')
    (records : List SourceRow) : unknown cs records = unknown cs' records := by
  have hany : ∀ (l : List SourceCursor) (id : Int),
      (l.any (·.source_id = id)) = (sourceIds l).any (· = id) := by
    intro l id
    rw [sourceIds, List.any_map]
    rfl
  refine List.filter_congr fun r _ => ?_
  rw [hany, hany, h]

/-- What the turns of a call did, if a turn keeps the source of its cursor. -/
theorem sourceIds_each {D : SourceCursor → Batch → SourceCursor → Batch → Prop}
    (hD : ∀ c b c' b', D c b c' b' → c'.source_id = c.source_id) {cs cs' : List SourceCursor}
    {b b' : Batch} (h : Prog.Each D cs b cs' b') :
    sourceIds cs' = sourceIds cs := by
  induction h with
  | nil => rfl
  | cons hone _ ih =>
      unfold sourceIds at ih ⊢
      rw [List.map_cons, List.map_cons, ih, hD _ _ _ _ hone]

/-- **What a `next` that succeeds does**: a turn for each source it knows, and then a meeting
with each one it does not. -/
theorem emits_collect {D : SourceCursor → Batch → SourceCursor → Batch → Prop} {now since : Int64}
    (hknown : ∀ c b, Emits (pollKnown db now db.readSources) (c, b) fun _ p' => D c b p'.1 p'.2)
    (hopen : ∀ rec ordinal b, Emits (do
        openSource db rec (some since) db.sealedWatermarks
        poll db) (.fresh ordinal rec, b) fun _ p' => B rec ordinal b p'.1 p'.2)
    (hD : ∀ c b c' b', D c b c' b' → c'.source_id = c.source_id) (cs : List SourceCursor) :
    Emits (collect db now since) (cs, .empty) fun _ x => ∃ cs₁ b₁,
      Prog.Each D cs .empty cs₁ b₁ ∧ Meets B (unknown cs db.readSources) (cs₁, b₁) x := by
  unfold collect
  refine emits_ask.bind ?_
  rintro _ _ ⟨rfl, rfl⟩
  refine Prog.Runs.bind (Prog.Runs.onEach (U := fun _ _ => True) (D := D)
    (F := fun _ _ _ _ _ => True) hknown (fun _ _ _ _ _ _ => .single trivial) cs .empty |>.mono
      (fun _ _ h => h) fun _ _ _ => trivial) ?_
  rintro _ ⟨cs₁, b₁⟩ heach
  refine emits_state.bind ?_
  rintro ⟨cs₂, b₂⟩ _ ⟨hcs, rfl⟩
  obtain ⟨rfl, rfl⟩ := Prod.mk.inj hcs
  dsimp only
  rw [unknown_congr (sourceIds_each hD heach)]
  split
  · refine emits_ask.bind ?_
    rintro _ _ ⟨rfl, rfl⟩
    exact (emits_meets hopen _ _).mono (fun _ _ h => ⟨cs₂, b₂, heach, h⟩) fun _ _ _ => trivial
  · rename_i hempty
    have hnil : unknown cs db.readSources = [] := by simpa using hempty
    rw [hnil]
    exact .pure ⟨cs₂, b₂, heach, .nil⟩

/-- **What an opening that succeeds does**: it meets every source. -/
theorem emits_openAll {since : Option Int64} (hopen : ∀ rec ordinal b,
      Emits (openSource db rec since db.sealedWatermarks) (.fresh ordinal rec, b)
        fun _ p' => B rec ordinal b p'.1 p'.2) :
    Emits (openAll db since) ([], .empty) fun _ x => Meets B db.readSources ([], .empty) x := by
  unfold openAll
  refine emits_ask.bind ?_
  rintro _ _ ⟨rfl, rfl⟩
  refine emits_ask.bind ?_
  rintro _ _ ⟨rfl, rfl⟩
  exact emits_meets hopen _ _

/-! ### The publisher -/

/-- Frames are collected in a batch that starts empty. -/
theorem emits_collecting {m : PublishM Polls Unit} {cs : List SourceCursor}
    {Q : List SourceCursor → List Frame → Prop}
    (h : Emits m (cs, .empty) fun _ x => Q x.1 x.2.frames) :
    Emits (collecting m) cs fun frames cs' => Q cs' frames := by
  unfold collecting
  refine emits_ask.bind ?_
  rintro _ _ ⟨-, rfl⟩
  refine Prog.Runs.bind (Q := fun batch cs' => Q cs' batch.frames) ?_ fun _ _ h' => .pure h'
  refine Prog.Runs.withValue (U := fun _ _ => True) (P := fun _ x => Q x.2 x.1.frames)
    (F := fun _ _ => True) ?_ (fun _ _ => .single trivial) (fun _ _ h' => h') fun _ _ _ => trivial
  exact Prog.Runs.zoom (U := fun _ _ => True) (F := fun _ _ => True) h
    (fun _ _ => .single trivial) (fun _ _ h' => h') fun _ _ _ => trivial

variable {p p' : ArchivePublisher} {faults faults' : List (Fault StorageFailure)}
  {frames : List Frame} {Q : List SourceCursor → List Frame → Prop}

/-- What holds of the body of `next` holds of a `next` that succeeded. -/
theorem of_next {now : Int64}
    (h : Emits (collect db now p.since) (p.sources, .empty) fun _ x => Q x.1 x.2.frames)
    (hnext : ArchivePublisher.next db now p faults = (.ok frames, p', faults')) :
    Q p'.sources frames ∧ p'.since = p.since := by
  have hruns : Emits (ArchivePublisher.next db now) p fun frames p' =>
      Q p'.sources frames ∧ p'.since = p.since := by
    unfold ArchivePublisher.next
    refine emits_state.bind ?_
    rintro _ _ ⟨rfl, rfl⟩
    exact Prog.Runs.zoom (U := fun _ _ => True) (F := fun _ _ => True) (emits_collecting h)
      (fun _ _ => .single trivial) (fun _ _ hx => ⟨hx, rfl⟩) fun _ _ _ => trivial
  have hmeets := hruns faults
  rw [hnext] at hmeets
  exact hmeets.2

/-- What holds of the body of `open` holds of an opening that succeeded. -/
theorem of_open {since : Option Int64}
    (h : Emits (openAll db since) ([], .empty) fun _ x => Q x.1 x.2.frames)
    (hopen : ArchivePublisher.open_ db since (.unopened since) faults = (.ok frames, p', faults')) :
    Q p'.sources frames ∧ p'.since = since.getD Int64.minValue := by
  have hruns : Emits (ArchivePublisher.open_ db since) (.unopened since) fun frames p' =>
      Q p'.sources frames ∧ p'.since = since.getD Int64.minValue := by
    unfold ArchivePublisher.open_
    exact Prog.Runs.zoom (U := fun _ _ => True) (F := fun _ _ => True) (emits_collecting h)
      (fun _ _ => .single trivial) (fun _ _ hx => ⟨hx, rfl⟩) fun _ _ _ => trivial
  have hmeets := hruns faults
  rw [hopen] at hmeets
  exact hmeets.2

end

end Dendro.Replicate
