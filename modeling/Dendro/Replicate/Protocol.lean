import Dendro.Replicate.Calls

/-!
# What the frames of a connection say

Each source of a connection has a `Voice`: what its frames have said of it so far, from which
follows what its next frame may say. A connection is a list of voices in ordinal order, and
`converse` refuses a frame out of turn: a source nobody introduced, an ordinal handed out twice
or too early, a sequence number, an entry kind or an index state that does not follow.

The publisher's cursors are such a list of voices, and whatever it emits is in turn
(`emits_openAll_told`, `emits_collect_told`).
-/

namespace Dendro.Replicate

open Dendro

/-! ## Voices -/

/-- What the frames of a source have said of it. -/
structure Voice where
  /-- The `seq` of its next `rows` frame. -/
  seq : UInt64
  index_state : IndexState
  sent_full : Bool
  labels : StringMap
  metadata : StringMap
  deriving DecidableEq

/-- A source that has only been introduced. -/
def Voice.start (labels metadata : StringMap) : Voice where
  seq := 0
  index_state := NO_INDEX_STATE
  sent_full := false
  labels
  metadata

/-- The kind of a source's next index entry: only its first is `full`. -/
def entryKind (sent_full : Bool) : IndexKind := if sent_full then .delta else .full

/-- The voice after a frame of a source that was introduced; `none` where it is out of turn. -/
def Voice.say (v : Voice) : Frame → Option Voice
  | .handshake .. => none
  | .index _ _ ts kind state blob =>
    if kind = entryKind v.sent_full ∧ state = foldIndexState v.index_state ts blob then
      some { v with index_state := state, sent_full := true }
    else none
  | .rows _ seq index_state _ =>
    if seq = v.seq ∧ index_state = v.index_state then some { v with seq := v.seq + 1 } else none
  | .segment .. | .clockOffset .. => some v
  | .sourceUpdate _ _ labels metadata => some { v with labels, metadata }

/-- The voice after some frames of one source. -/
def Voice.sayAll (v : Voice) (fs : List Frame) : Option Voice := fs.foldlM Voice.say v

theorem Voice.sayAll_append {v v' v'' : Voice} {fs fs' : List Frame} (h : v.sayAll fs = some v')
    (h' : v'.sayAll fs' = some v'') : v.sayAll (fs ++ fs') = some v'' := by
  unfold Voice.sayAll at h h' ⊢
  rw [List.foldlM_append, h]
  exact h'

/-! ## Connections -/

/-- The voices after a frame of a source that was introduced. -/
def sayAt (voices : List Voice) (f : Frame) : Option (List Voice) := do
  let v ← voices[f.source.toNat]?
  let v' ← v.say f
  return voices.set f.source.toNat v'

/-- The voices after a frame. -/
def converseOne (voices : List Voice) : Frame → Option (List Voice)
  | .handshake source _ labels metadata _ _ =>
    if source.toNat = voices.length then some (voices ++ [.start labels metadata]) else none
  | f => sayAt voices f

/-- The voices after some frames. -/
def converse (voices : List Voice) (fs : List Frame) : Option (List Voice) :=
  fs.foldlM converseOne voices

theorem converse_append {vs vs' vs'' : List Voice} {fs fs' : List Frame}
    (h : converse vs fs = some vs') (h' : converse vs' fs' = some vs'') :
    converse vs (fs ++ fs') = some vs'' := by
  unfold converse at h h' ⊢
  rw [List.foldlM_append, h]
  exact h'

/-- Frames that one source says are heard as its own. -/
theorem converse_say {before after : List Voice} {fs : List Frame} {v v' : Voice}
    (hsource : ∀ f ∈ fs, f.source.toNat = before.length) (h : v.sayAll fs = some v') :
    converse (before ++ v :: after) fs = some (before ++ v' :: after) := by
  induction fs generalizing v with
  | nil => exact congrArg some (by rw [Option.some.inj h])
  | cons f fs ih =>
      obtain ⟨u, hu, h⟩ := Option.bind_eq_some_iff.mp h
      have hone : converseOne (before ++ v :: after) f = some (before ++ u :: after) := by
        have hf := hsource f List.mem_cons_self
        have hget : (before ++ v :: after)[f.source.toNat]? = some v := by
          rw [hf, List.getElem?_append_right (Nat.le_refl _), Nat.sub_self]
          rfl
        have hset : (before ++ v :: after).set f.source.toNat u = before ++ u :: after := by
          rw [hf, List.set_append_right _ _ (Nat.le_refl _), Nat.sub_self]
          rfl
        have hsay : sayAt (before ++ v :: after) f = some (before ++ u :: after) := by
          unfold sayAt
          rw [hget, Option.bind_eq_bind, Option.bind_some, hu, Option.bind_some, hset]
          rfl
        cases f with
        | handshake => exact absurd hu (by simp [Voice.say])
        | _ => exact hsay
      unfold converse
      rw [List.foldlM_cons, hone]
      exact ih (fun f' hf' => hsource f' (List.mem_cons_of_mem _ hf')) h

/-! ## A publisher's cursor as a voice -/

/-- What a cursor remembers of what it said. -/
def SourceCursor.voice (c : SourceCursor) : Voice where
  seq := c.seq
  index_state := c.index_state
  sent_full := c.sent_full
  labels := c.labels
  metadata := c.metadata

/-- Whether a frame carries live rows. -/
def Frame.isRows : Frame → Bool
  | .rows .. => true
  | _ => false

/-- A part of a poll: it emits frames of its source, in turn. -/
structure Told (p p' : Poll) (fs : List Frame) : Prop where
  frames : p'.2.frames = p.2.frames ++ fs
  ordinal : p'.1.ordinal = p.1.ordinal
  source_id : p'.1.source_id = p.1.source_id
  source : ∀ f ∈ fs, f.source = p.1.ordinal
  voice : p.1.voice.sayAll fs = some p'.1.voice

theorem Told.refl (p : Poll) : Told p p [] where
  frames := (List.append_nil _).symm
  ordinal := rfl
  source_id := rfl
  source _ h := absurd h List.not_mem_nil
  voice := rfl

theorem Told.trans {p p' p'' : Poll} {fs fs' : List Frame} (h : Told p p' fs)
    (h' : Told p' p'' fs') : Told p p'' (fs ++ fs') where
  frames := by rw [h'.frames, h.frames, List.append_assoc]
  ordinal := h'.ordinal.trans h.ordinal
  source_id := h'.source_id.trans h.source_id
  source f hf := by
    rcases List.mem_append.mp hf with hf | hf
    · exact h.source f hf
    · exact (h'.source f hf).trans h.ordinal
  voice := Voice.sayAll_append h.voice h'.voice

/-- A change of a cursor that its voice does not show. -/
theorem Told.quiet {p : Poll} {c : SourceCursor} {b : Batch} (hordinal : c.ordinal = p.1.ordinal)
    (hid : c.source_id = p.1.source_id) (hvoice : c.voice = p.1.voice)
    (hframes : b.frames = p.2.frames) : Told p (c, b) [] where
  frames := by rw [hframes, List.append_nil]
  ordinal := hordinal
  source_id := hid
  source _ h := absurd h List.not_mem_nil
  voice := congrArg some hvoice.symm

/-- One frame. -/
theorem Told.one {p : Poll} {c : SourceCursor} {b : Batch} {f : Frame}
    (hordinal : c.ordinal = p.1.ordinal) (hid : c.source_id = p.1.source_id)
    (hframes : b.frames = p.2.frames ++ [f]) (hsource : f.source = p.1.ordinal)
    (hvoice : p.1.voice.say f = some c.voice) : Told p (c, b) [f] where
  frames := hframes
  ordinal := hordinal
  source_id := hid
  source f' h := by rw [List.mem_singleton.mp h, hsource]
  voice := by
    unfold Voice.sayAll
    rw [List.foldlM_cons, hvoice]
    rfl

/-- Frames none of which carries rows. -/
def NoRows (fs : List Frame) : Prop := ∀ f ∈ fs, f.isRows = false

theorem NoRows.nil : NoRows [] := fun _ h => absurd h List.not_mem_nil

theorem NoRows.append {fs fs' : List Frame} (h : NoRows fs) (h' : NoRows fs') :
    NoRows (fs ++ fs') := by
  intro f hf
  rcases List.mem_append.mp hf with hf | hf
  · exact h f hf
  · exact h' f hf

theorem NoRows.one {f : Frame} (h : f.isRows = false) : NoRows [f] := by
  intro f' hf
  rw [List.mem_singleton.mp hf, h]

/-- A part of a poll that emits no rows and no change of identity. -/
structure Adds (p p' : Poll) : Prop where
  told : ∃ fs, Told p p' fs ∧ NoRows fs
  labels : p'.1.labels = p.1.labels
  metadata : p'.1.metadata = p.1.metadata

theorem Adds.refl (p : Poll) : Adds p p := ⟨⟨[], .refl p, .nil⟩, rfl, rfl⟩

theorem Adds.trans {p p' p'' : Poll} (h : Adds p p') (h' : Adds p' p'') : Adds p p'' := by
  obtain ⟨fs, ht, hq⟩ := h.told
  obtain ⟨fs', ht', hq'⟩ := h'.told
  exact ⟨⟨fs ++ fs', ht.trans ht', hq.append hq'⟩, h'.labels.trans h.labels,
    h'.metadata.trans h.metadata⟩

theorem Adds.quiet {p : Poll} {c : SourceCursor} {b : Batch} (hordinal : c.ordinal = p.1.ordinal)
    (hid : c.source_id = p.1.source_id) (hvoice : c.voice = p.1.voice)
    (hframes : b.frames = p.2.frames) : Adds p (c, b) :=
  ⟨⟨[], .quiet hordinal hid hvoice hframes, .nil⟩, congrArg Voice.labels hvoice,
    congrArg Voice.metadata hvoice⟩

theorem Adds.one {p : Poll} {c : SourceCursor} {b : Batch} {f : Frame}
    (hordinal : c.ordinal = p.1.ordinal) (hid : c.source_id = p.1.source_id)
    (hframes : b.frames = p.2.frames ++ [f]) (hsource : f.source = p.1.ordinal)
    (hvoice : p.1.voice.say f = some c.voice) (hrows : f.isRows = false)
    (hlabels : c.labels = p.1.labels) (hmetadata : c.metadata = p.1.metadata) : Adds p (c, b) :=
  ⟨⟨[f], .one hordinal hid hframes hsource hvoice, .one hrows⟩, hlabels, hmetadata⟩

/-! ### The emitting functions -/

theorem adds_enter (stream : String) (p : Poll) : Adds p (p.1.enter stream, p.2) :=
  .quiet rfl rfl rfl rfl

theorem adds_advance (stream : String) (wal_after : Option Int64) (p : Poll) :
    Adds p (p.1.advance stream wal_after, p.2) :=
  .quiet rfl rfl rfl rfl

theorem adds_pushEntry (stream : String) (p : Poll) (row : CallerRow) :
    Adds p (pushEntry stream p row) := by
  refine .one rfl rfl rfl rfl ?_ rfl rfl rfl
  unfold Voice.say
  exact if_pos ⟨rfl, rfl⟩

theorem adds_emitRow (stream : String) (x : Resume × Poll) (row : CallerRow) :
    Adds x.2 (emitRow stream x row).2 := by
  unfold emitRow
  split
  · exact .refl x.2
  · exact adds_pushEntry stream x.2 row

theorem adds_emitRows (stream : String) (r : Resume) (rows : List CallerRow) (p : Poll) :
    Adds p (emitRows stream r rows p) := by
  have hfold : ∀ (rows : List CallerRow) (x : Resume × Poll),
      Adds x.2 (rows.foldl (emitRow stream) x).2 := by
    intro rows
    induction rows with
    | nil => exact fun x => .refl x.2
    | cons row rows ih => exact fun x => (adds_emitRow stream x row).trans (ih _)
  have hrows := hfold rows (r, p)
  unfold emitRows
  rcases hx : rows.foldl (emitRow stream) (r, p) with ⟨r', c, b⟩
  rw [hx] at hrows
  dsimp only at hrows ⊢
  split
  · exact hrows.trans (.quiet rfl rfl rfl rfl)
  · exact hrows

theorem adds_indexed (db : Archive) (start : Int64) (stream : String) (p : Poll) :
    Adds p (indexed db start stream p) :=
  (adds_enter stream p).trans (adds_emitRows stream _ _ _)

theorem adds_pushOffset (p : Poll) (offset : Int64 × Int64) : Adds p (pushOffset p offset) := by
  unfold pushOffset
  dsimp only
  split
  · exact .refl p
  · exact .one rfl rfl rfl rfl rfl rfl rfl rfl

theorem adds_openOffset (since : Option Int64) (p : Poll) (offset : Int64 × Int64) :
    Adds p (openOffset since p offset) := by
  unfold openOffset
  cases since with
  | none => exact .quiet rfl rfl rfl rfl
  | some since =>
      dsimp only
      split
      · exact .refl p
      · exact .one rfl rfl rfl rfl rfl rfl rfl rfl

theorem adds_pushSegments (stream : String) (segments : List SegmentRow) (p : Poll) :
    Adds p (pushSegments stream segments p) := by
  refine ⟨⟨_, ⟨rfl, rfl, rfl, fun f hf => ?_, ?_⟩, fun f hf => ?_⟩, rfl, rfl⟩
  · obtain ⟨s, -, rfl⟩ := List.mem_map.mp hf
    rfl
  · unfold Voice.sayAll
    rw [List.foldlM_map]
    induction segments with
    | nil => rfl
    | cons s ss ih => exact ih
  · obtain ⟨s, -, rfl⟩ := List.mem_map.mp hf
    rfl

/-- The one `rows` frame of a poll, and the voice after it. -/
theorem told_pushRows (rows : List WalRow) (p : Poll) :
    Told p (pushRows rows p) [.rows p.1.ordinal p.1.seq p.1.index_state (sortRows rows)] := by
  refine .one rfl rfl rfl rfl ?_
  unfold Voice.say
  exact if_pos ⟨rfl, rfl⟩

/-! ### A poll -/

/-- The streams' part of a turn adds frames, if any; the rows wait for the turn's end. -/
theorem admits_adds : Admits Adds where
  refl := .refl
  trans := .trans
  enter := adds_enter
  advance := adds_advance
  segments := adds_pushSegments

/-- Frames that end in the one `rows` frame among them. -/
def EndsInRows (fs : List Frame) : Prop :=
  ∃ before last, fs = before ++ [last] ∧ last.isRows = true ∧ NoRows before

theorem EndsInRows.prepend {fs fs' : List Frame} (h : NoRows fs) (h' : EndsInRows fs') :
    EndsInRows (fs ++ fs') := by
  obtain ⟨before, last, rfl, hlast, hbefore⟩ := h'
  exact ⟨fs ++ before, last, (List.append_assoc _ _ _).symm, hlast, h.append hbefore⟩

/-- A whole poll: it ends in its rows, and tells no change of identity. -/
structure Polled (p p' : Poll) : Prop where
  told : ∃ fs, Told p p' fs ∧ EndsInRows fs
  labels : p'.1.labels = p.1.labels
  metadata : p'.1.metadata = p.1.metadata

theorem Adds.polled {p' : Poll} {rows : List WalRow} (h : Adds p p') :
    Polled p (pushRows rows p') := by
  obtain ⟨fs, ht, hq⟩ := h.told
  exact ⟨⟨_, ht.trans (told_pushRows rows p'), fs, _, rfl, rfl, hq⟩, h.labels, h.metadata⟩

section

variable {db : Archive} {p p₀ : Poll}

/-- **A poll of a source emits frames of the source, in turn, the last of which is its one
`rows` frame.** -/
theorem emits_poll (h : Adds p₀ p) : Emits (poll db) p fun _ p' => Polled p₀ p' := by
  unfold poll
  refine emits_state.bind ?_
  rintro ⟨c, b⟩ _ ⟨-, rfl⟩
  refine emits_ask.bind ?_
  rintro names _ ⟨-, rfl⟩
  refine Prog.Runs.bind (emits_of_keeps (.forEach (fun name _ _ h' =>
    admits_adds.emitIndex (adds_indexed db _ name) h') h)) fun _ p₁ h₁ => ?_
  refine emits_ask.bind ?_
  rintro offsets _ ⟨-, rfl⟩
  refine Prog.Runs.bind (Q := fun _ p' => Adds p₀ p')
    (.update trivial (h₁.trans (admits_adds.foldl adds_pushOffset offsets _))) fun _ p₂ h₂ => ?_
  refine emits_ask.bind ?_
  rintro watermarks _ ⟨-, rfl⟩
  refine emits_ask.bind ?_
  rintro streams _ ⟨-, rfl⟩
  refine Prog.Runs.bind (emits_of_keeps (.foldEach (fun stream _ rows _ h' =>
    admits_adds.pollStream watermarks rows stream h') h₂)) fun rows p₃ h₃ => ?_
  exact .update trivial h₃.polled

/-- **An opening batch is the source's handshake and then frames of it, in turn.** -/
theorem emits_openSource (rec : SourceRow) (since : Option Int64)
    (watermarks : OrdMap StreamKey Int64) :
    Emits (openSource db rec since watermarks) p fun _ p' => Adds (p.introduced rec) p' :=
  emits_of_keeps (admits_adds.openSource rec since watermarks (adds_indexed db _)
    (adds_openOffset since) (.refl _))

/-- A change of identity is told, and nothing else. -/
theorem emits_updateIdentity (now : Int64) (rec : SourceRow) :
    Emits (updateIdentity now rec) p fun _ p' => (∃ fs, Told p p' fs ∧ NoRows fs) ∧
      p'.1.labels = rec.identity.labels ∧ p'.1.metadata = rec.identity.metadata := by
  unfold updateIdentity
  refine emits_state.bind ?_
  rintro ⟨c, b⟩ p' ⟨hp, rfl⟩
  obtain rfl := hp
  dsimp only
  split
  · have htell : ∀ ts, Emits (Prog.update fun p : Poll =>
        ({ p.1 with labels := rec.identity.labels, metadata := rec.identity.metadata },
          { p.2 with polled_at := some ts }.push
            [.sourceUpdate p.1.ordinal ts rec.identity.labels rec.identity.metadata])) (c, b)
        fun _ p' => (∃ fs, Told (c, b) p' fs ∧ NoRows fs) ∧
          p'.1.labels = rec.identity.labels ∧ p'.1.metadata = rec.identity.metadata :=
      fun ts => .update trivial ⟨⟨_, .one rfl rfl rfl rfl rfl, .one rfl⟩, rfl, rfl⟩
    split
    · exact Prog.Runs.bind (Q := fun _ p' => p' = (c, b)) (.pure rfl) fun ts _ h => h ▸ htell ts
    · exact emits_ask.bind fun ts _ h => h.2 ▸ htell ts
  · rename_i hsame
    rw [not_or, not_not, not_not] at hsame
    exact .pure ⟨⟨[], .refl _, .nil⟩, hsame.1.symm, hsame.2.symm⟩

/-- Whether a cursor has last sent the identity that the archive holds. -/
def Current (records : List SourceRow) (c : SourceCursor) : Prop :=
  ∀ rec, records.find? (·.id = c.source_id) = some rec →
    c.labels = rec.identity.labels ∧ c.metadata = rec.identity.metadata

/-- **A call's part for a source it knows**: what the source says is in turn and ends in its
rows, and the cursor is current. -/
theorem emits_pollKnown (now : Int64) (records : List SourceRow) :
    Emits (pollKnown db now records) p fun _ p' =>
      (∃ fs, Told p p' fs ∧ EndsInRows fs) ∧ Current records p'.1 := by
  have hpoll : ∀ p₁, (∃ fs, Told p p₁ fs ∧ NoRows fs) → Current records p₁.1 →
      Emits (poll db) p₁ fun _ p' => (∃ fs, Told p p' fs ∧ EndsInRows fs) ∧ Current records p'.1 := by
    rintro p₁ ⟨fs, ht, hq⟩ hcurrent
    refine (emits_poll (.refl p₁)).mono (fun _ p' h => ?_) fun _ _ _ => trivial
    obtain ⟨fs', ht', hends⟩ := h.told
    refine ⟨⟨fs ++ fs', ht.trans ht', .prepend hq hends⟩, fun rec hrec => ?_⟩
    rw [ht'.source_id] at hrec
    rw [h.labels, h.metadata]
    exact hcurrent rec hrec
  unfold pollKnown
  refine emits_state.bind ?_
  rintro ⟨c, b⟩ p' ⟨hp, rfl⟩
  obtain rfl := hp
  dsimp only
  split
  · rename_i rec hrec
    refine (emits_updateIdentity now rec).bind ?_
    rintro _ p₁ ⟨⟨fs, ht, hq⟩, hlabels, hmetadata⟩
    refine hpoll p₁ ⟨fs, ht, hq⟩ fun rec' hrec' => ?_
    rw [ht.source_id, hrec] at hrec'
    obtain rfl := Option.some.inj hrec'
    exact ⟨hlabels, hmetadata⟩
  · rename_i hnone
    refine hpoll (c, b) ⟨[], .refl _, .nil⟩ fun rec hrec => ?_
    rw [hnone] at hrec
    exact absurd hrec (by simp)

end

/-! ### Whole calls -/

/-- The cursors stand in the order of their ordinals. -/
def Ordered (sources : List SourceCursor) : Prop :=
  ∀ (i : Nat) (c : SourceCursor), sources[i]? = some c → c.ordinal.toNat = i

/-- The voices of some cursors. -/
def voices (sources : List SourceCursor) : List Voice := sources.map SourceCursor.voice

/-- One chunk of frames for each source from the ordinal `n` on, each as `P` says. -/
inductive Chunks (P : List Frame → Prop) : Nat → List (List Frame) → Prop where
  | nil {n : Nat} : Chunks P n []
  | cons {n : Nat} {chunk : List Frame} {chunks : List (List Frame)} :
      (∀ f ∈ chunk, f.source.toNat = n) → P chunk → Chunks P (n + 1) chunks →
      Chunks P n (chunk :: chunks)

theorem Chunks.snoc {P : List Frame → Prop} {chunk : List Frame} {n : Nat}
    {chunks : List (List Frame)} (h : Chunks P n chunks)
    (hsource : ∀ f ∈ chunk, f.source.toNat = n + chunks.length) (hP : P chunk) :
    Chunks P n (chunks ++ [chunk]) := by
  induction h with
  | nil => exact .cons hsource hP .nil
  | cons hs hp _ ih =>
      refine .cons hs hp (ih fun f hf => ?_)
      rw [hsource f hf, List.length_cons]
      omega

/-- What a call has emitted so far, and the cursors it has moved: the frames are in turn after
the voices `vs`, and fall into one chunk for each source. -/
structure Collected (P : List Frame → Prop) (records : List SourceRow) (vs : List Voice)
    (x : Polls) : Prop where
  chunks : ∃ chunks, x.2.frames = chunks.flatten ∧ Chunks P 0 chunks ∧
    chunks.length = x.1.length
  ordered : Ordered x.1
  heard : converse vs x.2.frames = some (voices x.1)
  current : ∀ c ∈ x.1, Current records c

section

variable {db : Archive} {records : List SourceRow}

theorem ordered_append {cs : List SourceCursor} {c : SourceCursor} (h : Ordered cs)
    (hc : c.ordinal.toNat = cs.length) : Ordered (cs ++ [c]) := by
  intro i c' hi
  by_cases hlt : i < cs.length
  · rw [List.getElem?_append_left hlt] at hi
    exact h i c' hi
  · rw [List.getElem?_append_right (Nat.le_of_not_lt hlt)] at hi
    have hzero : i - cs.length = 0 := by
      by_contra hne
      rw [List.getElem?_eq_none (by rw [List.length_singleton]; omega)] at hi
      exact absurd hi (by simp)
    rw [hzero] at hi
    rw [← Option.some.inj hi, hc]
    omega

/-- What a turn of the loop over the known sources does to one of them. -/
def PolledOne (records : List SourceRow) (c : SourceCursor) (b : Batch) (c' : SourceCursor)
    (b' : Batch) : Prop :=
  (∃ fs, Told (c, b) (c', b') fs ∧ EndsInRows fs) ∧ Current records c'

/-- The loop over the known sources, from the ordinal of the first of them on. -/
theorem polled_each {cs cs' : List SourceCursor} {b b' : Batch}
    (h : Prog.Each (PolledOne records) cs b cs' b') : ∀ before : List SourceCursor,
      Ordered (before ++ cs) → Ordered (before ++ cs') ∧ cs'.map (·.source_id) = cs.map (·.source_id) ∧
      (∀ c ∈ cs', Current records c) ∧ ∃ chunks, b'.frames = b.frames ++ chunks.flatten ∧
        Chunks EndsInRows before.length chunks ∧ chunks.length = cs'.length ∧
        converse (voices (before ++ cs)) chunks.flatten = some (voices (before ++ cs')) := by
  induction h with
  | nil =>
      intro before hord
      exact ⟨hord, rfl, fun _ hc => absurd hc List.not_mem_nil, [], (List.append_nil _).symm, .nil,
        rfl, rfl⟩
  | @cons c c' cs cs' b₀ b₁ b₂ hone hrest ih =>
      intro before hord
      obtain ⟨⟨fs, ht, hends⟩, hcurrent⟩ := hone
      have hc : c.ordinal.toNat = before.length := by
        refine hord before.length c ?_
        rw [List.getElem?_append_right (Nat.le_refl _), Nat.sub_self]
        rfl
      have hord' : Ordered (before ++ [c'] ++ cs) := by
        intro i x hi
        rw [List.append_assoc] at hi
        by_cases hat : i = before.length
        · subst hat
          rw [List.getElem?_append_right (Nat.le_refl _), Nat.sub_self] at hi
          rw [← Option.some.inj hi, ht.ordinal, hc]
        · refine hord i x ?_
          rcases Nat.lt_or_gt_of_ne hat with hlt | hgt
          · rwa [List.getElem?_append_left hlt] at hi ⊢
          · rw [List.getElem?_append_right (Nat.le_of_lt hgt)] at hi ⊢
            obtain ⟨n, hn⟩ : ∃ n, i - before.length = n + 1 := ⟨i - before.length - 1, by omega⟩
            rw [hn] at hi ⊢
            exact hi
      obtain ⟨hordered, hids, hcurrents, chunks, hframes, hchunks, hlen, hheard⟩ :=
        ih (before ++ [c']) hord'
      have hsource : ∀ f ∈ fs, f.source.toNat = before.length := fun f hf => by
        rw [ht.source f hf, hc]
      rw [List.length_append, List.length_singleton] at hchunks
      rw [List.append_assoc] at hordered
      refine ⟨hordered, ?_, ?_, fs :: chunks, ?_, .cons hsource hends hchunks, ?_, ?_⟩
      · rw [List.map_cons, List.map_cons, hids, ht.source_id]
      · intro x hx
        rcases List.mem_cons.mp hx with rfl | hx
        · exact hcurrent
        · exact hcurrents x hx
      · rw [hframes, ht.frames, List.append_assoc, List.flatten_cons]
      · rw [List.length_cons, List.length_cons, hlen]
      · rw [List.flatten_cons]
        have hfirst : converse (voices (before ++ c :: cs)) fs =
            some (voices (before ++ [c'] ++ cs)) := by
          have hsay := @converse_say (voices before) (voices cs) fs c.voice c'.voice
            (fun f hf => by rw [hsource f hf, voices, List.length_map]) ht.voice
          simpa [voices] using hsay
        rw [List.append_assoc] at hheard
        exact converse_append hfirst (by simpa using hheard)

/-- The handshake of the next source is in turn, and so is what the source then says. -/
theorem heard_introduced {cs : List SourceCursor} {c c' : SourceCursor} {b b' : Batch}
    {rec : SourceRow} {fs : List Frame} (hc : c.ordinal.toNat = cs.length)
    (hstart : c.voice = .start rec.identity.labels rec.identity.metadata)
    (ht : Told (c, b) (c', b') fs) :
    converse (voices cs) (c.introduces rec :: fs) = some (voices (cs ++ [c'])) := by
  have hhello : converse (voices cs) [c.introduces rec] = some (voices cs ++ [c.voice]) := by
    have hone : converseOne (voices cs) (c.introduces rec) = some (voices cs ++ [c.voice]) := by
      rw [hstart]
      refine if_pos ?_
      rw [hc, voices, List.length_map]
    unfold converse
    rw [List.foldlM_cons, hone]
    rfl
  have hsay := @converse_say (voices cs) [] fs c.voice c'.voice
    (fun f hf => by rw [ht.source f hf, hc, voices, List.length_map]) ht.voice
  have hvoices : voices (cs ++ [c']) = voices cs ++ [c'.voice] := List.map_append
  rw [hvoices]
  exact converse_append hhello hsay

/-- A source that a call meets: its cursor, its handshake and its frames. -/
theorem Collected.meet {P : List Frame → Prop} {vs : List Voice} {x : Polls} {rec : SourceRow}
    {ordinal : UInt32} {c' : SourceCursor} {b' : Batch} {fs : List Frame}
    (h : Collected P records vs x) (hordinal : nextOrdinal x.1.length = .ok ordinal)
    (ht : Told (.fresh ordinal rec, x.2.push [(SourceCursor.fresh ordinal rec).introduces rec])
      (c', b') fs) (hP : P ((SourceCursor.fresh ordinal rec).introduces rec :: fs))
    (hlabels : c'.labels = rec.identity.labels) (hmetadata : c'.metadata = rec.identity.metadata)
    (hrec : records.find? (·.id = rec.id) = some rec) :
    Collected P records vs (x.1 ++ [c'], b') := by
  have hlt : x.1.length < 2 ^ 32 := by
    unfold nextOrdinal at hordinal
    split at hordinal
    · assumption
    · exact absurd hordinal (by simp)
  have hto : ordinal.toNat = x.1.length := by
    rw [nextOrdinal, if_pos hlt] at hordinal
    rw [← Except.ok.inj hordinal, UInt32.toNat_ofNat_of_lt' hlt]
  obtain ⟨chunks, hframes, hchunks, hlen⟩ := h.chunks
  have hframes' : b'.frames =
      x.2.frames ++ ((SourceCursor.fresh ordinal rec).introduces rec :: fs) := by
    have hb : b'.frames = _ := ht.frames
    rw [hb, Batch.push, List.append_assoc, List.singleton_append]
  refine ⟨⟨chunks ++ [(SourceCursor.fresh ordinal rec).introduces rec :: fs], ?_, ?_, ?_⟩, ?_, ?_, ?_⟩
  · rw [hframes', hframes, List.flatten_append, List.flatten_singleton]
  · refine hchunks.snoc (fun f hf => ?_) hP
    rw [Nat.zero_add, hlen, ← hto]
    rcases List.mem_cons.mp hf with rfl | hf
    · rfl
    · rw [ht.source f hf]
      rfl
  · rw [List.length_append, List.length_append, hlen]
    rfl
  · refine ordered_append h.ordered ?_
    have : c'.ordinal = ordinal := ht.ordinal
    rw [this, hto]
  · rw [hframes']
    exact converse_append h.heard (heard_introduced hto rfl ht)
  · intro c hc
    rcases List.mem_append.mp hc with hc | hc
    · exact h.current c hc
    · rw [List.mem_singleton.mp hc]
      intro rec' hrec'
      have hid : c'.source_id = rec.id := ht.source_id
      rw [hid, hrec] at hrec'
      obtain rfl := Option.some.inj hrec'
      exact ⟨hlabels, hmetadata⟩

/-- How a source is met: its handshake, and frames of it as `P` says. -/
structure Introduced (P : List Frame → Prop) (rec : SourceRow) (ordinal : UInt32) (b : Batch)
    (c : SourceCursor) (b' : Batch) : Prop where
  told : ∃ fs, Told (Poll.introduced (.fresh ordinal rec, b) rec) (c, b') fs ∧
    P ((SourceCursor.fresh ordinal rec).introduces rec :: fs)
  labels : c.labels = rec.identity.labels
  metadata : c.metadata = rec.identity.metadata

theorem emits_openSource_introduced (since : Option Int64) (watermarks : OrdMap StreamKey Int64)
    (rec : SourceRow) (ordinal : UInt32) (b : Batch) :
    Emits (openSource db rec since watermarks) (.fresh ordinal rec, b) fun _ p' =>
      Introduced NoRows rec ordinal b p'.1 p'.2 := by
  refine (emits_openSource rec since watermarks).mono (fun _ p' h => ?_) fun _ _ _ => trivial
  obtain ⟨fs, ht, hq⟩ := h.told
  exact ⟨⟨fs, ht, NoRows.append (.one rfl) hq⟩, h.labels, h.metadata⟩

theorem emits_openSource_poll (since : Option Int64) (watermarks : OrdMap StreamKey Int64)
    (rec : SourceRow) (ordinal : UInt32) (b : Batch) :
    Emits (do
      openSource db rec since watermarks
      poll db) (.fresh ordinal rec, b) fun _ p' => Introduced EndsInRows rec ordinal b p'.1 p'.2 := by
  refine (emits_openSource rec since watermarks).bind fun _ p₁ h₁ => ?_
  refine (emits_poll h₁).mono (fun _ p' h => ?_) fun _ _ _ => trivial
  obtain ⟨fs, ht, hends⟩ := h.told
  exact ⟨⟨fs, ht, .prepend (.one rfl) hends⟩, h.labels, h.metadata⟩

variable {P : List Frame → Prop} {vs : List Voice}

/-- The sources a call meets, in the order of the records. -/
theorem Collected.meets {recs : List SourceRow} {x x' : Polls}
    (h : Collected P records vs x) (hmeets : Meets (Introduced P) recs x x')
    (hrecs : ∀ rec ∈ recs, records.find? (·.id = rec.id) = some rec) :
    Collected P records vs x' ∧ sourceIds x'.1 = sourceIds x.1 ++ recs.map (·.id) := by
  induction hmeets with
  | nil => exact ⟨h, (List.append_nil _).symm⟩
  | @cons rec recs x x' ordinal c b hordinal hone _ ih =>
      obtain ⟨hrec, hrest⟩ := List.forall_mem_cons.mp hrecs
      obtain ⟨fs, ht, hP⟩ := hone.told
      have hnext := h.meet hordinal ht hP hone.labels hone.metadata hrec
      obtain ⟨hcoll, hids⟩ := ih hnext hrest
      have hid : c.source_id = rec.id := ht.source_id
      refine ⟨hcoll, ?_⟩
      rw [hids, sourceIds, List.map_append, List.append_assoc, List.map_singleton, hid]
      rfl

/-- A source is found by its id. -/
theorem find_readSources {rec : SourceRow} (h : rec ∈ db.readSources) :
    db.readSources.find? (·.id = rec.id) = some rec := by
  obtain ⟨e, he, rfl⟩ := List.mem_map.mp h
  obtain ⟨id, cols⟩ := e
  rcases hf : db.readSources.find? (·.id = id) with _ | found
  · have hnot := List.find?_eq_none.mp hf _ h
    exact absurd (decide_eq_true rfl) hnot
  · have hid : found.id = id := by simpa using List.find?_some hf
    obtain ⟨⟨id', cols'⟩, he', rfl⟩ := List.mem_map.mp (List.mem_of_find?_eq_some hf)
    obtain rfl : id' = id := hid
    rw [OrdMap.mem_unique he' he] at hf
    exact hf

/-- **`next` speaks in turn.** Over the cursors it starts from, what a call emits is in turn;
it falls into one chunk for each source, old or new, that ends in the source's one `rows`
frame; and the cursors that it leaves are current. -/
theorem emits_collect_told {now since : Int64} {cs : List SourceCursor} (hord : Ordered cs) :
    Emits (collect db now since) (cs, .empty) fun _ x =>
      Collected EndsInRows db.readSources (voices cs) x ∧
        sourceIds x.1 = sourceIds cs ++ (unknown cs db.readSources).map (·.id) := by
  have hcollect := @emits_collect db (Introduced EndsInRows) (PolledOne db.readSources) now since
    (fun _ _ => emits_pollKnown now db.readSources)
    (fun rec ordinal b => emits_openSource_poll _ _ rec ordinal b)
    (fun _ _ _ _ h => by
      obtain ⟨⟨fs, ht, -⟩, -⟩ := h
      exact ht.source_id) cs
  refine hcollect.mono ?_ fun _ _ _ => trivial
  rintro _ x ⟨cs₁, b₁, heach, hmeets⟩
  obtain ⟨hordered, hids, hcurrent, chunks, hframes, hchunks, hlen, hheard⟩ := polled_each heach [] hord
  have h₁ : Collected EndsInRows db.readSources (voices cs) (cs₁, b₁) := by
    have hframes' : b₁.frames = chunks.flatten := hframes
    refine ⟨⟨chunks, hframes', hchunks, hlen⟩, hordered, ?_, hcurrent⟩
    rw [hframes']
    exact hheard
  have hids' : sourceIds cs₁ = sourceIds cs := hids
  have hmet := h₁.meets hmeets fun rec hrec => find_readSources (List.mem_filter.mp hrec).1
  rwa [hids'] at hmet

/-- **An opening speaks in turn**: a chunk for each source, without rows. -/
theorem emits_openAll_told (since : Option Int64) :
    Emits (openAll db since) ([], .empty) fun _ x =>
      Collected NoRows db.readSources [] x ∧ sourceIds x.1 = db.readSources.map (·.id) := by
  refine (emits_openAll fun rec ordinal b => emits_openSource_introduced _ _ rec ordinal b).mono
    (fun _ x hmeets => ?_) fun _ _ _ => trivial
  have h₀ : Collected NoRows db.readSources [] ([], .empty) :=
    ⟨⟨[], rfl, .nil, rfl⟩, fun i c hi => absurd hi (by simp), rfl, fun _ hc => absurd hc List.not_mem_nil⟩
  exact h₀.meets hmeets fun rec hrec => find_readSources hrec

end

/-! ### The publisher -/

/-- The cursors and frames of a call that succeeded, as one collection. -/
def Emitted (P : List Frame → Prop) (db : Archive) (vs : List Voice) (cs : List SourceCursor)
    (frames : List Frame) : Prop :=
  Collected P db.readSources vs (cs, { frames, polled_at := none })

theorem Collected.emitted {P : List Frame → Prop} {db : Archive} {vs : List Voice} {x : Polls}
    (h : Collected P db.readSources vs x) : Emitted P db vs x.1 x.2.frames :=
  ⟨h.chunks, h.ordered, h.heard, h.current⟩

/-- **What a successful `next` did.** -/
theorem next_ok {db : Archive} {now : Int64} {p p' : ArchivePublisher}
    {faults faults' : List (Fault StorageFailure)} {frames : List Frame} (hord : Ordered p.sources)
    (h : ArchivePublisher.next db now p faults = (.ok frames, p', faults')) :
    Emitted EndsInRows db (voices p.sources) p'.sources frames ∧
      sourceIds p'.sources = sourceIds p.sources ++ (unknown p.sources db.readSources).map (·.id) :=
  (@of_next db p p' faults faults' frames (fun cs frames =>
    Emitted EndsInRows db (voices p.sources) cs frames ∧
      sourceIds cs = sourceIds p.sources ++ (unknown p.sources db.readSources).map (·.id)) now
    ((emits_collect_told hord).mono (fun _ _ hx => ⟨hx.1.emitted, hx.2⟩) fun _ _ _ => trivial) h).1

/-- **What a successful opening did.** -/
theorem open_ok {db : Archive} {since : Option Int64} {p : ArchivePublisher}
    {faults faults' : List (Fault StorageFailure)} {frames : List Frame}
    (h : ArchivePublisher.open_ db since (.unopened since) faults = (.ok frames, p, faults')) :
    Emitted NoRows db [] p.sources frames ∧
      sourceIds p.sources = db.readSources.map (·.id) :=
  (@of_open db p faults faults' frames (fun cs frames =>
    Emitted NoRows db [] cs frames ∧ sourceIds cs = db.readSources.map (·.id)) since
    ((emits_openAll_told since).mono (fun _ _ hx => ⟨hx.1.emitted, hx.2⟩) fun _ _ _ => trivial) h).1

end Dendro.Replicate
