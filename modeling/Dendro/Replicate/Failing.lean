import Dendro.Replicate.Lossy

/-!
# Calls that fail

A `next` moves a source's cursor while it reads, and hands out what it collected only once every
read went through. So a call that fails loses what it had collected: the cursors it leaves stand
past those frames, and to a subscriber it is as if the link had lost them
(`failing_calls_answered`). What the call had collected of a source it was about to meet is
forgotten with that source's cursor, and sent again.
-/

namespace Dendro.Replicate

open Dendro SubscribeM

/-! ## What a call says of the sources it knows, however it ends -/

/-- Frames of sources with a cursor, in turn after the voices of the cursors before. -/
structure Spoke (x x' : Polls) : Prop where
  ordered : Ordered x'.1
  frames : ∃ fs, x'.2.frames = x.2.frames ++ fs ∧ converse (voices x.1) fs = some (voices x'.1) ∧
    ∀ f ∈ fs, f.source.toNat < x'.1.length
  more : x.1.length ≤ x'.1.length

theorem Spoke.refl {x : Polls} (h : Ordered x.1) : Spoke x x where
  ordered := h
  frames := ⟨[], (List.append_nil _).symm, rfl, fun _ hf => absurd hf List.not_mem_nil⟩
  more := Nat.le_refl _

theorem Spoke.trans {x x' x'' : Polls} (h : Spoke x x') (h' : Spoke x' x'') : Spoke x x'' := by
  obtain ⟨-, ⟨fs, hframes, hheard, hnamed⟩, hmore⟩ := h
  obtain ⟨hordered, ⟨fs', hframes', hheard', hnamed'⟩, hmore'⟩ := h'
  refine ⟨hordered, ⟨fs ++ fs', ?_, converse_append hheard hheard', fun f hf => ?_⟩, by omega⟩
  · rw [hframes', hframes, List.append_assoc]
  · rcases List.mem_append.mp hf with hf | hf
    · have := hnamed f hf
      omega
    · exact hnamed' f hf

/-- A source that is not known yet has been given up: its frames are of the next ordinal. -/
structure Abandoned (x x' : Polls) : Prop where
  cursors : x'.1 = x.1
  frames : ∃ fs, x'.2.frames = x.2.frames ++ fs ∧ ∀ f ∈ fs, f.source.toNat = x.1.length

theorem Abandoned.refl (x : Polls) : Abandoned x x :=
  ⟨rfl, [], (List.append_nil _).symm, fun _ hf => absurd hf List.not_mem_nil⟩

/-- Some frames of a source. -/
def Tells (p p' : Poll) : Prop := ∃ fs, Told p p' fs

theorem admits_tells : Admits Tells where
  refl p := ⟨[], .refl p⟩
  trans := by
    rintro p p' p'' ⟨fs, h⟩ ⟨fs', h'⟩
    exact ⟨fs ++ fs', h.trans h'⟩
  enter stream p := by
    obtain ⟨fs, h, -⟩ := (adds_enter stream p).told
    exact ⟨fs, h⟩
  advance stream wal_after p := by
    obtain ⟨fs, h, -⟩ := (adds_advance stream wal_after p).told
    exact ⟨fs, h⟩
  segments stream segments p := by
    obtain ⟨fs, h, -⟩ := (adds_pushSegments stream segments p).told
    exact ⟨fs, h⟩

theorem Adds.tells {p p' : Poll} (h : Adds p p') : Tells p p' := by
  obtain ⟨fs, h, -⟩ := h.told
  exact ⟨fs, h⟩

section

variable {db : Archive}

theorem keeps_poll_tells {p p₀ : Poll} (h : Tells p₀ p) : Prog.Keeps (poll db) p (Tells p₀) :=
  admits_tells.poll (fun name p => (adds_indexed db _ name p).tells)
    (fun p offset => (adds_pushOffset p offset).tells) (fun rows p => ⟨_, told_pushRows rows p⟩) h

/-- A turn, however it ends, tells some frames of its source. -/
theorem keeps_pollKnown_tells (now : Int64) (records : List SourceRow) (p : Poll) :
    Prog.Keeps (pollKnown db now records) p (Tells p) := by
  have hrefl : Tells p p := ⟨[], .refl p⟩
  have hpoll : ∀ p', Tells p p' → Prog.Keeps (poll db) p' (Tells p) := fun _ h => keeps_poll_tells h
  unfold pollKnown
  refine .state_bind ?_
  obtain ⟨c, b⟩ := p
  dsimp only
  split
  · rename_i rec hrec
    refine Prog.Keeps.bind (I := Tells (c, b)) ?_ fun _ p' h' => hpoll p' h'
    unfold updateIdentity
    refine .state_bind ?_
    dsimp only
    split
    · have htell : ∀ ts, Prog.Keeps (Prog.update fun p : Poll =>
          ({ p.1 with labels := rec.identity.labels, metadata := rec.identity.metadata },
            { p.2 with polled_at := some ts }.push
              [.sourceUpdate p.1.ordinal ts rec.identity.labels rec.identity.metadata]) :
            PublishM Poll Unit) (c, b) (Tells (c, b)) :=
        fun ts _ => ⟨_, .one rfl rfl rfl rfl rfl⟩
      split
      · exact htell _
      · exact keeps_ask hrefl (htell _)
    · exact fun _ => hrefl
  · exact hpoll (c, b) hrefl

/-! ## Whole calls, however they end -/

/-- One turn of the loop over the known sources. -/
theorem spoke_turn {before after : List SourceCursor} {c c' : SourceCursor} {b b' : Batch}
    (h : Tells (c, b) (c', b')) (hord : Ordered (before ++ c :: after)) :
    Spoke (before ++ c :: after, b) (before ++ c' :: after, b') := by
  obtain ⟨fs, ht⟩ := h
  have hc : c.ordinal.toNat = before.length := by
    refine hord before.length c ?_
    rw [List.getElem?_append_right (Nat.le_refl _), Nat.sub_self]
    rfl
  have hsource : ∀ f ∈ fs, f.source.toNat = before.length := fun f hf => by
    rw [ht.source f hf, hc]
  have hlen : (before ++ c' :: after).length = (before ++ c :: after).length := by
    rw [List.length_append, List.length_append, List.length_cons, List.length_cons]
  refine ⟨fun i x hi => ?_, ⟨fs, ht.frames, ?_, fun f hf => ?_⟩, ?_⟩
  · by_cases hat : i = before.length
    · subst hat
      rw [List.getElem?_append_right (Nat.le_refl _), Nat.sub_self] at hi
      rw [← Option.some.inj hi, ht.ordinal, hc]
    · refine hord i x ?_
      rcases Nat.lt_or_gt_of_ne hat with hlt | hgt
      · rwa [List.getElem?_append_left hlt] at hi ⊢
      · rw [List.getElem?_append_right (Nat.le_of_lt hgt)] at hi ⊢
        obtain ⟨n, hn⟩ : ∃ n, i - before.length = n + 1 := ⟨i - before.length - 1, by omega⟩
        rw [hn] at hi ⊢
        exact hi
  · have hsay := @converse_say (voices before) (voices after) fs c.voice c'.voice
      (fun f hf => by rw [hsource f hf, voices, List.length_map]) ht.voice
    simpa [voices] using hsay
  · rw [hsource f hf, List.length_append, List.length_cons]
    omega
  · dsimp only
    omega

/-- The turns made, in order. -/
theorem spoke_each {cs cs' : List SourceCursor} {b b' : Batch}
    (h : Prog.Each (fun c b c' b' => Tells (c, b) (c', b')) cs b cs' b') :
    ∀ before after : List SourceCursor, Ordered (before ++ cs ++ after) →
      Spoke (before ++ cs ++ after, b) (before ++ cs' ++ after, b') := by
  induction h with
  | nil => exact fun before after hord => .refl hord
  | @cons c c' cs cs' b₀ b₁ b₂ hone _ ih =>
      intro before after hord
      rw [List.append_assoc, List.cons_append] at hord ⊢
      have hfirst := spoke_turn hone hord
      have hrest := ih (before ++ [c']) after (by simpa using hfirst.ordered)
      refine hfirst.trans ?_
      simpa using hrest

/-- **The loop over the known sources**, also where it gives up in the middle. -/
theorem runs_known (now : Int64) {cs : List SourceCursor} (hord : Ordered cs) :
    Prog.Runs (fun _ _ => True) (Prog.onEach (pollKnown db now db.readSources)) (cs, Batch.empty)
      (fun _ x => Spoke (cs, .empty) x) fun _ x => Spoke (cs, .empty) x := by
  have hturn : ∀ c b, Prog.Runs (fun _ _ => True) (pollKnown db now db.readSources) (c, b)
      (fun _ x => Tells (c, b) (x.1, x.2)) fun _ x => Tells (c, b) (x.1, x.2) :=
    fun c b => (keeps_pollKnown_tells now _ (c, b)).runs
  have heach := Prog.Runs.onEach (U := fun _ _ => True) (R := fun _ _ => True)
    (D := fun c b c' b' => Tells (c, b) (c', b')) (F := fun _ c b c' b' => Tells (c, b) (c', b'))
    hturn (fun _ _ _ _ _ _ => .single trivial) cs .empty
  refine heach.mono (fun _ x h => ?_) fun _ x h => ?_
  · simpa using spoke_each h [] [] (by simpa using hord)
  · obtain ⟨before, c, after, before', c', b₁, rfl, hbefore, hlast, hx⟩ := h.split
    have hfirst := spoke_each hbefore [] (c :: after) (by simpa using hord)
    have hfirst : Spoke (before ++ c :: after, .empty) (before' ++ c :: after, b₁) := by
      simpa using hfirst
    have hx : x = (before' ++ c' :: after, x.2) := Prod.ext hx rfl
    rw [hx]
    exact hfirst.trans (spoke_turn hlast hfirst.ordered)

/-- **A meeting**, also where it gives up. -/
theorem runs_meet {opening : SourceRow → PublishM Poll Unit} {rec : SourceRow} {x : Polls}
    (hord : Ordered x.1)
    (hopen : ∀ ordinal b, Prog.Keeps (opening rec) (.fresh ordinal rec, b)
      (Tells (Poll.introduced (.fresh ordinal rec, b) rec))) :
    Prog.Runs (fun _ _ => True) (meet opening rec) x (fun _ x' => Spoke x x')
      fun _ x' => Abandoned x x' := by
  obtain ⟨cs, b⟩ := x
  unfold meet
  refine Prog.Runs.bind (Q := fun s s' => s = (cs, b) ∧ s' = (cs, b)) (.state ⟨rfl, rfl⟩) ?_
  rintro _ _ ⟨rfl, rfl⟩
  dsimp only
  refine Prog.Runs.bind (Q := fun ordinal x' => x' = (cs, b) ∧ nextOrdinal cs.length = .ok ordinal)
    (.lift (fun _ h => ⟨rfl, h⟩) fun _ _ => .refl _) ?_
  rintro ordinal _ ⟨rfl, hordinal⟩
  have hto := nextOrdinal_ok hordinal
  refine Prog.Runs.bind (Q := fun c x' => x'.1 = cs ∧
    Tells (Poll.introduced (.fresh ordinal rec, b) rec) (c, x'.2)) ?_ ?_
  · refine Prog.Runs.zoom (U := fun _ _ => True)
      (P := fun c b' => Tells (Poll.introduced (.fresh ordinal rec, b) rec) (c, b'))
      (F := fun _ b' => ∃ c, Tells (Poll.introduced (.fresh ordinal rec, b) rec) (c, b'))
      ?_ (fun _ _ => .single trivial) (fun _ _ h => ⟨rfl, h⟩) ?_
    · exact Prog.Runs.withValue (U := fun _ _ => True) (hopen ordinal b).runs
        (fun _ _ => .single trivial) (fun _ _ h => h) fun _ x h => ⟨x.1, h⟩
    · -- its frames are of the ordinal that stays free
      rintro e b' ⟨c, fs, ht⟩
      refine ⟨rfl, (SourceCursor.fresh ordinal rec).introduces rec :: fs, ?_, fun f hf => ?_⟩
      · have hframes : b'.frames = _ := ht.frames
        dsimp only
        rw [hframes]
        exact List.append_assoc _ _ _
      · rcases List.mem_cons.mp hf with rfl | hf
        · exact hto
        · rw [ht.source f hf]
          exact hto
  · rintro c ⟨cs', b'⟩ ⟨hcs, fs, ht⟩
    obtain rfl : cs' = cs := hcs
    refine .update trivial ?_
    have hframes : b'.frames = b.frames ++ (SourceCursor.fresh ordinal rec).introduces rec :: fs := by
      have hb : b'.frames = _ := ht.frames
      rw [hb]
      exact List.append_assoc _ _ _
    refine ⟨ordered_append hord ?_, ⟨_, hframes, heard_introduced hto rfl ht, fun f hf => ?_⟩, ?_⟩
    · have hc : c.ordinal = ordinal := ht.ordinal
      rw [hc, hto]
    · dsimp only
      rw [List.length_append, List.length_singleton]
      have hsource : f.source.toNat = cs'.length := by
        rcases List.mem_cons.mp hf with rfl | hf
        · exact hto
        · rw [ht.source f hf]
          exact hto
      omega
    · dsimp only
      rw [List.length_append, List.length_singleton]
      omega

/-- What a call that gives up has done: it spoke for the sources it knew or met, and gave up one
that it was meeting, if any. -/
def Broken (x x' : Polls) : Prop := ∃ y, Spoke x y ∧ Abandoned y x'

/-- The meetings of a call. -/
theorem runs_meets {opening : SourceRow → PublishM Poll Unit}
    (hopen : ∀ rec ordinal b, Prog.Keeps (opening rec) (.fresh ordinal rec, b)
      (Tells (Poll.introduced (.fresh ordinal rec, b) rec))) (recs : List SourceRow) :
    ∀ x : Polls, Ordered x.1 → Prog.Runs (fun _ _ => True) (Prog.forEach (meet opening) recs) x
      (fun _ x' => Spoke x x') fun _ x' => Broken x x' := by
  induction recs with
  | nil => exact fun x hord => .pure (.refl hord)
  | cons rec recs ih =>
      intro x hord
      refine Prog.Runs.bind ((runs_meet hord (hopen rec)).mono (fun _ _ h => h)
        fun _ x' h => ⟨x, .refl hord, h⟩) fun _ x₁ h₁ => ?_
      refine (ih x₁ h₁.ordered).mono (fun _ _ h => h₁.trans h) ?_
      rintro _ x' ⟨y, hspoke, habandoned⟩
      exact ⟨y, h₁.trans hspoke, habandoned⟩

/-- **The body of a `next`**, also where it gives up. -/
theorem runs_collect {now since : Int64} {cs : List SourceCursor} (hord : Ordered cs) :
    Prog.Runs (fun _ _ => True) (collect db now since) (cs, .empty)
      (fun _ x => Spoke (cs, .empty) x) fun _ x => Broken (cs, .empty) x := by
  have hask : ∀ {α : Type} {answer : α} {x : Polls}, Spoke (cs, .empty) x →
      Prog.Runs (fun _ _ => True) (ask answer : PublishM Polls α) x
        (fun a x' => a = answer ∧ x' = x) fun _ x' => Broken (cs, .empty) x' := by
    intro α answer x hx
    exact .read (fun _ h => ⟨(Except.ok.inj h).symm, rfl⟩) (fun _ h => absurd h (by simp))
      fun _ => ⟨x, hx, .refl x⟩
  have hopen : ∀ rec ordinal b, Prog.Keeps (do
      openSource db rec (some since) db.sealedWatermarks
      poll db) (.fresh ordinal rec, b) (Tells (Poll.introduced (.fresh ordinal rec, b) rec)) := by
    intro rec ordinal b
    refine Prog.Keeps.bind (admits_tells.openSource rec (some since) db.sealedWatermarks
      (fun name p => (adds_indexed db _ name p).tells)
      (fun p offset => (adds_openOffset _ p offset).tells) ⟨[], .refl _⟩) fun _ p' h' => ?_
    exact keeps_poll_tells h'
  unfold collect
  refine Prog.Runs.bind (hask (.refl hord)) ?_
  rintro _ _ ⟨rfl, rfl⟩
  refine Prog.Runs.bind ((runs_known now hord).mono (fun _ _ h => h)
    fun _ x h => ⟨x, h, .refl x⟩) fun _ x₁ h₁ => ?_
  refine Prog.Runs.bind (Q := fun s s' => s = x₁ ∧ s' = x₁) (.state ⟨rfl, rfl⟩) ?_
  rintro _ _ ⟨rfl, rfl⟩
  dsimp only
  split
  · refine Prog.Runs.bind (hask h₁) ?_
    rintro _ _ ⟨rfl, rfl⟩
    refine (runs_meets hopen _ _ h₁.ordered).mono (fun _ _ h => h₁.trans h) ?_
    rintro _ x' ⟨y, hspoke, habandoned⟩
    exact ⟨y, h₁.trans hspoke, habandoned⟩
  · exact .pure h₁

end

/-! ## What a call leaves -/

/-- A `next`, up to what it hands out. -/
def collectAll (db : Archive) (now since : Int64) : PublishM Polls Unit := do
  ask ()
  collect db now since

/-- The cursors and the frames that a `next` has when it ends, returned or not. -/
def collected (db : Archive) (now : Int64) (p : ArchivePublisher)
    (faults : List (Fault StorageFailure)) : Polls :=
  (collectAll db now p.since (p.sources, .empty) faults).2.1

/-- What it has said of the sources it has cursors of. -/
def spoken (x : Polls) : List Frame := x.2.frames.filter fun f => f.source.toNat < x.1.length

/-- What comes of a batch once its program has run. -/
def handOut : Outcome Error Unit × Polls × List (Fault StorageFailure) →
    Outcome Error (List Frame) × List SourceCursor × List (Fault StorageFailure)
  | (.ok _, x, fs) => (.ok x.2.frames, x.1, fs)
  | (.err e, x, fs) => (.err e, x.1, fs)
  | (.killed, x, fs) => (.killed, x.1, fs)

theorem collecting_eq (m : PublishM Polls Unit) (cs : List SourceCursor)
    (fs : List (Fault StorageFailure)) :
    collecting m cs fs = handOut ((do
      ask ()
      m) (cs, .empty) fs) := by
  have hbody : ∀ fs, (do
      let batch ← Prog.withValue Batch.empty (Prog.zoom Prod.swap (fun s _ => s.swap) m)
      return batch.frames : PublishM (List SourceCursor) (List Frame)) cs fs =
        handOut (m (cs, .empty) fs) := by
    intro fs
    rw [Prog.run_bind]
    unfold Prog.withValue Prog.zoom
    dsimp only [Prod.swap]
    rcases m (cs, .empty) fs with ⟨_ | e | -, ⟨cs', b'⟩, fs'⟩
    · rfl
    · rfl
    · rfl
  -- the snapshot opens, or nothing else is done
  rcases fs with _ | ⟨x | e | -, fs⟩
  · exact hbody []
  · exact hbody fs
  · rfl
  · rfl

section

variable {db : Archive} {now : Int64} {p p' : ArchivePublisher}
  {faults faults' : List (Fault StorageFailure)}

theorem spoken_of_spoke {x : Polls} {cs : List SourceCursor} (h : Spoke (cs, .empty) x) :
    spoken x = x.2.frames ∧ converse (voices cs) x.2.frames = some (voices x.1) := by
  obtain ⟨fs, hframes, hheard, hnamed⟩ := h.frames
  have hframes : x.2.frames = fs := hframes
  unfold spoken
  rw [hframes]
  refine ⟨List.filter_eq_self.mpr fun f hf => ?_, hheard⟩
  exact decide_eq_true (hnamed f hf)

/-- The frames of a source that was given up are not among what was said. -/
theorem spoken_of_broken {x : Polls} {cs : List SourceCursor} (h : Broken (cs, .empty) x) :
    converse (voices cs) (spoken x) = some (voices x.1) ∧ Ordered x.1 := by
  obtain ⟨y, hspoke, hcursors, rest, hframes, hrest⟩ := h
  obtain ⟨hall, hheard⟩ := spoken_of_spoke hspoke
  have hnone : rest.filter (fun f => f.source.toNat < y.1.length) = [] := by
    rw [List.filter_eq_nil_iff]
    intro f hf
    rw [hrest f hf]
    simp
  have hspoken : spoken x = y.2.frames := by
    unfold spoken at hall ⊢
    rw [hframes, hcursors, List.filter_append, hall, hnone, List.append_nil]
  rw [hspoken, hcursors]
  exact ⟨hheard, hspoke.ordered⟩

/-- **What a `next` leaves was said**, whether it was handed out or not. -/
theorem next_told {r : Outcome Error (List Frame)} (hord : Ordered p.sources)
    (h : ArchivePublisher.next db now p faults = (r, p', faults')) (hr : r ≠ .killed) :
    converse (voices p.sources) (spoken (collected db now p faults)) = some (voices p'.sources) ∧
      Ordered p'.sources ∧ ∀ frames, r = .ok frames → frames = spoken (collected db now p faults) := by
  have hruns : Prog.Runs (fun _ _ => True) (collectAll db now p.since) (p.sources, .empty)
      (fun _ x => Spoke (p.sources, .empty) x) fun _ x => Broken (p.sources, .empty) x := by
    unfold collectAll
    refine Prog.Runs.bind (Q := fun _ x => x = (p.sources, .empty))
      (.read (fun _ _ => rfl) (fun _ h => absurd h (by simp))
        fun _ => ⟨_, .refl hord, .refl _⟩) ?_
    rintro _ _ rfl
    exact runs_collect hord
  have hnext : ArchivePublisher.next db now p faults =
      ((collecting (collect db now p.since) p.sources faults).1,
        { p with sources := (collecting (collect db now p.since) p.sources faults).2.1 },
        (collecting (collect db now p.since) p.sources faults).2.2) := rfl
  rw [hnext, collecting_eq] at h
  obtain ⟨hout, hp, -⟩ := Prod.mk.inj h |>.imp_right Prod.mk.inj
  have hend := hruns faults
  unfold collected
  change (handOut (collectAll db now p.since (p.sources, .empty) faults)).1 = r at hout
  change { p with
    sources := (handOut (collectAll db now p.since (p.sources, .empty) faults)).2.1 } = p' at hp
  subst hout hp
  rcases hrun : collectAll db now p.since (p.sources, .empty) faults with ⟨_ | e | -, x, fs⟩ <;>
    rw [hrun] at hend hr
  · obtain ⟨hall, hheard⟩ := spoken_of_spoke hend.2
    rw [hall]
    exact ⟨hheard, hend.2.ordered, fun frames h => (Outcome.ok.inj h).symm⟩
  · obtain ⟨hheard, hordered⟩ := spoken_of_broken hend.2
    exact ⟨hheard, hordered, nofun⟩
  · exact absurd rfl hr

end

/-! ## Connections with calls that fail -/

/-- The calls of a connection, oldest first: what each said of the sources it left a cursor of, and
whether it handed that out; with the archive its last call read and what it remembers now. -/
inductive Called (since : Option Int64) :
    List (List Frame × Bool) → Archive → ArchivePublisher → Prop where
  | opened {db : Archive} {p : ArchivePublisher} {frames : List Frame}
      {faults faults' : List (Fault StorageFailure)} :
      ArchivePublisher.open_ db since (.unopened since) faults = (.ok frames, p, faults') →
      Called since [(frames, true)] db p
  | returned {calls : List (List Frame × Bool)} {db₀ db : Archive} {now : Int64}
      {p p' : ArchivePublisher} {frames : List Frame} {faults faults' : List (Fault StorageFailure)} :
      Called since calls db₀ p →
      ArchivePublisher.next db now p faults = (.ok frames, p', faults') →
      Called since (calls ++ [(frames, true)]) db p'
  | failed {calls : List (List Frame × Bool)} {db₀ db : Archive} {now : Int64}
      {p p' : ArchivePublisher} {e : Error} {faults faults' : List (Fault StorageFailure)} :
      Called since calls db₀ p →
      ArchivePublisher.next db now p faults = (.err e, p', faults') →
      Called since (calls ++ [(spoken (collected db now p faults), false)]) db p'

/-- **What all calls said is in turn**, and the cursors are the voices left. -/
theorem called_heard {since : Option Int64} {calls : List (List Frame × Bool)} {db : Archive}
    {p : ArchivePublisher} (h : Called since calls db p) :
    Ordered p.sources ∧ converse [] (calls.map (·.1)).flatten = some (voices p.sources) := by
  have hmore : ∀ {calls : List (List Frame × Bool)} {p p' : ArchivePublisher} {fs : List Frame}
      {b : Bool}, converse [] (calls.map (·.1)).flatten = some (voices p.sources) →
      converse (voices p.sources) fs = some (voices p'.sources) →
      converse [] ((calls ++ [(fs, b)]).map (·.1)).flatten = some (voices p'.sources) := by
    intro calls p p' fs b hbefore hcall
    rw [List.map_append, List.map_singleton, List.flatten_append, List.flatten_singleton]
    exact converse_append hbefore hcall
  induction h with
  | opened hopen =>
      obtain ⟨hcoll, -⟩ := open_ok hopen
      refine ⟨hcoll.ordered, ?_⟩
      rw [List.map_singleton, List.flatten_singleton]
      exact hcoll.heard
  | returned _ hnext ih =>
      obtain ⟨hheard, hordered, hframes⟩ := next_told ih.1 hnext (by simp)
      rw [← hframes _ rfl] at hheard
      exact ⟨hordered, hmore ih.2 hheard⟩
  | failed _ hnext ih =>
      obtain ⟨hheard, hordered, -⟩ := next_told ih.1 hnext (by simp)
      exact ⟨hordered, hmore ih.2 hheard⟩

/-- **A call that fails loses what it said.** Over any history of the publisher's archive and any
calls, of which any may fail anywhere, with every frame that was handed out delivered in order to a
subscriber whose storage does not fail: it answers as over a link that loses exactly the frames of
the calls that failed. Of a source whose handshake was handed out, no two of whose entries declare
one state and of which there are fewer than `2 ^ 64` `rows` frames, rows are written exactly if
neither the first nor the newest of the entries before them was said by a call that failed, and a
gap is reported exactly if the last `rows` frame before them was and an earlier one was not. A
source whose handshake was said by a call that failed is refused for good. -/
theorem failing_calls_answered {since : Option Int64} {calls : List (List Frame × Bool)}
    {db : Archive} {p : ArchivePublisher} (hp : Called since calls db p) (thread : WriterState)
    {flight : Flight}
    (hframes : flight.map (fun x => (x.1.frame, x.2)) =
      calls.flatMap fun c => c.1.map fun f => (f, c.2))
    (hfaults : ∀ x ∈ flight, x.1.faults = []) :
    (∀ (before after : Flight) (d : Delivery) (source : UInt32) (seq : UInt64) (state : IndexState)
        (rows : List WalRow), flight = before ++ (d, true) :: after →
      d.frame = .rows source seq state rows → Met source before →
      ((entriesInFlight source before).map (·.1)).Nodup →
      (rowsInFlight source before).length < 2 ^ 64 →
      ((Subscriber.new thread).deliverAll (passed before)).answer d =
        .ok (answerOf source before rows)) ∧
    ∀ x ∈ flight, x.2 = false → x.1.frame.isHandshake = true →
      ∀ (before after : Flight) (d : Delivery), flight = before ++ (d, true) :: after →
        d.frame.source = x.1.frame.source →
        ((Subscriber.new thread).deliverAll (passed before)).answer d =
          .err (unknownSource d.frame.source) := by
  have hall : flight.map (·.1.frame) = (calls.map (·.1)).flatten := by
    have hfirst := congrArg (List.map Prod.fst) hframes
    rw [List.map_map, List.map_flatMap] at hfirst
    have hcall : ∀ c : List Frame × Bool, (c.1.map fun f => (f, c.2)).map Prod.fst = c.1 := by
      intro c
      rw [List.map_map]
      exact List.map_id' _
    simp only [hcall] at hfirst
    rw [← List.flatMap_def]
    exact hfirst
  have hheard := (called_heard hp).2
  rw [← hall] at hheard
  refine ⟨?_, ?_⟩
  · intro before after d source seq state rows hsplit hd hmet hapart hcount
    subst hsplit
    exact answer_in_flight thread hheard hfaults hd hmet hapart hcount
  · intro x hx hlost hhand before after d hsplit hsource
    exact refused_in_flight thread hheard hfaults hx hlost hhand hsplit hsource

/-- A read that fails. -/
def unreadable : StorageFailure :=
  { context := "failed to query clock offsets", source := .sqliteFailure .systemIoFailure "disk I/O error" }

/-- The read of the clock offsets fails, after the entry has been read. -/
def offsetsFail : List (Fault StorageFailure) := [.none, .none, .none, .none, .fails unreadable]

/-- The publisher after that. -/
def afterFailure : ArchivePublisher := (ArchivePublisher.next withEntry 1 openedEmpty offsetsFail).2.1

/-- The entry is said by the call that fails. -/
def entryLost : Flight :=
  [(⟨.idle, .handshake 0 (some "u") ∅ ∅ 0 false, []⟩, true),
    (⟨.idle, .index 0 "cpu" 5 .full firstState [1], []⟩, false)]

/-- The rows of the call after it. -/
def rowsAfter : Delivery := ⟨.idle, .rows 0 0 firstState [⟨"cpu", 6, 0, [2]⟩], []⟩

theorem called_entryLost : ∃ p, Called none
    [([.handshake 0 (some "u") ∅ ∅ 0 false], true),
      (spoken (collected withEntry 1 openedEmpty offsetsFail), false),
      ([rowsAfter.frame], true)] withEntry p := by
  have hopened : Called none [([.handshake 0 (some "u") ∅ ∅ 0 false], true)] oneSource openedEmpty :=
    @Called.opened none _ _ _ [] []
      (Prod.ext (by decide +kernel) (Prod.ext rfl (by decide +kernel)))
  have hfailed := @Called.failed none _ oneSource withEntry 1 _ afterFailure
    (storageError unreadable) offsetsFail [] hopened
    (Prod.ext (by decide +kernel) (Prod.ext rfl (by decide +kernel)))
  exact ⟨_, @Called.returned none _ withEntry withEntry 2 _ (ArchivePublisher.next withEntry 2
    afterFailure []).2.1 [rowsAfter.frame] [] [] hfailed
    (Prod.ext (by decide +kernel) (Prod.ext rfl (by decide +kernel)))⟩

/-- Two sources, of which the second has nothing yet. -/
def besideEntry : Archive := withEntry.insertSource ⟨∅, ∅, 0⟩ "v"

/-- A publisher that was opened before either was there. -/
def openedNone : ArchivePublisher :=
  (ArchivePublisher.open_ (.create .table) none (.unopened none) []).2.1

/-- A read of the second source fails, after the first one has been met. -/
def secondFails : List (Fault StorageFailure) := List.replicate 14 .none ++ [.fails unreadable]

/-- The publisher after that. -/
def afterMeeting : ArchivePublisher :=
  (ArchivePublisher.next besideEntry 1 openedNone secondFails).2.1

/-- The handshake of the first, its entry and its rows are said by the call that fails. -/
def introductionLost : Flight :=
  [(⟨.idle, .handshake 0 (some "u") ∅ ∅ 0 false, []⟩, false),
    (⟨.idle, .index 0 "cpu" 5 .full firstState [1], []⟩, false),
    (⟨.idle, .rows 0 0 firstState [⟨"cpu", 6, 0, [2]⟩], []⟩, false)]

/-- Its rows of the call after it, of which there are none, and what that call says of the second. -/
def rowsUnknown : Delivery := ⟨.idle, .rows 0 1 firstState [], []⟩

def secondMet : Flight :=
  [(⟨.idle, .handshake 1 (some "v") ∅ ∅ 0 false, []⟩, true),
    (⟨.idle, .rows 1 0 NO_INDEX_STATE [], []⟩, true)]

theorem called_introductionLost : ∃ p, Called none
    [([], true), (spoken (collected besideEntry 1 openedNone secondFails), false),
      (rowsUnknown.frame :: secondMet.map (·.1.frame), true)] besideEntry p := by
  have hopened : Called none [([], true)] (.create .table) openedNone :=
    @Called.opened none _ _ _ [] []
      (Prod.ext (by decide +kernel) (Prod.ext rfl (by decide +kernel)))
  have hfailed := @Called.failed none _ (.create .table) besideEntry 1 _ afterMeeting
    (storageError unreadable) secondFails [] hopened
    (Prod.ext (by decide +kernel) (Prod.ext rfl (by decide +kernel)))
  have hframes : (ArchivePublisher.next besideEntry 2 afterMeeting []).1 =
      .ok (rowsUnknown.frame :: secondMet.map (·.1.frame)) := by decide +kernel
  have hrest : (ArchivePublisher.next besideEntry 2 afterMeeting []).2.2 = [] := by decide +kernel
  rcases hnext : ArchivePublisher.next besideEntry 2 afterMeeting [] with ⟨r, p, rest⟩
  rw [hnext] at hframes hrest
  obtain rfl : r = .ok (rowsUnknown.frame :: secondMet.map (·.1.frame)) := hframes
  obtain rfl : rest = [] := hrest
  exact ⟨p, hfailed.returned hnext⟩

/-- **A call that fails costs the rows of every call after it**, where it had said the first
entry, and every frame of the source, where it had said the handshake. -/
theorem failing_calls_answered_entryLost :
    ((Subscriber.new (.mk (World.create .table).disk (.seed (.create .table)))).deliverAll
        (passed entryLost)).answer rowsAfter = .ok { Applied.none with rows_skipped := 1 } ∧
      ((Subscriber.new (.mk (World.create .table).disk (.seed (.create .table)))).deliverAll
        (passed introductionLost)).answer rowsUnknown = .err (unknownSource 0) := by
  obtain ⟨p, hp⟩ := called_entryLost
  obtain ⟨p', hp'⟩ := called_introductionLost
  have hframes : (entryLost ++ [(rowsAfter, true)]).map (fun x => (x.1.frame, x.2)) =
      [([.handshake 0 (some "u") ∅ ∅ 0 false], true),
        (spoken (collected withEntry 1 openedEmpty offsetsFail), false),
        ([rowsAfter.frame], true)].flatMap fun c => c.1.map fun f => (f, c.2) := by decide +kernel
  have hframes' : (introductionLost ++ (rowsUnknown, true) :: secondMet).map
      (fun x => (x.1.frame, x.2)) = [([], true),
        (spoken (collected besideEntry 1 openedNone secondFails), false),
        (rowsUnknown.frame :: secondMet.map (·.1.frame), true)].flatMap
          fun c => c.1.map fun f => (f, c.2) := by decide +kernel
  have hanswered := (failing_calls_answered hp
    (.mk (World.create .table).disk (.seed (.create .table))) hframes (by decide)).1
  have hrefused := (failing_calls_answered hp'
    (.mk (World.create .table).disk (.seed (.create .table))) hframes' (by decide)).2
  exact ⟨hanswered entryLost [] rowsAfter 0 0 firstState _ rfl rfl
      ⟨_, List.mem_cons_self, rfl, rfl, rfl⟩ (by decide +kernel) (by decide),
    hrefused _ List.mem_cons_self rfl rfl introductionLost secondMet rowsUnknown rfl rfl⟩

end Dendro.Replicate
