import Dendro.Replicate.TailEntries
import Dendro.Replicate.TailOffsets

/-!
# The bound of a publisher

`catching_up` is given a timestamp from which on to ship. The bound is not kept by the polls: it
is what the cursors left by the opening make of it, and a cursor that the opening did not set
lets everything through. The bound therefore holds on every later poll, whatever is written,
evicted or fails in between, exactly if the opening found something at or after the bound wherever
it left something out.
-/

namespace Dendro.Replicate

open Dendro

/-! ## Sources and names that the bound cuts -/

/-- The bound leaves observations of the source out. -/
def CutsOffsets (db : Archive) (since : Int64) (id : Int) : Prop :=
  ∃ o ∈ db.readClockOffsets id, o.1 < since

/-- The bound leaves entries of the name out. -/
def CutsEntries (db : Archive) (since : Int64) (id : Int) (name : String) : Prop :=
  ∃ row ∈ db.callerRowsOf (streamKey id name), row.ts < since

/-- A cursor that lets nothing through below the bound, where the bound left something out. -/
structure Guarded (db : Archive) (since : Int64) (c : SourceCursor) : Prop where
  clock_after : CutsOffsets db since c.source_id → ∃ a, c.clock_after = some a ∧ since ≤ a
  index_after : ∀ name, CutsEntries db since c.source_id name →
    ∃ a n, c.indexAfter name = some (a, n) ∧ since ≤ a

/-- Nothing below the bound was shipped of a source, where the bound left something out. -/
structure Clear (db : Archive) (since : Int64) (id : Int) (os : List (Int64 × Int64))
    (rows : String → List CallerRow) : Prop where
  offsets : CutsOffsets db since id → ∀ o ∈ os, since ≤ o.1
  entries : ∀ name, CutsEntries db since id name → ∀ row ∈ rows name, since ≤ row.ts

theorem Clear.append {db : Archive} {since : Int64} {id : Int} {os os' : List (Int64 × Int64)}
    {rows rows' : String → List CallerRow} (h : Clear db since id os rows)
    (h' : Clear db since id os' rows') :
    Clear db since id (os ++ os') fun name => rows name ++ rows' name where
  offsets hcuts o ho := (List.mem_append.mp ho).elim (h.offsets hcuts o) (h'.offsets hcuts o)
  entries name hcuts row hrow :=
    (List.mem_append.mp hrow).elim (h.entries name hcuts row) (h'.entries name hcuts row)

theorem Clear.nil (db : Archive) (since : Int64) (id : Int) : Clear db since id [] fun _ => [] :=
  ⟨fun _ _ h => absurd h List.not_mem_nil, fun _ _ _ h => absurd h List.not_mem_nil⟩

section

variable (db₀ : Archive) (since : Int64) (cs₀ : List SourceCursor)

/-- A cursor of a source that was met at the opening still guards the bound. -/
def Fits (c : SourceCursor) : Prop :=
  ∀ c₀ ∈ cs₀, c₀.ordinal = c.ordinal → c.source_id = c₀.source_id ∧ Guarded db₀ since c

/-- Nothing below the bound is among some frames, of the sources met at the opening. -/
def ClearOf (fs : List Frame) : Prop :=
  ∀ c₀ ∈ cs₀, Clear db₀ since c₀.source_id (offsetsOf c₀.ordinal fs) fun name =>
    entriesOf c₀.ordinal name fs

/-- Both, while a source is polled. -/
def Bounded (p : Poll) : Prop := Fits db₀ since cs₀ p.1 ∧ ClearOf db₀ since cs₀ p.2.frames

end

section

variable {db₀ db : Archive} {since : Int64} {cs₀ : List SourceCursor} {p p' : Poll}
  {os : List (Int64 × Int64)} {rows : String → List CallerRow}

theorem Bounded.ships (hp : Bounded db₀ since cs₀ p) (h : Ships p p' os rows)
    (hclear : Guarded db₀ since p.1 → Clear db₀ since p.1.source_id os rows ∧ Guarded db₀ since p'.1) :
    Bounded db₀ since cs₀ p' := by
  refine ⟨fun c₀ hc₀ hordinal => ?_, fun c₀ hc₀ => ?_⟩
  · rw [h.ordinal] at hordinal
    obtain ⟨hid, hguarded⟩ := hp.1 c₀ hc₀ hordinal
    exact ⟨h.source_id.trans hid, (hclear hguarded).2⟩
  · have hbefore := hp.2 c₀ hc₀
    by_cases hordinal : c₀.ordinal = p.1.ordinal
    · obtain ⟨hid, hguarded⟩ := hp.1 c₀ hc₀ hordinal
      have hadded := (hclear hguarded).1
      have hentries : (fun name => entriesOf p.1.ordinal name p'.2.frames) = fun name =>
          entriesOf p.1.ordinal name p.2.frames ++ rows name := funext h.entries
      rw [hid] at hadded
      rw [hordinal] at hbefore ⊢
      rw [h.offsets, hentries]
      exact hbefore.append hadded
    · obtain ⟨hoffsets, hentries⟩ := h.others c₀.ordinal hordinal
      rw [hoffsets, funext hentries]
      exact hbefore

theorem Bounded.quiet (hp : Bounded db₀ since cs₀ p) (h : Quiet p p') : Bounded db₀ since cs₀ p' := by
  refine hp.ships h.ships fun hguarded => ⟨.nil _ _ _, ?_⟩
  refine ⟨fun hcuts => ?_, fun name hcuts => ?_⟩
  · rw [h.ships.source_id] at hcuts
    rw [h.clock_after]
    exact hguarded.clock_after hcuts
  · rw [h.ships.source_id] at hcuts
    rw [h.index_after]
    exact hguarded.index_after name hcuts

theorem Resume.mem_of_mem_unsent : ∀ {rows : List CallerRow} {r : Resume} {row : CallerRow},
    row ∈ r.unsent rows → row ∈ rows
  | [], _, _, h => absurd h List.not_mem_nil
  | s :: rows, r, row, h => by
      rw [Resume.unsent] at h
      split at h
      · exact List.mem_cons_of_mem s (Resume.mem_of_mem_unsent h)
      · rcases List.mem_cons.mp h with rfl | h
        · exact List.mem_cons_self
        · exact List.mem_cons_of_mem s (Resume.mem_of_mem_unsent h)

/-- The loop moves to timestamps it reads. -/
theorem Resume.position_ge {a : Int64} : ∀ {rows : List CallerRow} {r : Resume},
    (∀ row ∈ rows, a ≤ row.ts) → (∃ b n, r.position = some (b, n) ∧ a ≤ b) →
      ∃ b n, (rows.foldl Resume.pass r).position = some (b, n) ∧ a ≤ b
  | [], _, _, h => h
  | row :: rows, r, hrows, _ => by
      obtain ⟨hrow, hrows⟩ := List.forall_mem_cons.mp hrows
      rw [List.foldl_cons]
      exact Resume.position_ge hrows ⟨row.ts, _, r.position_pass row, hrow⟩

/-- What is read of a name past its position, and where it is moved, is not below it. -/
theorem reading_ge {c : SourceCursor} {name : String} {start a : Int64} {n : Nat}
    (h : c.indexAfter name = some (a, n)) : (∀ row ∈ c.unsentEntries db start name, a ≤ row.ts) ∧
      ∃ b m, c.movedAfter db start name = some (b, m) ∧ a ≤ b := by
  unfold SourceCursor.unsentEntries SourceCursor.movedAfter
  rw [reading_some h]
  have hrows : ∀ row ∈ readFrom (db.callerRowsOf (streamKey c.source_id name)) a, a ≤ row.ts :=
    fun row hrow => of_decide_eq_true (List.mem_filter.mp ((readFrom_perm _ a).mem_iff.mp hrow)).2
  exact ⟨fun row hrow => hrows row (Resume.mem_of_mem_unsent hrow),
    Resume.position_ge hrows ⟨a, 0, rfl, Int64.le_refl a⟩⟩

theorem Bounded.indexed (hp : Bounded db₀ since cs₀ p) {start : Int64} {names : List String}
    (h : Indexed db start names p p') : Bounded db₀ since cs₀ p' := by
  refine hp.ships h.ships fun hguarded => ⟨⟨fun _ _ ho => absurd ho List.not_mem_nil, ?_⟩, ?_, ?_⟩
  · intro name hcuts row hrow
    obtain ⟨a, n, hafter, hle⟩ := hguarded.index_after name hcuts
    split at hrow
    · exact Int64.le_trans hle ((reading_ge hafter).1 row hrow)
    · exact absurd hrow List.not_mem_nil
  · rw [h.ships.source_id, h.clock_after]
    exact hguarded.clock_after
  · intro name hcuts
    rw [h.ships.source_id] at hcuts
    obtain ⟨a, n, hafter, hle⟩ := hguarded.index_after name hcuts
    rw [h.index_after]
    split
    · obtain ⟨b, m, hmoved, hab⟩ := (@reading_ge db p.1 name start a n hafter).2
      exact ⟨b, m, hmoved, Int64.le_trans hle hab⟩
    · exact ⟨a, n, hafter, hle⟩

theorem Bounded.offset (hp : Bounded db₀ since cs₀ p) (o : Int64 × Int64) :
    Bounded db₀ since cs₀ (pushOffset p o) := by
  have h : ShipsOffsets p (pushOffset p o) (unsentOffsets p.1.clock_after [o]) :=
    shipsOffsets_poll [o] p (List.pairwise_singleton _ o)
  refine hp.ships h.ships fun hguarded => ?_
  have hpast : CutsOffsets db₀ since p.1.source_id →
      ∀ o' ∈ unsentOffsets p.1.clock_after [o], since ≤ o'.1 := by
    intro hcuts o' ho'
    obtain ⟨a, hafter, hle⟩ := hguarded.clock_after hcuts
    have hunsent := (List.mem_filter.mp ho').2
    rw [hafter, Option.any_some, Bool.not_eq_true', decide_eq_false_iff_not, Int64.not_le] at hunsent
    exact Int64.le_of_lt (Int64.lt_of_le_of_lt hle hunsent)
  refine ⟨⟨hpast, fun _ _ _ hrow => absurd hrow List.not_mem_nil⟩, fun hcuts => ?_, fun name hcuts => ?_⟩
  · rw [h.ships.source_id] at hcuts
    rw [h.clock_after, newestOffset]
    rcases hlast : (unsentOffsets p.1.clock_after [o]).getLast? with _ | o'
    · exact hguarded.clock_after hcuts
    · exact ⟨o'.1, rfl, hpast hcuts o' (List.mem_of_getLast? hlast)⟩
  · rw [h.ships.source_id] at hcuts
    rw [h.index_after]
    exact hguarded.index_after name hcuts

/-- Whatever a turn does, and wherever it stops, the bound is kept. -/
theorem admits_bounded : Admits fun p p' => Bounded db₀ since cs₀ p → Bounded db₀ since cs₀ p' where
  refl _ h := h
  trans h h' hp := h' (h hp)
  enter stream p hp := hp.quiet (admits_quiet.enter stream p)
  advance stream wal_after p hp := hp.quiet (admits_quiet.advance stream wal_after p)
  segments stream segments p hp := hp.quiet (admits_quiet.segments stream segments p)

theorem keeps_poll (hp : Bounded db₀ since cs₀ p) : Prog.Keeps (poll db) p (Bounded db₀ since cs₀) := by
  have hturn : Prog.Keeps (poll db) p fun p' =>
      Bounded db₀ since cs₀ p → Bounded db₀ since cs₀ p' :=
    admits_bounded.poll (fun name p hp => hp.indexed (indexed_indexed db Int64.minValue name p))
      (fun p o hp => hp.offset o) (fun rows p hp => hp.quiet (quiet_pushRows rows p)) fun hp => hp
  exact hturn.mono fun _ _ h => h hp

theorem keeps_pollKnown (now : Int64) (records : List SourceRow) (hp : Bounded db₀ since cs₀ p) :
    Prog.Keeps (pollKnown db now records) p (Bounded db₀ since cs₀) := by
  unfold pollKnown
  refine .state_bind ?_
  obtain ⟨c, b⟩ := p
  dsimp only
  split
  · rename_i rec _
    exact Prog.Keeps.bind ((keeps_updateIdentity now rec).mono fun _ _ h => hp.quiet h)
      fun _ _ hp' => keeps_poll hp'
  · exact keeps_poll hp

/-! ## Whole calls -/

/-- What a call leaves of its cursors and of its batch. -/
structure BoundedCall (db₀ : Archive) (since : Int64) (cs₀ : List SourceCursor) (x : Polls) : Prop where
  fits : ∀ c ∈ x.1, Fits db₀ since cs₀ c
  clear : ClearOf db₀ since cs₀ x.2.frames
  length : cs₀.length ≤ x.1.length

/-- A part of a call that ships of one source only. -/
def Own (p p' : Poll) : Prop :=
  p'.1.ordinal = p.1.ordinal ∧ ∀ o, o ≠ p.1.ordinal →
    offsetsOf o p'.2.frames = offsetsOf o p.2.frames ∧
      ∀ name, entriesOf o name p'.2.frames = entriesOf o name p.2.frames

theorem Ships.own (h : Ships p p' os rows) : Own p p' := ⟨h.ordinal, h.others⟩

theorem admits_own : Admits Own where
  refl p := (Ships.refl p).own
  trans := by
    rintro p p' p'' ⟨hordinal, hothers⟩ ⟨hordinal', hothers'⟩
    refine ⟨hordinal'.trans hordinal, fun o ho => ?_⟩
    obtain ⟨hoffsets, hentries⟩ := hothers o ho
    obtain ⟨hoffsets', hentries'⟩ := hothers' o (by rwa [hordinal])
    exact ⟨hoffsets'.trans hoffsets, fun name => (hentries' name).trans (hentries name)⟩
  enter stream p := (admits_quiet.enter stream p).ships.own
  advance stream wal_after p := (admits_quiet.advance stream wal_after p).ships.own
  segments stream segments p := (admits_quiet.segments stream segments p).ships.own

/-- Meeting a source, wherever it stops. -/
theorem keeps_openSource_poll (rec : SourceRow) (p : Poll) :
    Prog.Keeps (do
      openSource db rec (some since) db.sealedWatermarks
      poll db) p (Own p) := by
  refine Prog.Keeps.bind (admits_own.openSource rec (some since) _
    (fun name p => (indexed_indexed db since name p).ships.own)
    (fun p o => (shipsOffsets_open since [o] p).ships.own) (quiet_introduced rec p).ships.own) ?_
  intro _ p₁ h₁
  exact admits_own.poll (fun name p => (indexed_indexed db Int64.minValue name p).ships.own)
    (fun p o => (shipsOffsets_poll [o] p (List.pairwise_singleton _ o)).ships.own)
    (fun rows p => (quiet_pushRows rows p).ships.own) h₁

theorem keeps_meet (hlt : ∀ c₀ ∈ cs₀, c₀.ordinal.toNat < cs₀.length) (rec : SourceRow) {x : Polls}
    (hx : BoundedCall db₀ since cs₀ x) : Prog.Keeps (meet (fun rec => do
      openSource db rec (some since) db.sealedWatermarks
      poll db) rec) x (BoundedCall db₀ since cs₀) := by
  unfold meet
  refine .state_bind ?_
  obtain ⟨cs, b⟩ := x
  dsimp only
  refine Prog.Ends.bind (P := fun r x => x = (cs, b) ∧ ∀ o, r = .ok o → nextOrdinal cs.length = .ok o)
    (.lift (fun o ho => ⟨rfl, fun o' h => ?_⟩) fun e _ => ⟨rfl, nofun⟩) ?_
    (fun e x h => h.1 ▸ hx) fun x h => h.1 ▸ hx
  · rw [ho, Outcome.ok.inj h]
  rintro ordinal _ ⟨rfl, hordinal⟩
  have hto := nextOrdinal_ok (hordinal ordinal rfl)
  -- no source met at the opening has this ordinal
  have hne : ∀ c₀ ∈ cs₀, c₀.ordinal ≠ ordinal := by
    rintro c₀ hc₀ rfl
    have h := hlt c₀ hc₀
    rw [hto] at h
    exact Nat.lt_irrefl _ (Nat.lt_of_lt_of_le h hx.length)
  have hclear : ∀ c' b', Own (.fresh ordinal rec, b) (c', b') → ClearOf db₀ since cs₀ b'.frames := by
    intro c' b' hown c₀ hc₀
    obtain ⟨hoffsets, hentries⟩ := hown.2 c₀.ordinal (hne c₀ hc₀)
    rw [hoffsets, funext hentries]
    exact hx.clear c₀ hc₀
  refine Prog.Ends.bind (P := fun r x => x.1 = cs ∧ ClearOf db₀ since cs₀ x.2.frames ∧
      ∀ c, r = .ok c → c.ordinal = ordinal) ?_ ?_ ?_ ?_
  · refine .zoom (P := fun r b' => ClearOf db₀ since cs₀ b'.frames ∧ ∀ c, r = .ok c → c.ordinal = ordinal)
      ?_ fun _ _ h => ⟨rfl, h⟩
    refine .withValue (keeps_openSource_poll rec (.fresh ordinal rec, b)) ?_ ?_ ?_
    · rintro _ ⟨c', b'⟩ hown
      exact ⟨hclear c' b' hown, fun c hc => Outcome.ok.inj hc ▸ hown.1⟩
    · rintro e ⟨c', b'⟩ hown
      exact ⟨hclear c' b' hown, nofun⟩
    · rintro ⟨c', b'⟩ hown
      exact ⟨hclear c' b' hown, nofun⟩
  · rintro c ⟨cs', b'⟩ ⟨hcs, hclear', hc⟩
    obtain rfl : cs' = cs := hcs
    refine Prog.Keeps.update ⟨fun d hd => ?_, hclear', ?_⟩
    · rcases List.mem_append.mp hd with hd | hd
      · exact hx.fits d hd
      · obtain rfl := List.mem_singleton.mp hd
        exact fun c₀ hc₀ heq => absurd (heq.trans (hc d rfl)) (hne c₀ hc₀)
    · exact Nat.le_trans hx.length (by simp)
  · rintro e ⟨cs', b'⟩ ⟨hcs, hclear', -⟩
    obtain rfl : cs' = cs := hcs
    exact ⟨hx.fits, hclear', hx.length⟩
  · rintro ⟨cs', b'⟩ ⟨hcs, hclear', -⟩
    obtain rfl : cs' = cs := hcs
    exact ⟨hx.fits, hclear', hx.length⟩

/-- **A `next` keeps the bound, wherever it stops.** -/
theorem keeps_collect (hlt : ∀ c₀ ∈ cs₀, c₀.ordinal.toNat < cs₀.length) (now : Int64) {x : Polls}
    (hx : BoundedCall db₀ since cs₀ x) :
    Prog.Keeps (collect db now since) x (BoundedCall db₀ since cs₀) := by
  unfold collect
  refine keeps_ask hx ?_
  obtain ⟨cs, b⟩ := x
  refine Prog.Keeps.bind (Prog.Ends.mono (Prog.Keeps.onEach (I := Fits db₀ since cs₀)
    (J := fun b => ClearOf db₀ since cs₀ b.frames) (fun c b hc hb => keeps_pollKnown now _ ⟨hc, hb⟩)
    cs b hx.fits hx.clear) fun _ x h => ⟨h.1, h.2.1, h.2.2 ▸ hx.length⟩) ?_
  rintro _ x₁ hx₁
  refine .state_bind ?_
  dsimp only
  split
  · exact keeps_ask hx₁ (.forEach (fun rec _ _ h => keeps_meet hlt rec h) hx₁)
  · exact fun _ => hx₁

/-- What a `next` leaves, and what it hands out if it succeeds. -/
theorem next_bounded (hlt : ∀ c₀ ∈ cs₀, c₀.ordinal.toNat < cs₀.length) {pub : ArchivePublisher}
    (hsince : pub.since = since) (hfits : ∀ c ∈ pub.sources, Fits db₀ since cs₀ c)
    (hlength : cs₀.length ≤ pub.sources.length) (now : Int64) :
    Prog.Ends (ArchivePublisher.next db now) pub fun r pub' => pub'.since = since ∧
      (∀ c ∈ pub'.sources, Fits db₀ since cs₀ c) ∧ cs₀.length ≤ pub'.sources.length ∧
      ∀ frames, r = .ok frames → ClearOf db₀ since cs₀ frames := by
  unfold ArchivePublisher.next
  refine .state_bind ?_
  dsimp only
  rw [hsince]
  refine .zoom (P := fun r cs => (∀ c ∈ cs, Fits db₀ since cs₀ c) ∧ cs₀.length ≤ cs.length ∧
    ∀ frames, r = .ok frames → ClearOf db₀ since cs₀ frames) ?_ fun r cs h => ⟨hsince, h⟩
  have hempty : BoundedCall db₀ since cs₀ (pub.sources, .empty) :=
    ⟨hfits, fun c₀ _ => .nil db₀ since c₀.source_id, hlength⟩
  unfold collecting
  refine Prog.Ends.bind (P := fun _ cs => cs = pub.sources) (.read (fun _ _ => rfl) (fun _ => rfl) rfl) ?_
    (fun e cs h => h ▸ ⟨hfits, hlength, nofun⟩) fun cs h => h ▸ ⟨hfits, hlength, nofun⟩
  rintro _ _ rfl
  refine Prog.Ends.bind (P := fun r cs => (∀ c ∈ cs, Fits db₀ since cs₀ c) ∧ cs₀.length ≤ cs.length ∧
    ∀ batch, r = .ok batch → ClearOf db₀ since cs₀ batch.frames) ?_ ?_
    (fun e cs h => ⟨h.1, h.2.1, nofun⟩) fun cs h => ⟨h.1, h.2.1, nofun⟩
  · refine .withValue (P := fun _ x => BoundedCall db₀ since cs₀ x.swap) ?_ ?_ ?_ ?_
    · exact .zoom (keeps_collect hlt now hempty) fun _ x h => h
    · exact fun _ x h => ⟨h.fits, h.length, fun batch hbatch => Outcome.ok.inj hbatch ▸ h.clear⟩
    · exact fun _ x h => ⟨h.fits, h.length, nofun⟩
    · exact fun x h => ⟨h.fits, h.length, nofun⟩
  · rintro batch cs ⟨hfits', hlength', hclear⟩
    exact .pure ⟨hfits', hlength', fun frames h => Outcome.ok.inj h ▸ hclear batch rfl⟩

end

/-! ## Runs -/

/-- Nothing that was in the archive when it was opened, below the bound, is among some frames. -/
def SinceHolds (t₀ : Tailer) (since : Int64) (sent : List Frame) : Prop :=
  ∀ c ∈ t₀.pub.sources,
    (∀ o ∈ t₀.db.readClockOffsets c.source_id, o.1 < since → o ∉ offsetsOf c.ordinal sent) ∧
    ∀ name, ∀ row ∈ t₀.db.callerRowsOf (streamKey c.source_id name), row.ts < since →
      row ∉ entriesOf c.ordinal name sent

/-- Wherever the bound leaves something out, something is at or after it. -/
def SinceReached (db : Archive) (since : Int64) : Prop :=
  ∀ id ∈ db.sources.keys,
    ((∃ o ∈ db.readClockOffsets id, o.1 < since) → ∃ o ∈ db.readClockOffsets id, since ≤ o.1) ∧
    ∀ name ∈ db.callerRowStreams id,
      (∃ row ∈ db.callerRowsOf (streamKey id name), row.ts < since) →
        ∃ row ∈ db.callerRowsOf (streamKey id name), since ≤ row.ts

instance (db : Archive) (since : Int64) : Decidable (SinceReached db since) :=
  have _offset (id : Int) (p : Int64 × Int64 → Prop) [DecidablePred p] :
      Decidable (∃ o ∈ db.readClockOffsets id, p o) := List.decidableBEx p _
  inferInstanceAs (Decidable (∀ id ∈ db.sources.keys,
    ((∃ o ∈ db.readClockOffsets id, o.1 < since) → ∃ o ∈ db.readClockOffsets id, since ≤ o.1) ∧
    ∀ name ∈ db.callerRowStreams id,
      (∃ row ∈ db.callerRowsOf (streamKey id name), row.ts < since) →
        ∃ row ∈ db.callerRowsOf (streamKey id name), since ≤ row.ts))

section

variable {db : Archive} {since : Int64} {c : SourceCursor} {os : List (Int64 × Int64)}
  {rows : String → List CallerRow}

/-- What an opening ships of a name, and where it leaves it. -/
theorem Opened.entries (h : Opened db since c os rows) (name : String) :
    rows name = readFrom (db.callerRowsOf (streamKey c.source_id name)) since ∧
      Newest (rows name) (c.indexAfter name) := by
  obtain ⟨rec, ordinal, hmoved, -, rfl⟩ := h
  have hreading := @reading_none db (.fresh ordinal rec) name rfl since
  have hid : c.source_id = rec.id := hmoved.source_id
  have hrows : (SourceCursor.fresh ordinal rec).unsentEntries db since name =
      readFrom (db.callerRowsOf (streamKey rec.id name)) since := by
    unfold SourceCursor.unsentEntries
    rw [hreading]
    exact Resume.unsent_of_skip rfl
  refine ⟨by rw [hid]; exact hrows, ?_⟩
  dsimp only
  rw [hrows, hmoved.index_after]
  split
  · unfold SourceCursor.movedAfter
    rw [hreading]
    exact Resume.newest_foldl_pass rfl (readFrom_sorted _ since) fun _ => rfl
  · rename_i hnot
    have hnil := callerRowsOf_of_not_mem hnot
    rw [show (SourceCursor.fresh ordinal rec).source_id = rec.id from rfl] at hnil
    rw [hnil]
    exact .nothing rfl

theorem Opened.offsets (h : Opened db since c os rows) :
    os = (db.readClockOffsets c.source_id).filter (fun o => since ≤ o.1) ∧
      c.clock_after = newestOffset none os := by
  obtain ⟨rec, ordinal, hmoved, hos, -⟩ := h
  have hid : c.source_id = rec.id := hmoved.source_id
  exact ⟨by rw [hid]; exact hos, hmoved.clock_after⟩

/-- An opening ships nothing below its bound. -/
theorem Opened.clear (h : Opened db since c os rows) : Clear db since c.source_id os rows where
  offsets _ o ho := by
    rw [h.offsets.1] at ho
    exact of_decide_eq_true (List.mem_filter.mp ho).2
  entries name _ row hrow := by
    rw [(h.entries name).1] at hrow
    exact of_decide_eq_true (List.mem_filter.mp ((readFrom_perm _ since).mem_iff.mp hrow)).2

/-- **An opening leaves cursors that guard its bound, where something is at or after it.** -/
theorem Opened.guarded (h : Opened db since c os rows) (hreached : SinceReached db since)
    (hid : c.source_id ∈ db.sources.keys) : Guarded db since c := by
  obtain ⟨hoffsets, hentries⟩ := hreached c.source_id hid
  refine ⟨fun hcuts => ?_, fun name hcuts => ?_⟩
  · obtain ⟨o, ho, hle⟩ := hoffsets hcuts
    have hmem : o ∈ os := by
      rw [h.offsets.1]
      exact List.mem_filter.mpr ⟨ho, decide_eq_true hle⟩
    rw [h.offsets.2, newestOffset]
    rcases hlast : os.getLast? with _ | last
    · rw [List.getLast?_eq_none_iff.mp hlast] at hmem
      exact absurd hmem List.not_mem_nil
    · exact ⟨last.1, rfl, h.clear.offsets hcuts last (List.mem_of_getLast? hlast)⟩
  · have hname : name ∈ db.callerRowStreams c.source_id := by
      obtain ⟨row, hrow, -⟩ := hcuts
      exact mem_callerRowStreams.mpr ⟨row, mem_callerRowsOf.mp hrow⟩
    obtain ⟨row, hrow, hle⟩ := hentries name hname hcuts
    obtain ⟨hrows, hnewest⟩ := h.entries name
    have hmem : row ∈ rows name := by
      rw [hrows]
      exact (readFrom_perm _ since).mem_iff.mpr (List.mem_filter.mpr ⟨hrow, decide_eq_true hle⟩)
    generalize hat : c.indexAfter name = at_ at hnewest
    cases hnewest with
    | nothing hnil =>
        rw [hnil] at hmem
        exact absurd hmem List.not_mem_nil
    | @reached ts hts _ =>
        obtain ⟨newest, hnewest, rfl⟩ := hts
        exact ⟨_, _, rfl, h.clear.entries name hcuts newest hnewest⟩

end

/-- What holds between the events of a run. -/
structure BoundedTailer (t₀ : Tailer) (since : Int64) (t : Tailer) : Prop where
  starts : t.pub.since = since
  fits : ∀ c ∈ t.pub.sources, Fits t₀.db since t₀.pub.sources c
  length : t₀.pub.sources.length ≤ t.pub.sources.length
  clear : ClearOf t₀.db since t₀.pub.sources t.sent

section

variable {t₀ t : Tailer} {since : Int64}

theorem ordered_unique {cs : List SourceCursor} (h : Ordered cs) {c c' : SourceCursor} (hc : c ∈ cs)
    (hc' : c' ∈ cs) (hordinal : c.ordinal = c'.ordinal) : c = c' :=
  List.inj_on_of_nodup_map (ordered_nodup h) hc hc' hordinal

/-- What an opening was, source by source. -/
theorem Tailer.Opened.ledger (h : t.Opened since) : Ordered t.pub.sources ∧ t.pub.since = since ∧
    sourceIds t.pub.sources = t.db.sources.keys ∧
      Ledger (Replicate.Opened t.db since) t.pub.sources t.sent := by
  obtain ⟨faults, faults', hopen, -⟩ := h
  obtain ⟨hemitted, hids⟩ := open_ok hopen
  obtain ⟨hledger, hsince⟩ := open_ledger hopen
  rw [map_readSources] at hids
  exact ⟨hemitted.ordered, hsince, hids, hledger⟩

theorem boundedTailer_opened (h : t.Opened since) (hreached : SinceReached t.db since) :
    BoundedTailer t since t := by
  obtain ⟨hordered, hsince, hids, hledger⟩ := h.ledger
  refine ⟨hsince, fun c hc c₀ hc₀ hordinal => ?_, Nat.le_refl _, fun c hc => (hledger.known c hc).clear⟩
  obtain rfl := ordered_unique hordered hc₀ hc hordinal
  refine ⟨rfl, (hledger.known c₀ hc).guarded hreached ?_⟩
  rw [← hids]
  exact List.mem_map_of_mem hc

/-- One event: a transaction of any kind, or a `next` that may fail anywhere. -/
theorem BoundedTailer.step (hlt : ∀ c₀ ∈ t₀.pub.sources, c₀.ordinal.toNat < t₀.pub.sources.length)
    (h : BoundedTailer t₀ since t) (e : TailEvent) : BoundedTailer t₀ since (t.step e) := by
  cases e with
  | write w =>
      unfold Tailer.step
      dsimp only
      split
      · exact ⟨h.starts, h.fits, h.length, h.clear⟩
      · exact h
  | poll now faults =>
      have hnext := @next_bounded t₀.db t.db since t₀.pub.sources hlt t.pub h.starts h.fits h.length now faults
      simp only [Tailer.step]
      rcases hr : ArchivePublisher.next t.db now t.pub faults with ⟨frames | e | -, pub, faults'⟩
      all_goals
        rw [hr] at hnext
        obtain ⟨hsince, hfits, hlength, hclear⟩ := hnext
      · refine ⟨hsince, hfits, hlength, fun c₀ hc₀ => ?_⟩
        have hboth := (h.clear c₀ hc₀).append (hclear frames rfl c₀ hc₀)
        have hentries : (fun name => entriesOf c₀.ordinal name (t.sent ++ frames)) = fun name =>
            entriesOf c₀.ordinal name t.sent ++ entriesOf c₀.ordinal name frames :=
          funext fun name => entriesOf_append c₀.ordinal name t.sent frames
        rw [offsetsOf_append, hentries]
        exact hboth
      · exact ⟨hsince, hfits, hlength, h.clear⟩
      · exact ⟨hsince, hfits, hlength, h.clear⟩

theorem BoundedTailer.run (hlt : ∀ c₀ ∈ t₀.pub.sources, c₀.ordinal.toNat < t₀.pub.sources.length) :
    ∀ (es : List TailEvent) {t : Tailer}, BoundedTailer t₀ since t →
      BoundedTailer t₀ since (es.foldl Tailer.step t)
  | [], _, h => h
  | e :: es, _, h => BoundedTailer.run hlt es (h.step hlt e)

theorem BoundedTailer.holds (h : BoundedTailer t₀ since t) : SinceHolds t₀ since t.sent := by
  intro c hc
  have hclear := h.clear c hc
  refine ⟨fun o ho hlt hsent => ?_, fun name row hrow hlt hsent => ?_⟩
  · exact Int64.not_le.mpr hlt (hclear.offsets ⟨o, ho, hlt⟩ o hsent)
  · exact Int64.not_le.mpr hlt (hclear.entries name ⟨row, hrow, hlt⟩ row hsent)

/-- Where nothing is at or after the bound, the first `next` ships what is below it. -/
theorem sinceReached_of_next (h : t.Opened since) {now : Int64} {faults : List (Fault StorageFailure)}
    (hok : (ArchivePublisher.next t.db now t.pub faults).1.isOk)
    (hholds : SinceHolds t since (t.step (.poll now faults)).sent) : SinceReached t.db since := by
  obtain ⟨hordered, hsince, hids, hledger⟩ := h.ledger
  obtain ⟨frames, pub, faults', hnext, hstep⟩ := Tailer.step_poll hok
  rw [hstep] at hholds
  have hknown := hledger.mono (G := fun c os rows =>
    c ∈ t.pub.sources ∧ Replicate.Opened t.db since c os rows) fun c hc _ _ h => ⟨hc, h⟩
  obtain ⟨hledger', -⟩ := next_ledger hordered hknown hnext
  have hnodup : (sourceIds t.pub.sources).Nodup := by
    rw [hids]
    exact t.db.sources.keys_nodup
  obtain ⟨-, -, hids'⟩ := sourceIds_next hordered hnodup (fun id hid => hids ▸ hid) hnext
  intro id hid
  obtain ⟨c', hc', hcid⟩ := mem_sourceIds.mp ((hids' id).mpr hid)
  rcases hledger'.known c' hc' with ⟨c, os, rows, ⟨hc, hopened⟩, hmoved, hos, hrows⟩ | ⟨hnew, -⟩
  · obtain ⟨hoffsets, hentries⟩ := hholds c hc
    obtain rfl : c.source_id = id := hmoved.source_id.symm.trans hcid
    rw [← hmoved.ordinal] at hoffsets hentries
    refine ⟨?_, fun name _ => ?_⟩
    · rintro ⟨o, ho, hlt⟩
      by_contra hnone
      push Not at hnone
      have hnil : os = [] := by
        rw [hopened.offsets.1]
        exact List.filter_eq_nil_iff.mpr fun o' ho' => by simpa using hnone o' ho'
      have hafter : c.clock_after = none := by rw [hopened.offsets.2, hnil]; rfl
      have hunsent : o ∈ c.unsentOffsets t.db := by
        unfold SourceCursor.unsentOffsets unsentOffsets
        rw [hafter]
        exact List.mem_filter.mpr ⟨ho, rfl⟩
      refine hoffsets o ho hlt ?_
      rw [hos]
      exact List.mem_append_right os hunsent
    · rintro ⟨row, hrow, hlt⟩
      by_contra hnone
      push Not at hnone
      obtain ⟨hread, hnewest⟩ := hopened.entries name
      have hnil : rows name = [] := by
        rw [hread]
        refine List.eq_nil_iff_forall_not_mem.mpr fun row' hrow' => ?_
        obtain ⟨hmem, hle⟩ := List.mem_filter.mp ((readFrom_perm _ since).mem_iff.mp hrow')
        exact Int64.not_le.mpr (hnone row' hmem) (of_decide_eq_true hle)
      rw [hnil] at hnewest
      have hafter : c.indexAfter name = none := by
        generalize c.indexAfter name = at_ at hnewest
        cases hnewest with
        | nothing => rfl
        | reached hmem _ =>
            obtain ⟨r, hr, -⟩ := hmem
            exact absurd hr List.not_mem_nil
      have hunsent : row ∈ c.unsentEntries t.db Int64.minValue name := by
        unfold SourceCursor.unsentEntries
        rw [reading_none hafter, Resume.unsent_of_skip rfl]
        exact (readFrom_perm _ _).mem_iff.mpr
          (List.mem_filter.mpr ⟨hrow, decide_eq_true (Int64.minValue_le row.ts)⟩)
      refine hentries name row hrow hlt ?_
      have hsent := congrFun hrows name
      rw [hsent]
      exact List.mem_append_right _ hunsent
  · rw [hcid, hids] at hnew
    exact absurd hid hnew

/-- **The bound holds on every later poll, whatever happens in between, if wherever it leaves
something out something is at or after it; and if the first `next` keeps it, that is so.** -/
theorem since_holds_iff (h : t.Opened since) :
    (SinceReached t.db since → ∀ es : List TailEvent,
      SinceHolds t since (es.foldl Tailer.step t).sent) ∧
    ∀ now faults, (ArchivePublisher.next t.db now t.pub faults).1.isOk →
      SinceHolds t since (t.step (.poll now faults)).sent → SinceReached t.db since := by
  refine ⟨fun hreached es => ?_, fun now faults hok hholds => sinceReached_of_next h hok hholds⟩
  have hlt := ordered_lt h.ledger.1
  exact ((boundedTailer_opened h hreached).run hlt es).holds

end

/-- A source with an observation and an entry on each side of 10. -/
def bothSides : Archive :=
  { oneSource with
    clock_offsets := OrdMap.ofList [(toLex (1, 5), 1), (toLex (1, 15), 1)]
    caller_rows := [(streamKey 1 "cpu", ⟨5, [1]⟩), (streamKey 1 "cpu", ⟨15, [2]⟩)] }

theorem since_holds_iff_bothSides :
    (SinceReached (Tailer.catchUp 10 bothSides).db 10 → ∀ es : List TailEvent,
      SinceHolds (.catchUp 10 bothSides) 10 (es.foldl Tailer.step (.catchUp 10 bothSides)).sent) ∧
    ∀ now faults, (ArchivePublisher.next (Tailer.catchUp 10 bothSides).db now
        (Tailer.catchUp 10 bothSides).pub faults).1.isOk →
      SinceHolds (.catchUp 10 bothSides) 10
        ((Tailer.catchUp 10 bothSides).step (.poll now faults)).sent →
          SinceReached (Tailer.catchUp 10 bothSides).db 10 :=
  since_holds_iff (Tailer.opened_catchUp (by decide))

/-- A source that only has an observation before 10. -/
def quietSince : Archive :=
  { oneSource with clock_offsets := OrdMap.ofList [(toLex (1, 5), 1)] }

/-- **The first poll ships an observation below the bound**, if the source has none at or after
it. -/
theorem since_bound_lost : (Tailer.catchUp 10 quietSince).Opened 10 ∧
    ¬ SinceHolds (.catchUp 10 quietSince) 10
      ((Tailer.catchUp 10 quietSince).step (.poll 0 [])).sent := by
  refine ⟨Tailer.opened_catchUp (by decide), fun h => ?_⟩
  have hone : ∃ c ∈ (Tailer.catchUp 10 quietSince).pub.sources, c.source_id = 1 ∧
      ((5, 1) : Int64 × Int64) ∈ (Tailer.catchUp 10 quietSince).db.readClockOffsets 1 ∧
      (5, 1) ∈ offsetsOf c.ordinal ((Tailer.catchUp 10 quietSince).step (.poll 0 [])).sent := by
    decide
  obtain ⟨c, hc, hid, hstored, hsent⟩ := hone
  exact (h c hc).1 (5, 1) (hid ▸ hstored) (by decide) hsent

end Dendro.Replicate
