import Dendro.Archive.Growth
import Dendro.Lib.Along
import Dendro.Lib.Deltas
import Dendro.Writer.Retention

/-!
# The chain behind every row

A caller whose index is a log of deltas gives each retention pass a floor: the time of its latest
full entry at or before the oldest row that is left. A reader of a row then takes the latest full
entry at or before it and replays what came after.

`chains_kept` is that this chain is there for every row that is: whatever was appended, sealed and
evicted, as long as each append to a name was at or after those before it. What a pass takes is a
prefix of the name's entries, and if a full entry was among them, one that is left stands at or
before every row (`Disk.Chained`). That is what the oldest row has to be computed for, after the
deletes of the same pass and from the segments that straddle its cutoff.
-/

namespace Dendro

open Archive Relation

/-! ## What was appended to a name -/

/-- The caller's rows that a transaction appends under a name. -/
def Write.callerRowsFor (k : StreamKey) (w : Write) : List CallerRow :=
  (w.callerAppended.filter fun e => e.1 = k).map Prod.snd

/-- The times of what a transaction appends under a name, rows and caller's rows. -/
def Write.appendTimes (k : StreamKey) : Write → List Int64
  | .walRows ticks => (tickRows ticks k).map (·.ts)
  | w => (w.callerRowsFor k).map (·.ts)

/-- Every caller's row that was appended under a name, in order. -/
def Disk.callerHistory (d : Disk) (k : StreamKey) : List CallerRow :=
  d.log.flatMap fun e => e.2.callerRowsFor k

/-- The times of all that was appended under a name, in order. -/
def Disk.appendTimes (d : Disk) (k : StreamKey) : List Int64 :=
  d.log.flatMap fun e => e.2.appendTimes k

/-- Every append to a name was at or after those before it. -/
def Disk.InOrder (d : Disk) (k : StreamKey) : Prop := (d.appendTimes k).Pairwise (· ≤ ·)

instance (d : Disk) (k : StreamKey) : Decidable (d.InOrder k) :=
  inferInstanceAs (Decidable ((d.appendTimes k).Pairwise (· ≤ ·)))

theorem sublist_appendTimes (k : StreamKey) (w : Write) :
    ((w.callerRowsFor k).map (·.ts)).Sublist (w.appendTimes k) := by
  cases w with
  | walRows => exact List.nil_sublist _
  | _ => exact List.Sublist.refl _

theorem callerHistory_sublist (d : Disk) (k : StreamKey) :
    ((d.callerHistory k).map (·.ts)).Sublist (d.appendTimes k) := by
  unfold Disk.callerHistory Disk.appendTimes
  induction d.log with
  | nil => exact List.Sublist.refl _
  | cons e log ih =>
      rw [List.flatMap_cons, List.map_append, List.flatMap_cons]
      exact (sublist_appendTimes k e.2).append ih

theorem Disk.InOrder.history {d : Disk} {k : StreamKey} (h : d.InOrder k) :
    (d.callerHistory k).Pairwise fun r r' => r.ts ≤ r'.ts :=
  List.pairwise_map.mp (List.Pairwise.sublist (callerHistory_sublist d k) h)

theorem Disk.InOrder.of_prefix {d d' : Disk} {k : StreamKey} (h : d'.InOrder k)
    (hlog : d.log <+: d'.log) : d.InOrder k := by
  obtain ⟨rest, hrest⟩ := hlog
  unfold InOrder appendTimes at h ⊢
  rw [← hrest, List.flatMap_append] at h
  exact (List.pairwise_append.mp h).1

/-! ## The rows that are left -/

/-- A row may stand at `ts`: one of the WAL does, or a segment spans it. -/
def HoldsRow (catalog : OrdMap Nat SegmentCols) (wal : OrdMap Int64 WalCols) (ts : Int64) : Prop :=
  ts ∈ wal.keys ∨ ∃ c ∈ catalog.values, c.first ≤ ts ∧ ts ≤ c.last

/-- A row of the stream may stand at `ts`. -/
abbrev Archive.HoldsRow (a : Archive) (k : StreamKey) : Int64 → Prop :=
  Dendro.HoldsRow (a.catalog k) (a.walOf k)

section Rows

variable {env : Env} {msg : Msg} {k : StreamKey} {eff : Effect} {st st' : StreamState} {ts : Int64}

theorem HoldsRow.mono {catalog catalog' : OrdMap Nat SegmentCols} {wal wal' : OrdMap Int64 WalCols}
    (h : Dendro.HoldsRow catalog wal ts) (hcatalog : catalog.values ⊆ catalog'.values)
    (hwal : wal.keys ⊆ wal'.keys) : Dendro.HoldsRow catalog' wal' ts :=
  h.imp (fun hts => hwal hts) fun ⟨c, hc, hspan⟩ => ⟨c, hcatalog hc, hspan⟩

theorem keys_filter_subset {p : Int64 → WalCols → Bool} (wal : OrdMap Int64 WalCols) :
    (wal.filter p).keys ⊆ wal.keys :=
  List.map_subset Prod.fst List.filter_sublist.subset

theorem values_filter_subset {p : Nat → SegmentCols → Bool} (catalog : OrdMap Nat SegmentCols) :
    (catalog.filter p).values ⊆ catalog.values :=
  List.map_subset Prod.snd List.filter_sublist.subset

theorem holdsRow_cut {a a' : Archive} {cutoff_ts : Int64} (h : CutAt a a' k cutoff_ts)
    (ht : a'.HoldsRow k ts) : a.HoldsRow k ts := by
  unfold Archive.HoldsRow at ht
  rw [h.catalog, h.wal] at ht
  exact ht.mono (values_filter_subset _) (keys_filter_subset _)

/-- **No step but an append brings a row before all others**: a segment covers rows that were
live. -/
theorem holdsRow_step (h : StreamStep env msg k eff st st')
    (hadopt : ∀ id segment, msg ≠ .adoptSegment id segment)
    (ht : HoldsRow st'.catalog st'.wal ts) :
    (∃ t', HoldsRow st.catalog st.wal t' ∧ t' ≤ ts) ∨
      ∃ rows, eff = .rows rows ∧ ∃ r ∈ rows, r.ts = ts := by
  cases h with
  | same => exact .inl ⟨ts, ht, le_refl ts⟩
  | @rows _ rows wal _ hperm =>
      rcases ht with hts | hseg
      · rw [OrdMap.keys, (hperm.map Prod.fst).mem_iff, List.map_append, List.map_map] at hts
        rcases List.mem_append.mp hts with hts | hts
        · obtain ⟨r, hr, hrts⟩ := List.mem_map.mp hts
          exact .inr ⟨rows, rfl, r, hr, hrts⟩
        · exact .inl ⟨ts, .inl hts, le_refl ts⟩
      · exact .inl ⟨ts, .inr hseg, le_refl ts⟩
  | prune => exact .inl ⟨ts, ht.mono (List.Subset.refl _) (keys_filter_subset _), le_refl ts⟩
  | cut => exact .inl ⟨ts, ht.mono (values_filter_subset _) (keys_filter_subset _), le_refl ts⟩
  | @sealed _ uuid init tail layout hseal =>
      rcases ht with hts | ⟨c, hc, hfirst, hlast⟩
      · exact .inl ⟨ts, .inl hts, le_refl ts⟩
      · obtain ⟨e, he, rfl⟩ := List.mem_map.mp hc
        rcases OrdMap.mem_insertAll he with he | he
        · exact .inl ⟨ts, .inr ⟨e.2, List.mem_map.mpr ⟨e, he, rfl⟩, hfirst, hlast⟩, le_refl ts⟩
        · -- a part starts at or after some row that it was made of
          have hparts : e.2 ∈ (partEntries layout st.next (init ++ [tail])).map Prod.snd :=
            List.mem_map.mpr ⟨e, he, rfl⟩
          rw [partEntries_values] at hparts
          obtain ⟨p, hp, hcols⟩ := List.mem_map.mp hparts
          obtain ⟨part, hpart, hsub⟩ := hseal.mem hp
          obtain ⟨-, -, ⟨r, hr, hle⟩, -, -⟩ := hpart.span
          obtain ⟨entry, hentry, rfl⟩ := List.mem_map.mp (hsub.subset hr)
          have hwal : entry.1 ∈ st.wal.keys :=
            keys_filter_subset st.wal (List.mem_map.mpr ⟨entry, hentry, rfl⟩)
          rw [← hcols] at hfirst
          exact .inl ⟨entry.1, .inl hwal, le_trans hle hfirst⟩
  | adopted hmsg => exact absurd hmsg (hadopt _ _)

/-- The oldest row of a stream is at or before each of its rows. -/
theorem oldestRow_le {a : Archive} (h : a.HoldsRow k ts) :
    ∃ oldest, a.oldestRow (ofLex k).1 (ofLex k).2 = some oldest ∧ oldest ≤ ts := by
  have hmem : ∃ t ∈ (a.runs k).map SegmentCols.first ++ (a.walOf k).keys, t ≤ ts := by
    rcases h with h | ⟨c, hc, hfirst, -⟩
    · exact ⟨ts, List.mem_append_right _ h, le_refl ts⟩
    · exact ⟨c.first, List.mem_append_left _ (List.mem_map.mpr ⟨c, hc, rfl⟩), hfirst⟩
  obtain ⟨t, ht, hle⟩ := hmem
  have hdef : a.oldestRow (ofLex k).1 (ofLex k).2 =
      ((a.runs k).map SegmentCols.first ++ (a.walOf k).keys).min? := rfl
  rcases hmin : ((a.runs k).map SegmentCols.first ++ (a.walOf k).keys).min? with _ | oldest
  · rw [List.min?_eq_none_iff] at hmin
    exact absurd ht (by simp [hmin])
  · exact ⟨oldest, hdef.trans hmin, le_trans ((List.min?_eq_some_iff.mp hmin).2 t ht) hle⟩

end Rows

/-! ## What a pass takes -/

section Chain

variable {full : CallerRow → Bool} {k : StreamKey}

/-- **What is gone of a name's entries is a prefix of them**, and no full one, or a full one that
is left is at or before every row of the name. -/
def Disk.Chained (full : CallerRow → Bool) (k : StreamKey) (d : Disk) : Prop :=
  ∃ gone, d.callerHistory k = gone ++ d.db.callerRowsOf k ∧
    Anchored CallerRow.ts full gone (d.db.callerRowsOf k) (d.db.HoldsRow k)

/-- A floor that names a full entry at or before the oldest row, where it names one. -/
def FloorFits (full : CallerRow → Bool) (k : StreamKey) (d : Disk) (floor : CallerRowFloor) :
    Prop :=
  ∀ oldest, floor (ofLex k).2 oldest = Int64.minValue ∨
    ∃ r ∈ d.callerHistory k, full r = true ∧ floor (ofLex k).2 oldest = r.ts ∧
      ∀ t, oldest = some t → r.ts ≤ t

theorem callerHistory_concat {d d' : Disk} {w : Write}
    (hlog : d'.log = d.log ++ [(d.db, w)]) :
    d'.callerHistory k = d.callerHistory k ++ w.callerRowsFor k := by
  unfold Disk.callerHistory
  rw [hlog, List.flatMap_append, List.flatMap_singleton]

theorem FloorFits.mono {d d' : Disk} {floor : CallerRowFloor} (h : FloorFits full k d floor)
    (hlog : d.log <+: d'.log) : FloorFits full k d' floor := by
  obtain ⟨rest, hrest⟩ := hlog
  intro oldest
  rcases h oldest with h | ⟨r, hr, hfull⟩
  · exact .inl h
  · refine .inr ⟨r, ?_, hfull⟩
    unfold Disk.callerHistory
    rw [← hrest, List.flatMap_append]
    exact List.mem_append_left _ hr

/-- **A pass under a floor that fits keeps what every row needs.** -/
theorem Disk.Chained.evicted {d d' : Disk} {cutoff_ts : Int64} {floor : CallerRowFloor}
    (h : d.Chained full k) (ho : d.InOrder k) (hfits : FloorFits full k d floor)
    (hpass : EvictedAt d.db d'.db (ofLex k).1 (ofLex k).2 cutoff_ts (some floor))
    (hhistory : d'.callerHistory k = d.callerHistory k) : d'.Chained full k := by
  obtain ⟨gone, hsplit, hanchored⟩ := h
  have hsorted := ho.history
  rw [hsplit] at hsorted
  have hcut : d'.db.callerRowCut (ofLex k).1 (ofLex k).2 cutoff_ts (some floor) =
      min (floor (ofLex k).2 (d'.db.oldestRow (ofLex k).1 (ofLex k).2)) cutoff_ts := rfl
  have hcutAt : ∀ t, d'.db.HoldsRow k t → ∃ t', d.db.HoldsRow k t' ∧ t' ≤ t := fun t ht =>
    ⟨t, holdsRow_cut hpass.toCutAt ht, le_refl t⟩
  obtain ⟨lost, hlost, hkept⟩ := hanchored.cut
    (d'.db.callerRowCut (ofLex k).1 (ofLex k).2 cutoff_ts (some floor)) hsorted
    hcutAt (by
      rcases hfits (d'.db.oldestRow (ofLex k).1 (ofLex k).2) with hmin | ⟨r, hr, hfull, hr', hle⟩
      · refine .inl fun e _ hlt => ?_
        rw [hcut, hmin] at hlt
        exact absurd (lt_of_lt_of_le hlt (min_le_left _ _)) (not_lt.mpr (Int64.minValue_le _))
      · refine .inr ⟨r, hsplit ▸ hr, hfull, ?_, fun t ht => ?_⟩
        · rw [hcut, hr']
          exact min_le_left _ _
        · obtain ⟨oldest, hold, hle'⟩ := oldestRow_le ht
          exact le_trans (hle oldest hold) hle')
  have hrows : d'.db.callerRowsOf k = _ := hpass.caller_rows
  refine ⟨gone ++ lost, ?_, ?_⟩
  · rw [hhistory, hsplit, List.append_assoc, hrows]
    exact congrArg _ hlost
  · rw [hrows]
    exact hkept

/-- What a transaction beside retention leaves of the chains. -/
theorem Disk.Chained.grown {d d' : Disk} {w : Write} (h : d.Chained full k)
    (hlog : d'.log = d.log ++ [(d.db, w)])
    (hrows : d'.db.callerRowsOf k = d.db.callerRowsOf k ++ w.callerRowsFor k)
    (hasked : ∀ t, d'.db.HoldsRow k t → (∃ t', d.db.HoldsRow k t' ∧ t' ≤ t) ∨
      ∀ r ∈ d.callerHistory k, r.ts ≤ t) : d'.Chained full k := by
  obtain ⟨gone, hsplit, hanchored⟩ := h
  refine ⟨gone, ?_, ?_⟩
  · rw [callerHistory_concat hlog, hsplit, hrows, List.append_assoc]
  · rw [hrows]
    refine hanchored.grow _ fun t ht => (hasked t ht).imp_right fun hall r hr => hall r ?_
    rw [hsplit]
    exact List.mem_append_right _ hr

/-! ## Every step -/

variable {env : Env} {msg : Msg} {s s' : WriterState}

/-- A row that is appended is at or after every caller's row of its name. -/
theorem le_of_appended {d d' : Disk} {ticks : List (Int × List WalRow)} (ho : d'.InOrder k)
    (hlog : d'.log = d.log ++ [(d.db, .walRows ticks)]) {r : WalRow} (hr : r ∈ tickRows ticks k) :
    ∀ c ∈ d.callerHistory k, c.ts ≤ r.ts := by
  intro c hc
  have happend : d'.appendTimes k = d.appendTimes k ++ (tickRows ticks k).map (·.ts) := by
    unfold Disk.appendTimes
    rw [hlog, List.flatMap_append, List.flatMap_singleton]
    rfl
  unfold Disk.InOrder at ho
  rw [happend] at ho
  exact (List.pairwise_append.mp ho).2.2 _
    ((callerHistory_sublist d k).subset (List.mem_map.mpr ⟨c, hc, rfl⟩)) _
    (List.mem_map.mpr ⟨r, hr, rfl⟩)

theorem effect_rows {w : Write} {rows : List WalRow} (h : w.effect k = .rows rows) :
    ∃ ticks, w = .walRows ticks ∧ rows = tickRows ticks k := by
  cases w with
  | walRows ticks => exact ⟨ticks, rfl, (Effect.rows.inj h).symm⟩
  | adopt | evict | evictStreams =>
      simp only [Write.effect] at h
      split at h <;> exact absurd h (by simp)
  | _ => exact absurd h (by simp [Write.effect])

/-- A step that leaves the caller's rows of a name as they are, or appends to them. -/
theorem Disk.Chained.step_grown {w : Write} (h : s.disk.Chained full k)
    (hstep : WriterStep env msg s s') (hadopt : ∀ id segment, msg ≠ .adoptSegment id segment)
    (hlog : s'.disk.log = s.disk.log ++ [(s.db, w)])
    (hrows : s'.db.callerRowsOf k = s.db.callerRowsOf k ++ w.callerRowsFor k)
    (ho : s'.disk.InOrder k) : s'.disk.Chained full k := by
  refine h.grown hlog hrows fun t ht => ?_
  rcases hstep.stream k with ⟨hsame, -⟩ | ⟨w', hlog', hstream⟩
  · rw [hlog] at hsame
    exact absurd hsame (by simp)
  · obtain rfl : w = w' := by
      have hlast := List.append_cancel_left (hlog.symm.trans hlog')
      simpa using hlast
    rcases holdsRow_step hstream hadopt ht with hbefore | ⟨rows, heff, r, hr, rfl⟩
    · exact .inl hbefore
    · obtain ⟨ticks, rfl, rfl⟩ := effect_rows heff
      exact .inr (le_of_appended ho hlog hr)

/-- A pass over the source of a name has a floor that fits. -/
def Msg.EvictsFitting (full : CallerRow → Bool) (k : StreamKey) (d : Disk) (msg : Msg) : Prop :=
  ∀ cutoff_ts streams floor, msg = .evict (ofLex k).1 cutoff_ts streams floor →
    ∃ f, floor = some f ∧ FloorFits full k d f

theorem Disk.Chained.step (h : s.disk.Chained full k) (hstep : WriterStep env msg s s')
    (hadopt : ∀ id segment, msg ≠ .adoptSegment id segment)
    (hevict : msg.EvictsFitting full k s.disk) (ho : s'.disk.InOrder k) :
    s'.disk.Chained full k := by
  have hgrown : ∀ w : Write, w.evicts = false → s'.disk = (s.run w).disk →
      s'.disk.Chained full k := by
    intro w hw hdisk
    have hdb : s'.db = (s.run w).db := congrArg Disk.db hdisk
    rcases run_record s w with ⟨hlog, hsame⟩ | ⟨hlog, happly⟩
    · unfold Chained callerHistory
      rw [hdisk, hlog, show (s.run w).disk.db = s.disk.db from hsame]
      exact h
    · refine h.step_grown hstep hadopt (hdisk ▸ hlog) ?_ ho
      rw [hdb]
      exact w.callerRowsOf_apply hw happly k
  have hcommits : ∀ (w : Write) db, w.apply s.db = .ok db →
      (s.run w).disk.log = s.disk.log ++ [(s.db, w)] ∧ (s.run w).db = db := by
    intro w db hdb
    rw [run_of_ok hdb]
    exact ⟨rfl, rfl⟩
  have hquiet : ∀ {d : Disk} {w : Write}, w.callerRowsFor k = [] →
      d.log = s.disk.log ++ [(s.db, w)] → d.callerHistory k = s.disk.callerHistory k := by
    intro d w hw hlog
    rw [callerHistory_concat hlog, hw, List.append_nil]
  have hstep' := hstep
  cases hstep with
  | memory => exact h
  | resumed => exact h
  | @beside w hw =>
      refine hgrown w ?_ rfl
      cases w <;> first | rfl | exact absurd hw (by simp [Write.beside])
  | walRows => exact hgrown _ rfl rfl
  | prune => exact hgrown _ rfl rfl
  | evict source_id cutoff_ts floor names hmsg hnames =>
      obtain ⟨hlog, hdb⟩ := hcommits (.evict source_id cutoff_ts floor names) _ rfl
      have hpass := @evict_passed s.db source_id cutoff_ts floor names fun hsome stream hne =>
        hnames hsome ▸ mem_callerRowStreams hne
      by_cases hk : (ofLex k).1 = source_id
      · subst hk
        obtain ⟨streams, rfl⟩ := hmsg
        obtain ⟨f, rfl, hfits⟩ := hevict _ _ _ rfl
        exact h.evicted (ho.of_prefix ⟨_, hlog.symm⟩) hfits
          (hdb ▸ hpass.evicted (ofLex k).2 rfl) (hquiet rfl hlog)
      · refine h.step_grown hstep' hadopt hlog ?_ ho
        rw [hdb, (hpass.untouched k fun hid => absurd hid hk).caller_rows]
        exact (List.append_nil _).symm
  | evictStreams source_id cutoff_ts floor streams hmsg hnd =>
      obtain ⟨hlog, hdb⟩ := hcommits (.evictStreams source_id cutoff_ts floor streams) _ rfl
      obtain ⟨hevicted, huntouched⟩ := @evictStreams_passed s.db source_id cutoff_ts floor streams hnd
      by_cases hk : k ∈ streams.map (streamKey source_id)
      · obtain ⟨stream, hs, rfl⟩ := List.mem_map.mp hk
        obtain ⟨asked, rfl⟩ := hmsg
        obtain ⟨f, rfl, hfits⟩ := hevict _ _ _ rfl
        exact h.evicted (ho.of_prefix ⟨_, hlog.symm⟩) hfits (hdb ▸ hevicted stream hs)
          (hquiet rfl hlog)
      · refine h.step_grown hstep' hadopt hlog ?_ ho
        rw [hdb, (huntouched k hk).caller_rows]
        exact (List.append_nil _).symm
  | «sealed» => exact hgrown _ rfl rfl
  | sealRefused => exact hgrown _ rfl rfl
  | adopted hmsg => exact absurd hmsg (hadopt _ _)
  | adoptRefused hmsg => exact absurd hmsg (hadopt _ _)

theorem Msg.EvictsFitting.mono {d d' : Disk} (h : msg.EvictsFitting full k d)
    (hlog : d.log <+: d'.log) : msg.EvictsFitting full k d' := by
  intro cutoff_ts streams floor hmsg
  obtain ⟨f, hf, hfits⟩ := h cutoff_ts streams floor hmsg
  exact ⟨f, hf, hfits.mono hlog⟩

/-- **A message keeps what every row needs.** -/
theorem Disk.Chained.steps (h : s.disk.Chained full k)
    (hsteps : ReflTransGen (WriterStep env msg) s s')
    (hadopt : ∀ id segment, msg ≠ .adoptSegment id segment)
    (hevict : msg.EvictsFitting full k s.disk) (ho : s'.disk.InOrder k) :
    s'.disk.Chained full k := by
  induction hsteps with
  | refl => exact h
  | tail hfirst hlast ih =>
      have hmid := ih (ho.of_prefix (log_prefix_steps (.single hlast)))
      exact hmid.step hlast hadopt (hevict.mono (log_prefix_steps hfirst)) ho

end Chain

/-! ## Every run -/

/-- The time of the latest full entry at or before the oldest row, or of the latest of all where
no row is left; `i64::MIN` without one. -/
def latestFull (full : CallerRow → Bool) (stored : List CallerRow) (oldest : Option Int64) : Int64 :=
  ((stored.filter fun r => full r && oldest.all fun t => r.ts ≤ t).map (·.ts)).max?.getD
    Int64.minValue

/-- Nothing is adopted, and each pass over the source of a name is given the time of its latest
full entry. -/
def Event.GivesLatestFull (full : CallerRow → Bool) (k : StreamKey) (w : World) : Event → Prop
  | .message _ (.evict source_id _ _ floor) _ => source_id = (ofLex k).1 →
      ∃ f, floor = some f ∧
        ∀ oldest, f (ofLex k).2 oldest = latestFull full (w.disk.db.callerRowsOf k) oldest
  | .message _ (.adoptSegment _ _) _ => False
  | _ => True

/-- For every row of a name that is left, the latest full entry that was ever appended at or
before it is stored, and every entry appended after that one. -/
def Disk.KeepsChains (full : CallerRow → Bool) (k : StreamKey) (d : Disk) : Prop :=
  ∀ ts, d.db.HoldsRow k ts → ∀ needed,
    NeededAt CallerRow.ts full ts (d.callerHistory k) needed → needed <:+ d.db.callerRowsOf k

section Runs

variable {full : CallerRow → Bool} {k : StreamKey}

/-- Where the entries are chained, the latest full one that is stored fits. -/
theorem floorFits_latestFull {d : Disk} {f : CallerRowFloor} (h : d.Chained full k)
    (hf : ∀ oldest, f (ofLex k).2 oldest = latestFull full (d.db.callerRowsOf k) oldest) :
    FloorFits full k d f := by
  obtain ⟨gone, hsplit, -⟩ := h
  intro oldest
  rw [hf]
  unfold latestFull
  rcases hmax : (((d.db.callerRowsOf k).filter fun r =>
      full r && oldest.all fun t => r.ts ≤ t).map (·.ts)).max? with _ | m
  · rw [hmax]
    exact .inl rfl
  · rw [hmax]
    obtain ⟨r, hr, hts⟩ := List.mem_map.mp (List.max?_eq_some_iff.mp hmax).1
    obtain ⟨hstored, hcond⟩ := List.mem_filter.mp hr
    rw [Bool.and_eq_true] at hcond
    refine .inr ⟨r, hsplit ▸ List.mem_append_right _ hstored, hcond.1, hts.symm, fun t ht => ?_⟩
    rw [ht] at hcond
    simpa using hcond.2

theorem chained_apply {w : World} {e : Event} (h : w.disk.Chained full k)
    (he : e.GivesLatestFull full k w) (ho : (w.apply e).disk.InOrder k) :
    (w.apply e).disk.Chained full k := by
  cases e with
  | message env msg faults =>
      unfold World.apply at ho ⊢
      rcases hm : w.mem with _ | m
      · exact h
      · rw [hm] at ho
        refine Disk.Chained.steps (s := { disk := w.disk, mem := m }) h
          ((handle_runs env msg _).steps faults) ?_ ?_ ho
        · rintro id segment rfl
          exact he
        · rintro cutoff_ts streams floor rfl
          obtain ⟨f, hf, hgives⟩ := he rfl
          exact ⟨f, hf, floorFits_latestFull h hgives⟩
  | beat faults =>
      unfold World.apply at ho ⊢
      rcases hm : w.mem with _ | m
      · exact h
      · rw [hm] at ho
        exact Disk.Chained.steps (s := { disk := w.disk, mem := m }) h
          ((beatTimer_runs Env.idle .sync _).steps faults) nofun nofun ho
  | kill => exact h
  | reopen =>
      unfold World.apply
      rcases w.mem with _ | m <;> exact h

theorem chained_along : ∀ {events : List Event} {w : World}, w.disk.Chained full k →
    Along World.apply (fun w e => e.GivesLatestFull full k w) w events →
    (w.run events).disk.InOrder k → (w.run events).disk.Chained full k
  | [], _, h, _, _ => h
  | _ :: events, _, h, he, ho =>
      @chained_along events _ (chained_apply h he.1 (ho.of_prefix (log_prefix_run events _))) he.2 ho

/-- **Retention keeps the chain behind every row.** In every run that adopts nothing, whatever
fails and wherever the process is killed, if each append to a name was at or after those before it
and every pass over its source was given the time of the name's latest full entry, then for each
row of the name that is left, live or sealed, the latest full entry that was ever appended at or
before it is stored, and every entry after that one. -/
theorem chains_kept (full : CallerRow → Bool) (k : StreamKey) (layout : IndexLayout)
    (events : List Event)
    (h : Along World.apply (fun w e => e.GivesLatestFull full k w) (World.create layout) events)
    (ho : ((World.create layout).run events).disk.InOrder k) :
    ((World.create layout).run events).disk.KeepsChains full k := by
  have hcreate : (World.create layout).disk.Chained full k := ⟨[], rfl, .nothing_gone _ _⟩
  obtain ⟨gone, hsplit, hanchored⟩ := chained_along hcreate h ho
  intro ts hts needed hneeded
  rw [hsplit] at hneeded
  exact hanchored.needed hts hneeded

end Runs

/-- The entries of the run below: two full ones, each with a delta after it. -/
def statedTwice : List CallerRow :=
  [⟨1, [0]⟩, ⟨2, [1]⟩, ⟨4, [0]⟩, ⟨5, [1]⟩]

/-- Entries, a row at 6, and a pass that could cut them all. -/
def evictedBehind : List Event :=
  [.message Env.idle (.addSource { labels := ∅, metadata := ∅, clock_anchor_wall_ns := 0 } none) [],
    .message Env.idle (.callerRows 1 "cpu" statedTwice) [],
    .message Env.idle (.wal [(1, [{ stream := "cpu", ts := 6, wall_offset := 0, row := [1] }])]) [],
    .message Env.idle (.evict 1 6 none
      (some fun _ oldest => latestFull (fun r => r.blob = [0]) statedTwice oldest)) []]

theorem chains_kept_evictedBehind : ((World.create .table).run evictedBehind).disk.KeepsChains
    (fun r => r.blob = [0]) (streamKey 1 "cpu") := by
  refine chains_kept _ _ .table evictedBehind ⟨trivial, trivial, trivial, ?_, trivial⟩
    (by decide +kernel)
  refine fun _ => ⟨_, rfl, fun oldest => ?_⟩
  have hstored : (((World.create .table).run (evictedBehind.take 3)).disk.db.callerRowsOf
      (streamKey 1 "cpu")) = statedTwice := by
    decide +kernel
  exact congrArg (latestFull _ · oldest) hstored.symm

end Dendro
