import Dendro.Archive.Stream
import Dendro.Lib.Sorting
import Dendro.Replicate.Protocol

/-!
# What a call ships of a source

The clock observations and the index entries among a call's frames, source by source, and what
each of the publisher's calls ships of them: everything the archive holds that the source's
cursor does not place among what was sent.
-/

namespace Dendro.Replicate

open Dendro

/-! ## Observations and entries among frames -/

/-- The clock observation of the source `o` that a frame carries. -/
def Frame.offset? (o : UInt32) : Frame → Option (Int64 × Int64)
  | .clockOffset source ts offset_ns => if source = o then some (ts, offset_ns) else none
  | _ => none

/-- The entry under one name of the source `o` that a frame carries. -/
def Frame.entry? (o : UInt32) (name : String) : Frame → Option CallerRow
  | .index source stream ts _ _ blob => if source = o ∧ stream = name then some ⟨ts, blob⟩ else none
  | _ => none

def offsetsOf (o : UInt32) (fs : List Frame) : List (Int64 × Int64) := fs.filterMap (Frame.offset? o)

def entriesOf (o : UInt32) (name : String) (fs : List Frame) : List CallerRow :=
  fs.filterMap (Frame.entry? o name)

theorem offsetsOf_append (o : UInt32) (fs fs' : List Frame) :
    offsetsOf o (fs ++ fs') = offsetsOf o fs ++ offsetsOf o fs' := List.filterMap_append

theorem entriesOf_append (o : UInt32) (name : String) (fs fs' : List Frame) :
    entriesOf o name (fs ++ fs') = entriesOf o name fs ++ entriesOf o name fs' :=
  List.filterMap_append

/-! ## Parts of a turn -/

/-- Where the entries of a name resume. -/
def SourceCursor.indexAfter (c : SourceCursor) (name : String) : Option (Int64 × Nat) :=
  (c.entry name).index_after

theorem entry_setEntry (c : SourceCursor) (stream name : String) (e : StreamCursor) :
    (c.setEntry stream e).entry name = if name = stream then e else c.entry name := by
  unfold SourceCursor.setEntry SourceCursor.entry
  rw [OrdMap.get?_insert]
  split
  · rfl
  · rfl

/-- What a part of a call for one source shipped of it: `os` and, under each name, `rows`. -/
structure Ships (p p' : Poll) (os : List (Int64 × Int64)) (rows : String → List CallerRow) : Prop where
  ordinal : p'.1.ordinal = p.1.ordinal
  source_id : p'.1.source_id = p.1.source_id
  offsets : offsetsOf p.1.ordinal p'.2.frames = offsetsOf p.1.ordinal p.2.frames ++ os
  entries : ∀ name, entriesOf p.1.ordinal name p'.2.frames =
    entriesOf p.1.ordinal name p.2.frames ++ rows name
  others : ∀ o, o ≠ p.1.ordinal → offsetsOf o p'.2.frames = offsetsOf o p.2.frames ∧
    ∀ name, entriesOf o name p'.2.frames = entriesOf o name p.2.frames

section

variable {p p' p'' : Poll} {os os' : List (Int64 × Int64)} {rows rows' : String → List CallerRow}

theorem Ships.refl (p : Poll) : Ships p p [] fun _ => [] where
  ordinal := rfl
  source_id := rfl
  offsets := (List.append_nil _).symm
  entries _ := (List.append_nil _).symm
  others _ _ := ⟨rfl, fun _ => rfl⟩

theorem Ships.trans (h : Ships p p' os rows) (h' : Ships p' p'' os' rows') :
    Ships p p'' (os ++ os') fun name => rows name ++ rows' name where
  ordinal := h'.ordinal.trans h.ordinal
  source_id := h'.source_id.trans h.source_id
  offsets := by
    have hoffsets := h'.offsets
    rw [h.ordinal] at hoffsets
    rw [hoffsets, h.offsets, List.append_assoc]
  entries name := by
    have hentries := h'.entries name
    rw [h.ordinal] at hentries
    rw [hentries, h.entries, List.append_assoc]
  others o ho := by
    obtain ⟨hoffsets, hentries⟩ := h.others o ho
    obtain ⟨hoffsets', hentries'⟩ := h'.others o (by rwa [h.ordinal])
    exact ⟨hoffsets'.trans hoffsets, fun name => (hentries' name).trans (hentries name)⟩

/-- Frames of the source were pushed. -/
theorem Ships.push {c : SourceCursor} {fs : List Frame} {b : Batch} (hordinal : c.ordinal = p.1.ordinal)
    (hid : c.source_id = p.1.source_id) (hb : b.frames = p.2.frames ++ fs)
    (hfs : ∀ f ∈ fs, f.source = p.1.ordinal) :
    Ships p (c, b) (offsetsOf p.1.ordinal fs) fun name => entriesOf p.1.ordinal name fs where
  ordinal := hordinal
  source_id := hid
  offsets := by rw [hb, offsetsOf_append]
  entries name := by rw [hb, entriesOf_append]
  others o ho := by
    have hnone : ∀ f ∈ fs, f.offset? o = none ∧ ∀ name, f.entry? o name = none := by
      intro f hf
      have hsource := hfs f hf
      cases f with
      | index => exact ⟨rfl, fun name => if_neg fun h => ho (h.1.symm.trans hsource)⟩
      | clockOffset => exact ⟨if_neg fun h => ho (h.symm.trans hsource), fun _ => rfl⟩
      | _ => exact ⟨rfl, fun _ => rfl⟩
    have hoffsets : offsetsOf o fs = [] := List.filterMap_eq_nil_iff.mpr fun f hf => (hnone f hf).1
    have hentries : ∀ name, entriesOf o name fs = [] := fun name =>
      List.filterMap_eq_nil_iff.mpr fun f hf => (hnone f hf).2 name
    refine ⟨?_, fun name => ?_⟩
    · rw [hb, offsetsOf_append, hoffsets, List.append_nil]
    · rw [hb, entriesOf_append, hentries, List.append_nil]

/-- A part of a call that ships neither, and moves neither cursor. -/
structure Quiet (p p' : Poll) : Prop where
  ships : Ships p p' [] fun _ => []
  clock_after : p'.1.clock_after = p.1.clock_after
  index_after : ∀ name, p'.1.indexAfter name = p.1.indexAfter name

theorem Quiet.refl (p : Poll) : Quiet p p := ⟨.refl p, rfl, fun _ => rfl⟩

theorem Quiet.trans (h : Quiet p p') (h' : Quiet p' p'') : Quiet p p'' where
  ships := h.ships.trans h'.ships
  clock_after := h'.clock_after.trans h.clock_after
  index_after name := (h'.index_after name).trans (h.index_after name)

/-- Frames that carry neither were pushed. -/
theorem Quiet.push {c : SourceCursor} {fs : List Frame} {b : Batch} (hordinal : c.ordinal = p.1.ordinal)
    (hid : c.source_id = p.1.source_id) (hclock : c.clock_after = p.1.clock_after)
    (hindex : ∀ name, c.indexAfter name = p.1.indexAfter name) (hb : b.frames = p.2.frames ++ fs)
    (hfs : ∀ f ∈ fs, f.source = p.1.ordinal ∧ f.offset? p.1.ordinal = none ∧
      ∀ name, f.entry? p.1.ordinal name = none) : Quiet p (c, b) := by
  have hships := Ships.push hordinal hid hb fun f hf => (hfs f hf).1
  have hoffsets : offsetsOf p.1.ordinal fs = [] :=
    List.filterMap_eq_nil_iff.mpr fun f hf => (hfs f hf).2.1
  have hentries : (fun name => entriesOf p.1.ordinal name fs) = fun _ => [] :=
    funext fun name => List.filterMap_eq_nil_iff.mpr fun f hf => (hfs f hf).2.2 name
  rw [hoffsets, hentries] at hships
  exact ⟨hships, hclock, hindex⟩

/-- Only the entry of a stream was changed, and not where its index resumes. -/
theorem Quiet.setEntry {stream : String} {e : StreamCursor}
    (he : e.index_after = p.1.indexAfter stream) : Quiet p (p.1.setEntry stream e, p.2) := by
  refine ⟨⟨rfl, rfl, (List.append_nil _).symm, fun _ => (List.append_nil _).symm,
    fun _ _ => ⟨rfl, fun _ => rfl⟩⟩, rfl, fun name => ?_⟩
  rw [SourceCursor.indexAfter, entry_setEntry]
  split
  · rename_i hname
    rw [he, hname]
  · rfl

/-- The streams' part of a turn ships segments and, at the end, rows. -/
theorem admits_quiet : Admits Quiet where
  refl := .refl
  trans := .trans
  enter _ _ := .setEntry rfl
  advance _ _ _ := .setEntry rfl
  segments stream segments p := by
    refine .push rfl rfl rfl (fun _ => rfl) rfl fun f hf => ?_
    obtain ⟨s, -, rfl⟩ := List.mem_map.mp hf
    exact ⟨rfl, rfl, fun _ => rfl⟩

theorem quiet_pushRows (rows : List WalRow) (p : Poll) : Quiet p (pushRows rows p) := by
  refine .push rfl rfl rfl (fun _ => rfl) rfl fun f hf => ?_
  obtain rfl := List.mem_singleton.mp hf
  exact ⟨rfl, rfl, fun _ => rfl⟩

theorem quiet_introduced (rec : SourceRow) (p : Poll) : Quiet p (p.introduced rec) := by
  refine .push rfl rfl rfl (fun _ => rfl) rfl fun f hf => ?_
  obtain rfl := List.mem_singleton.mp hf
  exact ⟨rfl, rfl, fun _ => rfl⟩

theorem keeps_updateIdentity (now : Int64) (rec : SourceRow) :
    Prog.Keeps (updateIdentity now rec) p (Quiet p) := by
  have htell : ∀ ts, Prog.Keeps (Prog.update fun p : Poll =>
      ({ p.1 with labels := rec.identity.labels, metadata := rec.identity.metadata },
        { p.2 with polled_at := some ts }.push
          [.sourceUpdate p.1.ordinal ts rec.identity.labels rec.identity.metadata]) : PublishM Poll Unit)
      p (Quiet p) := by
    intro ts
    refine .update (.push rfl rfl rfl (fun _ => rfl) rfl fun f hf => ?_)
    obtain rfl := List.mem_singleton.mp hf
    exact ⟨rfl, rfl, fun _ => rfl⟩
  unfold updateIdentity
  refine .state_bind ?_
  obtain ⟨c, b⟩ := p
  dsimp only
  split
  · split
    · exact htell _
    · exact keeps_ask (.refl _) (htell now)
  · exact fun _ => .refl _

/-! ### Clock observations -/

/-- The observations past a cursor. -/
def unsentOffsets (after : Option Int64) (os : List (Int64 × Int64)) : List (Int64 × Int64) :=
  os.filter fun o => !after.any (o.1 ≤ ·)

/-- The cursor after some more observations were sent. -/
def newestOffset (after : Option Int64) (os : List (Int64 × Int64)) : Option Int64 :=
  (os.getLast?.map Prod.fst).or after

/-- A part of a turn that ships the observations `os`, and no entries. -/
structure ShipsOffsets (p p' : Poll) (os : List (Int64 × Int64)) : Prop where
  ships : Ships p p' os fun _ => []
  clock_after : p'.1.clock_after = newestOffset p.1.clock_after os
  index_after : ∀ name, p'.1.indexAfter name = p.1.indexAfter name

theorem ShipsOffsets.refl (p : Poll) : ShipsOffsets p p [] := ⟨.refl p, rfl, fun _ => rfl⟩

theorem ShipsOffsets.trans (h : ShipsOffsets p p' os) (h' : ShipsOffsets p' p'' os') :
    ShipsOffsets p p'' (os ++ os') where
  ships := h.ships.trans h'.ships
  clock_after := by
    rw [h'.clock_after, h.clock_after, newestOffset, newestOffset, newestOffset,
      List.getLast?_append, Option.map_or, Option.or_assoc]
  index_after name := (h'.index_after name).trans (h.index_after name)

theorem ShipsOffsets.one (p : Poll) (o : Int64 × Int64) :
    ShipsOffsets p ({ p.1 with clock_after := some o.1 },
      p.2.push [.clockOffset p.1.ordinal o.1 o.2]) [o] := by
  have hships : Ships p ({ p.1 with clock_after := some o.1 },
      p.2.push [.clockOffset p.1.ordinal o.1 o.2])
      (offsetsOf p.1.ordinal [.clockOffset p.1.ordinal o.1 o.2])
      fun name => entriesOf p.1.ordinal name [.clockOffset p.1.ordinal o.1 o.2] :=
    .push rfl rfl rfl fun f hf => by
      rw [List.mem_singleton.mp hf]
      rfl
  have hone : offsetsOf p.1.ordinal [.clockOffset p.1.ordinal o.1 o.2] = [o] := by
    simp [offsetsOf, Frame.offset?]
  rw [hone] at hships
  exact ⟨hships, rfl, fun _ => rfl⟩

/-- The observations past the newest of ascending ones are those that come after it. -/
theorem unsentOffsets_of_lt {after : Option Int64} {os : List (Int64 × Int64)}
    (h : ∀ o ∈ os, ∀ a, after = some a → a < o.1) : unsentOffsets after os = os := by
  refine List.filter_eq_self.mpr fun o ho => ?_
  cases after with
  | none => rfl
  | some a =>
      have hlt := h o ho a rfl
      simp [Int64.not_le.mpr hlt]

/-- **The clock observations of a poll**: those past the cursor. -/
theorem shipsOffsets_poll : ∀ (os : List (Int64 × Int64)) (p : Poll),
    os.Pairwise (fun o o' => o.1 < o'.1) →
      ShipsOffsets p (os.foldl pushOffset p) (unsentOffsets p.1.clock_after os)
  | [], p, _ => .refl p
  | o :: os, p, hsorted => by
      obtain ⟨ho, hos⟩ := List.pairwise_cons.mp hsorted
      rw [List.foldl_cons]
      by_cases hsent : p.1.clock_after.any (o.1 ≤ ·)
      · have hskip : pushOffset p o = p := by
          unfold pushOffset
          exact if_pos hsent
        have hunsent : unsentOffsets p.1.clock_after (o :: os) = unsentOffsets p.1.clock_after os := by
          unfold unsentOffsets
          rw [List.filter_cons, if_neg (by simpa using hsent)]
        rw [hskip, hunsent]
        exact shipsOffsets_poll os p hos
      · have hpush : pushOffset p o = ({ p.1 with clock_after := some o.1 },
            p.2.push [.clockOffset p.1.ordinal o.1 o.2]) := by
          unfold pushOffset
          exact if_neg hsent
        have hrest := shipsOffsets_poll os (pushOffset p o) hos
        -- nothing after `o` is held back, by the new cursor or by the old one
        have hlater : ∀ o' ∈ os, ∀ a, p.1.clock_after = some a → a < o'.1 := by
          intro o' ho' a ha
          have hlt : a < o.1 := by simpa [ha] using hsent
          exact Int64.lt_trans hlt (ho o' ho')
        have hunsent : unsentOffsets p.1.clock_after (o :: os) = [o] ++ os := by
          have hrestall := unsentOffsets_of_lt hlater
          unfold unsentOffsets at hrestall ⊢
          rw [List.filter_cons, if_pos (by simpa using hsent), hrestall]
          rfl
        have hafter : unsentOffsets (pushOffset p o).1.clock_after os = os := by
          rw [hpush]
          refine unsentOffsets_of_lt fun o' ho' a ha => ?_
          rw [← Option.some.inj ha]
          exact ho o' ho'
        rw [hafter] at hrest
        rw [hunsent]
        refine ShipsOffsets.trans ?_ hrest
        rw [hpush]
        exact .one p o

/-- The clock observations of an opening: those at or after its bound. -/
theorem shipsOffsets_open (since : Int64) : ∀ (os : List (Int64 × Int64)) (p : Poll),
    ShipsOffsets p (os.foldl (openOffset (some since)) p) (os.filter fun o => since ≤ o.1)
  | [], p => .refl p
  | o :: os, p => by
      have hrest := shipsOffsets_open since os (openOffset (some since) p o)
      rw [List.foldl_cons, List.filter_cons]
      by_cases ho : o.1 < since
      · have hskip : openOffset (some since) p o = p := if_pos ho
        rw [hskip] at hrest ⊢
        rwa [if_neg (by simpa using ho)]
      · rw [if_pos (by simpa using ho)]
        have hpush : openOffset (some since) p o = ({ p.1 with clock_after := some o.1 },
            p.2.push [.clockOffset p.1.ordinal o.1 o.2]) := if_neg ho
        refine @ShipsOffsets.trans p _ _ [o] _ ?_ hrest
        rw [hpush]
        exact .one p o

/-! ### Entries -/

/-- The rows the loop of `emit_index` does not pass over. -/
def Resume.unsent : Resume → List CallerRow → List CallerRow
  | _, [] => []
  | r, row :: rows =>
    if r.sent row then (r.pass row).unsent rows else row :: (r.pass row).unsent rows

/-- Where the loop stands at its end, if it read anything. -/
def Resume.position (r : Resume) : Option (Int64 × Nat) := r.last_ts.map (·, r.at_last)

theorem foldl_emitRow (stream : String) : ∀ (rows : List CallerRow) (r : Resume) (p : Poll),
    rows.foldl (emitRow stream) (r, p) =
      (rows.foldl Resume.pass r, (r.unsent rows).foldl (pushEntry stream) p)
  | [], _, _ => rfl
  | row :: rows, r, p => by
      rw [List.foldl_cons, List.foldl_cons, Resume.unsent, emitRow, foldl_emitRow stream rows]
      split
      · rfl
      · rfl

/-- The loop only forgets a position by finding another. -/
theorem Resume.last_ts_foldl_pass : ∀ (rows : List CallerRow) (r : Resume),
    (rows.foldl Resume.pass r).last_ts = none → r.last_ts = none
  | [], _, h => h
  | row :: rows, r, h => by
      have hpass := Resume.last_ts_foldl_pass rows (r.pass row) h
      unfold Resume.pass at hpass
      split at hpass
      · exact hpass
      · split at hpass
        · exact hpass
        · exact absurd hpass (by simp)

/-- What the loop reads of a name, and where it starts. -/
def SourceCursor.reading (c : SourceCursor) (db : Archive) (start : Int64) (name : String) :
    Resume × List CallerRow :=
  let (from_, r) := (c.entry name).resume start
  (r, db.readCallerRows c.source_id name from_ Int64.maxValue)

/-- The entries of a name that its cursor does not place among the sent. -/
def SourceCursor.unsentEntries (c : SourceCursor) (db : Archive) (start : Int64) (name : String) :
    List CallerRow :=
  (c.reading db start name).1.unsent (c.reading db start name).2

/-- Where the entries of a name resume once those were sent. -/
def SourceCursor.movedAfter (c : SourceCursor) (db : Archive) (start : Int64) (name : String) :
    Option (Int64 × Nat) :=
  ((c.reading db start name).2.foldl Resume.pass (c.reading db start name).1).position

theorem reading_congr {c c' : SourceCursor} {db : Archive} {start : Int64} {name : String}
    (hid : c'.source_id = c.source_id) (hafter : c'.indexAfter name = c.indexAfter name) :
    c'.reading db start name = c.reading db start name := by
  unfold SourceCursor.indexAfter at hafter
  unfold SourceCursor.reading StreamCursor.resume
  rw [hid, hafter]

theorem readCallerRows_eq (db : Archive) (id : Int) (name : String) (start : Int64) :
    db.readCallerRows id name start Int64.maxValue =
      ((db.callerRowsOf (streamKey id name)).filter fun r => start ≤ r.ts).insertionSort
        fun r s => r.ts ≤ s.ts := by
  unfold Archive.readCallerRows Archive.callerRowsOf
  rw [List.filter_map, List.filter_filter]
  refine congrArg (fun l => List.insertionSort _ (List.map Prod.snd l)) (List.filter_congr fun e _ => ?_)
  simp [Int64.le_maxValue, and_comm]

/-- The entries of a name from a timestamp on, as they are read. -/
def readFrom (rows : List CallerRow) (start : Int64) : List CallerRow :=
  (rows.filter fun r => start ≤ r.ts).insertionSort fun r s => r.ts ≤ s.ts

theorem readFrom_perm (rows : List CallerRow) (start : Int64) :
    (readFrom rows start).Perm (rows.filter fun r => start ≤ r.ts) :=
  List.perm_insertionSort _ _

theorem readFrom_sorted (rows : List CallerRow) (start : Int64) :
    (readFrom rows start).Pairwise fun r s => r.ts ≤ s.ts :=
  List.sorted_insertionSort CallerRow.ts _

theorem reading_none {db : Archive} {c : SourceCursor} {name : String}
    (h : c.indexAfter name = none) (start : Int64) : c.reading db start name =
    ({ skip := 0, at_last := 0, last_ts := none },
      readFrom (db.callerRowsOf (streamKey c.source_id name)) start) := by
  unfold SourceCursor.indexAfter at h
  unfold SourceCursor.reading StreamCursor.resume
  rw [h]
  exact congrArg _ (readCallerRows_eq db c.source_id name start)

theorem reading_some {db : Archive} {c : SourceCursor} {name : String} {ts : Int64} {n : Nat}
    (h : c.indexAfter name = some (ts, n)) (start : Int64) :
    c.reading db start name = ({ skip := n, at_last := 0, last_ts := some ts },
      readFrom (db.callerRowsOf (streamKey c.source_id name)) ts) := by
  unfold SourceCursor.indexAfter at h
  unfold SourceCursor.reading StreamCursor.resume
  rw [h]
  exact congrArg _ (readCallerRows_eq db c.source_id name ts)

/-- A part of a turn that ships the entries of some names, and no observations. -/
structure Indexed (db : Archive) (start : Int64) (names : List String) (p p' : Poll) : Prop where
  ships : Ships p p' [] fun name => if name ∈ names then p.1.unsentEntries db start name else []
  clock_after : p'.1.clock_after = p.1.clock_after
  index_after : ∀ name, p'.1.indexAfter name =
    if name ∈ names then p.1.movedAfter db start name else p.1.indexAfter name

theorem Indexed.nil (db : Archive) (start : Int64) (p : Poll) : Indexed db start [] p p where
  ships := by simpa using Ships.refl p
  clock_after := rfl
  index_after name := (if_neg List.not_mem_nil).symm

theorem Indexed.cons {db : Archive} {start : Int64} {name : String} {names : List String}
    (hnew : name ∉ names) (h : Indexed db start [name] p p') (h' : Indexed db start names p' p'') :
    Indexed db start (name :: names) p p'' := by
  have hsame : ∀ other ∈ names, p'.1.reading db start other = p.1.reading db start other := by
    intro other hother
    refine reading_congr h.ships.source_id ((h.index_after other).trans (if_neg ?_))
    rintro hname
    rw [List.mem_singleton.mp hname] at hother
    exact hnew hother
  refine ⟨?_, h'.clock_after.trans h.clock_after, fun other => ?_⟩
  · have hrows : (fun other => (if other ∈ [name] then p.1.unsentEntries db start other else []) ++
        if other ∈ names then p'.1.unsentEntries db start other else []) =
        fun other => if other ∈ name :: names then p.1.unsentEntries db start other else [] := by
      funext other
      by_cases hname : other = name
      · subst hname
        simp [hnew]
      · by_cases hother : other ∈ names
        · simp [hname, hother, SourceCursor.unsentEntries, hsame other hother]
        · simp [hname, hother]
    have hships := h.ships.trans h'.ships
    rwa [hrows] at hships
  · rw [h'.index_after, h.index_after]
    by_cases hname : other = name
    · subst hname
      simp [hnew]
    · by_cases hother : other ∈ names
      · simp [hname, hother, SourceCursor.movedAfter, hsame other hother]
      · simp [hname, hother]

theorem ships_pushEntry (stream : String) (p : Poll) (row : CallerRow) :
    Ships p (pushEntry stream p row) [] fun name => if name = stream then [row] else [] := by
  obtain ⟨c, b⟩ := p
  have hships := @Ships.push (c, b) (pushEntry stream (c, b) row).1
    [.index c.ordinal stream row.ts (if c.sent_full then .delta else .full)
      (foldIndexState c.index_state row.ts row.blob) row.blob]
    (pushEntry stream (c, b) row).2 rfl rfl rfl fun f hf => by
      rw [List.mem_singleton.mp hf]
      rfl
  refine Eq.mp ?_ hships
  congr 1
  funext name
  by_cases hname : name = stream
  · simp [entriesOf, Frame.entry?, hname]
  · simp [entriesOf, Frame.entry?, hname, Ne.symm hname]

theorem ships_pushEntries (stream : String) : ∀ (rows : List CallerRow) (p : Poll),
    Ships p (rows.foldl (pushEntry stream) p) [] (fun name => if name = stream then rows else []) ∧
      (rows.foldl (pushEntry stream) p).1.clock_after = p.1.clock_after ∧
      (rows.foldl (pushEntry stream) p).1.streams = p.1.streams
  | [], p => ⟨by simpa using Ships.refl p, rfl, rfl⟩
  | row :: rows, p => by
      obtain ⟨hships, hclock, hstreams⟩ := ships_pushEntries stream rows (pushEntry stream p row)
      refine ⟨?_, hclock, hstreams⟩
      have hboth := (ships_pushEntry stream p row).trans hships
      refine Eq.mp ?_ hboth
      congr 1
      funext name
      split
      · rfl
      · rfl

theorem emitRows_eq (stream : String) (r : Resume) (rows : List CallerRow) (p : Poll) :
    emitRows stream r rows p = match (rows.foldl Resume.pass r).position,
        (r.unsent rows).foldl (pushEntry stream) p with
      | some at_, (c, b) => (c.setEntry stream { c.entry stream with index_after := some at_ }, b)
      | none, p => p := by
  unfold emitRows Resume.position
  rw [foldl_emitRow]
  dsimp only
  rcases (rows.foldl Resume.pass r).last_ts with _ | ts
  · rfl
  · rfl

/-- A change of a stream's entry ships nothing. -/
theorem Ships.setEntry (h : Ships p p' os rows) (stream : String) (e : StreamCursor) :
    Ships p (p'.1.setEntry stream e, p'.2) os rows :=
  ⟨h.ordinal, h.source_id, h.offsets, h.entries, h.others⟩

/-- **What `emit_index` ships**: the entries of the name past its cursor. -/
theorem indexed_indexed (db : Archive) (start : Int64) (stream : String) (p : Poll) :
    Indexed db start [stream] p (indexed db start stream p) := by
  have hentry : (p.1.enter stream).entry stream = p.1.entry stream := by
    rw [SourceCursor.enter, entry_setEntry, if_pos rfl]
  have hquiet : Quiet p (p.1.enter stream, p.2) := admits_quiet.enter stream p
  have hindexed : indexed db start stream p =
      emitRows stream (p.1.reading db start stream).1 (p.1.reading db start stream).2
        (p.1.enter stream, p.2) := by
    unfold indexed SourceCursor.reading
    rw [hentry]
  have hpush := ships_pushEntries stream (p.1.unsentEntries db start stream) (p.1.enter stream, p.2)
  rw [hindexed, emitRows_eq]
  unfold SourceCursor.unsentEntries at hpush
  generalize hp' : ((p.1.reading db start stream).1.unsent (p.1.reading db start stream).2).foldl
    (pushEntry stream) (p.1.enter stream, p.2) = p' at hpush
  obtain ⟨hships, hclock, hstreams⟩ := hpush
  have hships' : Ships p p' [] fun name =>
      if name ∈ [stream] then p.1.unsentEntries db start name else [] := by
    refine Eq.mp ?_ (hquiet.ships.trans hships)
    congr 1
    funext name
    by_cases hname : name = stream
    · simp [hname, SourceCursor.unsentEntries]
    · simp [hname]
  have hafter : ∀ name, p'.1.indexAfter name = p.1.indexAfter name := by
    intro name
    rw [← hquiet.index_after name]
    unfold SourceCursor.indexAfter SourceCursor.entry
    rw [hstreams]
  rcases hposition : (((p.1.reading db start stream).2).foldl Resume.pass
    (p.1.reading db start stream).1).position with _ | at_
  · refine ⟨hships', hclock, fun name => ?_⟩
    rw [hafter]
    by_cases hname : name = stream
    · subst hname
      rw [if_pos (List.mem_singleton.mpr rfl), SourceCursor.movedAfter, hposition]
      -- the loop found nothing and had nothing to forget
      have hlast := Resume.last_ts_foldl_pass _ _ (Option.map_eq_none_iff.mp hposition)
      unfold SourceCursor.reading StreamCursor.resume at hlast
      unfold SourceCursor.indexAfter
      rcases hindex : (p.1.entry name).index_after with _ | at_
      · rfl
      · rw [hindex] at hlast
        exact absurd hlast (by simp)
    · rw [if_neg (by simpa using hname)]
  · refine ⟨hships'.setEntry stream _, hclock, fun name => ?_⟩
    dsimp only
    rw [SourceCursor.indexAfter, entry_setEntry]
    by_cases hname : name = stream
    · subst hname
      rw [if_pos rfl, if_pos (List.mem_singleton.mpr rfl), SourceCursor.movedAfter, hposition]
    · rw [if_neg hname, if_neg (by simpa using hname)]
      exact hafter name

/-- The loop over the names of a source. -/
theorem emits_emitIndexes {db : Archive} (start : Int64) : ∀ {names : List String} (p : Poll),
    names.Nodup → Emits (Prog.forEach (emitIndex db start) names) p fun _ p' =>
      Indexed db start names p p'
  | [], p, _ => .pure (.nil db start p)
  | name :: names, p, hnodup => by
      obtain ⟨hnew, hnodup⟩ := List.nodup_cons.mp hnodup
      refine (emits_emitIndex start name).bind ?_
      rintro _ _ rfl
      exact (emits_emitIndexes start _ hnodup).mono
        (fun _ _ h => (indexed_indexed db start name p).cons hnew h) fun _ _ _ => trivial

/-! ## Turns and openings -/

theorem nodup_callerRowStreams (db : Archive) (source_id : Int) :
    (db.callerRowStreams source_id).Nodup := OrdMap.keys_nodup _

theorem mem_callerRowStreams {db : Archive} {source_id : Int} {name : String} :
    name ∈ db.callerRowStreams source_id ↔
      ∃ row, (streamKey source_id name, row) ∈ db.caller_rows := by
  unfold Archive.callerRowStreams
  rw [Archive.mem_distinct, List.mem_filterMap]
  constructor
  · rintro ⟨⟨k, row⟩, he, hname⟩
    split at hname
    · rename_i hid
      refine ⟨row, ?_⟩
      have hk : k = streamKey source_id name := by
        rw [← hid, ← Option.some.inj hname]
        rfl
      rwa [← hk]
    · exact absurd hname (by simp)
  · rintro ⟨row, he⟩
    exact ⟨_, he, if_pos rfl⟩

/-- A name that is not listed has nothing to ship. -/
theorem unsentEntries_of_not_mem {db : Archive} {c : SourceCursor} {start : Int64} {name : String}
    (h : name ∉ db.callerRowStreams c.source_id) : c.unsentEntries db start name = [] := by
  have hnone : ∀ from_ end_, db.readCallerRows c.source_id name from_ end_ = [] := by
    intro from_ end_
    unfold Archive.readCallerRows
    rw [List.filter_eq_nil_iff.mpr, List.map_nil, List.insertionSort_nil]
    rintro ⟨k, row⟩ he hk
    simp only [decide_eq_true_eq] at hk
    exact h (mem_callerRowStreams.mpr ⟨row, hk.1 ▸ he⟩)
  unfold SourceCursor.unsentEntries SourceCursor.reading
  simp only [hnone, Resume.unsent]

/-- How a turn, or an opening, moves a source's cursors over the observations `os` and the
entries from `start` on. -/
structure Moved (db : Archive) (start : Int64) (os : List (Int64 × Int64)) (c c' : SourceCursor) :
    Prop where
  ordinal : c'.ordinal = c.ordinal
  source_id : c'.source_id = c.source_id
  clock_after : c'.clock_after = newestOffset c.clock_after os
  index_after : ∀ name, c'.indexAfter name =
    if name ∈ db.callerRowStreams c.source_id then c.movedAfter db start name else c.indexAfter name

/-- A turn, or an opening, of one source. -/
structure Shipped (db : Archive) (start : Int64) (os : List (Int64 × Int64)) (p p' : Poll) : Prop where
  ships : Ships p p' os fun name => p.1.unsentEntries db start name
  moved : Moved db start os p.1 p'.1

theorem Quiet.indexed {db : Archive} {start : Int64} {names : List String} (h : Quiet p p')
    (h' : Indexed db start names p' p'') : Indexed db start names p p'' := by
  have hreading : ∀ name, p'.1.reading db start name = p.1.reading db start name := fun name =>
    reading_congr h.ships.source_id (h.index_after name)
  have hships := h.ships.trans h'.ships
  have hmoved := h'.index_after
  unfold SourceCursor.unsentEntries at hships
  unfold SourceCursor.movedAfter at hmoved
  simp only [hreading, h.index_after] at hships hmoved
  exact ⟨hships, h'.clock_after.trans h.clock_after, hmoved⟩

theorem Indexed.quiet {db : Archive} {start : Int64} {names : List String}
    (h : Indexed db start names p p') (h' : Quiet p' p'') : Indexed db start names p p'' := by
  have hships := h.ships.trans h'.ships
  simp only [List.append_nil] at hships
  exact ⟨hships, h'.clock_after.trans h.clock_after,
    fun name => (h'.index_after name).trans (h.index_after name)⟩

theorem Indexed.shipped {db : Archive} {start : Int64}
    (h : Indexed db start (db.callerRowStreams p.1.source_id) p p') (h' : ShipsOffsets p' p'' os) :
    Shipped db start os p p'' := by
  have hrows : (fun name => (if name ∈ db.callerRowStreams p.1.source_id then
      p.1.unsentEntries db start name else []) ++ []) = fun name => p.1.unsentEntries db start name := by
    funext name
    split
    · exact List.append_nil _
    · rename_i hnot
      exact (unsentEntries_of_not_mem hnot).symm
  have hships := h.ships.trans h'.ships
  rw [hrows] at hships
  refine ⟨hships, hships.ordinal, hships.source_id, ?_, fun name => (h'.index_after name).trans (h.index_after name)⟩
  rw [h'.clock_after, h.clock_after]

theorem Shipped.quiet {db : Archive} {start : Int64} (h : Shipped db start os p p')
    (h' : Quiet p' p'') : Shipped db start os p p'' := by
  have hships := h.ships.trans h'.ships
  simp only [List.append_nil] at hships
  exact ⟨hships, hships.ordinal, hships.source_id, h'.clock_after.trans h.moved.clock_after,
    fun name => (h'.index_after name).trans (h.moved.index_after name)⟩

/-- The observations of a source past its cursor. -/
def SourceCursor.unsentOffsets (c : SourceCursor) (db : Archive) : List (Int64 × Int64) :=
  Replicate.unsentOffsets c.clock_after (db.readClockOffsets c.source_id)

/-- The observations of a source come in order. -/
theorem readClockOffsets_sorted (db : Archive) (source_id : Int) :
    (db.readClockOffsets source_id).Pairwise fun o o' => o.1 < o'.1 :=
  (db.clock_offsets.group source_id).sorted

/-- What a turn ships does not depend on what went on before it without moving the cursors. -/
theorem Quiet.shipped {db : Archive} {start : Int64} (h : Quiet p p')
    (h' : Shipped db start (p'.1.unsentOffsets db) p' p'') :
    Shipped db start (p.1.unsentOffsets db) p p'' := by
  have hreading : ∀ name, p'.1.reading db start name = p.1.reading db start name := fun name =>
    reading_congr h.ships.source_id (h.index_after name)
  have hoffsets : p'.1.unsentOffsets db = p.1.unsentOffsets db := by
    unfold SourceCursor.unsentOffsets
    rw [h.clock_after, h.ships.source_id]
  have hships := h.ships.trans h'.ships
  have hclock := h'.moved.clock_after
  have hindex := h'.moved.index_after
  unfold SourceCursor.unsentEntries at hships
  unfold SourceCursor.movedAfter at hindex
  rw [hoffsets, h.clock_after] at hclock
  simp only [hreading, h.index_after, h.ships.source_id] at hindex
  simp only [hreading, hoffsets] at hships
  exact ⟨hships, hships.ordinal, hships.source_id, hclock, hindex⟩

/-- **A turn ships what is past the source's cursors.** -/
theorem emits_poll_shipped {db : Archive} (p : Poll) : Emits (poll db) p fun _ p' =>
    Shipped db Int64.minValue (p.1.unsentOffsets db) p p' := by
  unfold poll
  refine emits_state.bind ?_
  rintro ⟨c, b⟩ p ⟨rfl, rfl⟩
  refine emits_ask.bind ?_
  rintro _ _ ⟨rfl, rfl⟩
  refine (emits_emitIndexes Int64.minValue (c, b) (nodup_callerRowStreams db c.source_id)).bind
    fun _ p₁ h₁ => ?_
  refine emits_ask.bind ?_
  rintro _ p₁ ⟨rfl, rfl⟩
  have hoffsets := shipsOffsets_poll (db.readClockOffsets c.source_id) p₁ (readClockOffsets_sorted db _)
  rw [h₁.clock_after] at hoffsets
  have h₂ : Shipped db Int64.minValue (c.unsentOffsets db) (c, b)
      ((db.readClockOffsets c.source_id).foldl pushOffset p₁) := h₁.shipped hoffsets
  refine Prog.Runs.bind (Q := fun _ p' => Shipped db Int64.minValue (c.unsentOffsets db) (c, b) p')
    (.update trivial h₂) fun _ p₂ h₂ => ?_
  refine emits_ask.bind ?_
  rintro watermarks _ ⟨-, rfl⟩
  refine emits_ask.bind ?_
  rintro streams p₂ ⟨-, rfl⟩
  refine Prog.Runs.bind (emits_of_keeps (.foldEach (fun stream _ rows _ h =>
    admits_quiet.pollStream watermarks rows stream h) (.refl p₂))) fun rows p₃ h₃ => ?_
  exact .update trivial (h₂.quiet (h₃.trans (quiet_pushRows rows p₃)))

/-- **An opening ships what is at or after its bound.** -/
theorem emits_openSource_shipped {db : Archive} {rec : SourceRow} (since : Int64)
    (watermarks : OrdMap StreamKey Int64) (p : Poll) (hid : p.1.source_id = rec.id) :
    Emits (openSource db rec (some since) watermarks) p fun _ p' =>
      Shipped db since ((db.readClockOffsets rec.id).filter fun o => since ≤ o.1) p p' := by
  unfold openSource
  refine Prog.Runs.bind (Q := fun _ p' => Quiet p p') (.update trivial (quiet_introduced rec p))
    fun _ p₁ h₁ => ?_
  refine emits_ask.bind ?_
  rintro _ p₁ ⟨rfl, rfl⟩
  refine (emits_emitIndexes since p₁ (nodup_callerRowStreams db rec.id)).bind fun _ p₂ h₂ => ?_
  refine emits_ask.bind ?_
  rintro streams p₂ ⟨-, rfl⟩
  refine Prog.Runs.bind (emits_of_keeps (.forEach (fun stream _ _ h =>
    admits_quiet.openStream (some since) watermarks stream h) (.refl p₂))) fun _ p₃ h₃ => ?_
  refine emits_ask.bind ?_
  rintro _ p₃ ⟨rfl, rfl⟩
  have hindexed := (h₁.indexed h₂).quiet h₃
  rw [← hid] at hindexed ⊢
  exact .update trivial (hindexed.shipped (shipsOffsets_open since _ p₃))

/-- A turn of a source the publisher knows. -/
theorem emits_pollKnown_shipped {db : Archive} (now : Int64) (records : List SourceRow) (p : Poll) :
    Emits (pollKnown db now records) p fun _ p' =>
      Shipped db Int64.minValue (p.1.unsentOffsets db) p p' := by
  have hpoll : ∀ p₁, Quiet p p₁ → Emits (poll db) p₁ fun _ p' =>
      Shipped db Int64.minValue (p.1.unsentOffsets db) p p' := by
    intro p₁ h₁
    exact (emits_poll_shipped p₁).mono (fun _ p' h => h₁.shipped h) fun _ _ _ => trivial
  unfold pollKnown
  refine emits_state.bind ?_
  rintro ⟨c, b⟩ p' ⟨hp, rfl⟩
  obtain rfl := hp
  dsimp only
  split
  · rename_i rec _
    exact (emits_of_keeps (keeps_updateIdentity now rec)).bind fun _ p₁ h₁ => hpoll p₁ h₁
  · exact hpoll (c, b) (.refl _)

end

/-! ## Whole calls -/

/-- Turns that each leave the other sources as they are, one after another: `view` is what is seen
of a source in the frames, and `T` what a turn does for its own source. -/
theorem each_apart {β : Type} (view : UInt32 → List Frame → β)
    {D : SourceCursor → Batch → SourceCursor → Batch → Prop}
    {T : SourceCursor → SourceCursor → β → β → Prop} {cs cs' : List SourceCursor} {b b' : Batch}
    (hD : ∀ {c b c' b'}, D c b c' b' → c'.ordinal = c.ordinal ∧
      (∀ o, o ≠ c.ordinal → view o b'.frames = view o b.frames) ∧
      T c c' (view c.ordinal b.frames) (view c.ordinal b'.frames))
    (h : Prog.Each D cs b cs' b') : (cs.map (·.ordinal)).Nodup →
      cs'.map (·.ordinal) = cs.map (·.ordinal) ∧
      (∀ o ∉ cs.map (·.ordinal), view o b'.frames = view o b.frames) ∧
      ∀ c' ∈ cs', ∃ c ∈ cs, c'.ordinal = c.ordinal ∧
        T c c' (view c.ordinal b.frames) (view c.ordinal b'.frames) := by
  induction h with
  | nil => exact fun _ => ⟨rfl, fun _ _ => rfl, fun _ hc => absurd hc List.not_mem_nil⟩
  | @cons c c' cs cs' b b₁ b₂ hone _ ih =>
      intro hnodup
      rw [List.map_cons, List.nodup_cons] at hnodup
      obtain ⟨hordinals, hothers, hturned⟩ := ih hnodup.2
      obtain ⟨hordinal, hapart, hown⟩ := hD hone
      refine ⟨by rw [List.map_cons, List.map_cons, hordinals, hordinal], fun o ho => ?_, fun x hx => ?_⟩
      · rw [List.map_cons, List.mem_cons, not_or] at ho
        rw [hothers o ho.2, hapart o ho.1]
      · rcases List.mem_cons.mp hx with rfl | hx
        · refine ⟨c, List.mem_cons_self, hordinal, ?_⟩
          rw [hothers c.ordinal hnodup.1]
          exact hown
        · obtain ⟨d, hd, hxd, hmoved⟩ := hturned x hx
          have hne : d.ordinal ≠ c.ordinal := by
            intro heq
            exact hnodup.1 (heq ▸ List.mem_map_of_mem hd)
          rw [hapart d.ordinal hne] at hmoved
          exact ⟨d, List.mem_cons_of_mem c hd, hxd, hmoved⟩

theorem nextOrdinal_ok {n : Nat} {ordinal : UInt32} (h : nextOrdinal n = .ok ordinal) :
    ordinal.toNat = n := by
  unfold nextOrdinal at h
  split at h
  · rename_i hlt
    rw [← Except.ok.inj h, UInt32.toNat_ofNat_of_lt' hlt]
  · exact absurd h (by simp)

/-- Sources that are met one after another, each under an ordinal of which nothing was seen: `F`
holds of every cursor and what is seen of its source, and nothing is seen of any other. -/
theorem meets_apart {β : Type} (view : UInt32 → List Frame → β) {F : SourceCursor → β → Prop}
    {B : SourceRow → UInt32 → Batch → SourceCursor → Batch → Prop} {sent : List Frame}
    {recs : List SourceRow} {x x' : Polls}
    (hview : ∀ o fs fs', view o fs = view o fs' → view o (sent ++ fs) = view o (sent ++ fs'))
    (h : Meets B recs x x') :
    (∀ rec ∈ recs, ∀ ordinal b c b', B rec ordinal b c b' → c.ordinal = ordinal ∧
      (∀ o, o ≠ ordinal → view o b'.frames = view o b.frames) ∧
      (view ordinal (sent ++ b.frames) = view ordinal [] →
        F c (view ordinal (sent ++ b'.frames)))) →
    (∀ c ∈ x.1, c.ordinal.toNat < x.1.length) →
    (∀ c ∈ x.1, F c (view c.ordinal (sent ++ x.2.frames))) →
    (∀ o, (∀ c ∈ x.1, c.ordinal ≠ o) → view o (sent ++ x.2.frames) = view o []) →
      (∀ c ∈ x'.1, F c (view c.ordinal (sent ++ x'.2.frames))) ∧
        ∀ o, (∀ c ∈ x'.1, c.ordinal ≠ o) → view o (sent ++ x'.2.frames) = view o [] := by
  induction h with
  | nil => exact fun _ _ hknown hsilent => ⟨hknown, hsilent⟩
  | @cons rec recs x x' ordinal c b hordinal hmet _ ih =>
      intro hB hlt hknown hsilent
      obtain ⟨hco, hapart, hfirst⟩ := hB rec List.mem_cons_self _ _ _ _ hmet
      have hto := nextOrdinal_ok hordinal
      -- the ordinal is new, so nothing was shipped under it
      have hfresh : ∀ d ∈ x.1, d.ordinal ≠ ordinal := by
        intro d hd heq
        have hd' := hlt d hd
        rw [heq, hto] at hd'
        exact Nat.lt_irrefl _ hd'
      have hsame := fun o ho => hview o _ _ (hapart o ho)
      refine ih (fun rec' hrec' => hB rec' (List.mem_cons_of_mem rec hrec')) (fun d hd => ?_)
        (fun d hd => ?_) fun o ho => ?_
      · rw [List.length_append, List.length_singleton]
        rcases List.mem_append.mp hd with hd | hd
        · exact Nat.lt_succ_of_lt (hlt d hd)
        · rw [List.mem_singleton.mp hd, hco, hto]
          exact Nat.lt_succ_self _
      · rcases List.mem_append.mp hd with hd | hd
        · rw [hsame d.ordinal (hfresh d hd)]
          exact hknown d hd
        · rw [List.mem_singleton.mp hd, hco]
          exact hfirst (hsilent ordinal hfresh)
      · have hne : o ≠ ordinal := fun heq =>
          ho c (List.mem_append_right _ (List.mem_singleton.mpr rfl)) (hco.trans heq.symm)
        rw [hsame o hne]
        exact hsilent o fun d hd => ho d (List.mem_append_left _ hd)

/-- What `F` says of each cursor and of what was shipped of its source, and that nothing was
shipped of any other. -/
structure Ledger (F : SourceCursor → List (Int64 × Int64) → (String → List CallerRow) → Prop)
    (cs : List SourceCursor) (sent : List Frame) : Prop where
  known : ∀ c ∈ cs, F c (offsetsOf c.ordinal sent) fun name => entriesOf c.ordinal name sent
  silent : ∀ o, (∀ c ∈ cs, c.ordinal ≠ o) →
    offsetsOf o sent = [] ∧ ∀ name, entriesOf o name sent = []

/-- A cursor after a turn, which `F` held of before it. -/
def Turned (db : Archive) (F : SourceCursor → List (Int64 × Int64) → (String → List CallerRow) → Prop)
    (c' : SourceCursor) (os' : List (Int64 × Int64)) (rows' : String → List CallerRow) : Prop :=
  ∃ c os rows, F c os rows ∧ Moved db Int64.minValue (c.unsentOffsets db) c c' ∧
    os' = os ++ c.unsentOffsets db ∧
    rows' = fun name => rows name ++ c.unsentEntries db Int64.minValue name

/-- A cursor after the opening of a source. -/
def Opened (db : Archive) (since : Int64) (c : SourceCursor) (os : List (Int64 × Int64))
    (rows : String → List CallerRow) : Prop :=
  ∃ rec ordinal, Moved db since os (.fresh ordinal rec) c ∧
    os = (db.readClockOffsets rec.id).filter (fun o => since ≤ o.1) ∧
    rows = fun name => (SourceCursor.fresh ordinal rec).unsentEntries db since name

section

variable {db : Archive} {F G : SourceCursor → List (Int64 × Int64) → (String → List CallerRow) → Prop}
  {sent : List Frame} {cs cs' : List SourceCursor} {b b' : Batch}

/-- What the turns of a call shipped of one source, and of the others. -/
theorem shipped_each (h : Prog.Each (fun c b c' b' =>
      Shipped db Int64.minValue (c.unsentOffsets db) (c, b) (c', b')) cs b cs' b')
    (hnodup : (cs.map (·.ordinal)).Nodup) : cs'.map (·.ordinal) = cs.map (·.ordinal) ∧
      (∀ o ∉ cs.map (·.ordinal), offsetsOf o b'.frames = offsetsOf o b.frames ∧
        ∀ name, entriesOf o name b'.frames = entriesOf o name b.frames) ∧
      ∀ c' ∈ cs', ∃ c ∈ cs, c'.ordinal = c.ordinal ∧
        Moved db Int64.minValue (c.unsentOffsets db) c c' ∧
        offsetsOf c.ordinal b'.frames = offsetsOf c.ordinal b.frames ++ c.unsentOffsets db ∧
        ∀ name, entriesOf c.ordinal name b'.frames =
          entriesOf c.ordinal name b.frames ++ c.unsentEntries db Int64.minValue name := by
  obtain ⟨hordinals, hothers, hturned⟩ := each_apart
    (fun o fs => (offsetsOf o fs, fun name => entriesOf o name fs))
    (T := fun c c' v v' => Moved db Int64.minValue (c.unsentOffsets db) c c' ∧
      v'.1 = v.1 ++ c.unsentOffsets db ∧
      ∀ name, v'.2 name = v.2 name ++ c.unsentEntries db Int64.minValue name)
    (fun hone => ⟨hone.ships.ordinal, fun o ho => Prod.ext (hone.ships.others o ho).1
      (funext (hone.ships.others o ho).2), hone.moved, hone.ships.offsets, hone.ships.entries⟩)
    h hnodup
  refine ⟨hordinals, fun o ho => ?_, hturned⟩
  have hsame := hothers o ho
  exact ⟨congrArg Prod.fst hsame, congrFun (congrArg Prod.snd hsame)⟩

theorem Ledger.each (h : Ledger F cs (sent ++ b.frames)) (hnodup : (cs.map (·.ordinal)).Nodup)
    (heach : Prog.Each (fun c b c' b' =>
      Shipped db Int64.minValue (c.unsentOffsets db) (c, b) (c', b')) cs b cs' b') :
    Ledger (Turned db F) cs' (sent ++ b'.frames) := by
  obtain ⟨hordinals, hothers, hturned⟩ := shipped_each heach hnodup
  refine ⟨fun c' hc' => ?_, fun o ho => ?_⟩
  · obtain ⟨c, hc, hordinal, hmoved, hoffsets, hentries⟩ := hturned c' hc'
    refine ⟨c, _, _, h.known c hc, hmoved, ?_, ?_⟩
    · rw [hordinal, offsetsOf_append, offsetsOf_append, hoffsets, List.append_assoc]
    · funext name
      rw [hordinal, entriesOf_append, entriesOf_append, hentries, List.append_assoc]
  · have hnot : o ∉ cs.map (·.ordinal) := by
      rw [← hordinals, List.mem_map]
      rintro ⟨c', hc', rfl⟩
      exact ho c' hc' rfl
    have hnone : ∀ c ∈ cs, c.ordinal ≠ o := fun c hc heq => hnot (heq ▸ List.mem_map_of_mem hc)
    obtain ⟨hoffsets, hentries⟩ := hothers o hnot
    obtain ⟨hsilent, hsilent'⟩ := h.silent o hnone
    refine ⟨?_, fun name => ?_⟩
    · rw [offsetsOf_append, hoffsets, ← offsetsOf_append, hsilent]
    · rw [entriesOf_append, hentries, ← entriesOf_append, hsilent']

/-- How a call met a source: something was shipped, and `G` holds of the new cursor and it. -/
def MetAs (G : SourceCursor → List (Int64 × Int64) → (String → List CallerRow) → Prop)
    (rec : SourceRow) (ordinal : UInt32) (b : Batch) (c : SourceCursor) (b' : Batch) : Prop :=
  ∃ os rows, Ships (.fresh ordinal rec, b) (c, b') os rows ∧ G c os rows

/-- A source that was met joins the ledger. -/
theorem Ledger.meets {recs : List SourceRow} {x x' : Polls} (hmeets : Meets (MetAs G) recs x x')
    (hGF : ∀ rec ∈ recs, ∀ c os rows, c.source_id = rec.id → G c os rows → F c os rows)
    (hlt : ∀ c ∈ x.1, c.ordinal.toNat < x.1.length) (h : Ledger F x.1 (sent ++ x.2.frames)) :
    Ledger F x'.1 (sent ++ x'.2.frames) := by
  have hview : ∀ (o : UInt32) (fs fs' : List Frame),
      (offsetsOf o fs, fun name => entriesOf o name fs) =
        (offsetsOf o fs', fun name => entriesOf o name fs') →
      (offsetsOf o (sent ++ fs), fun name => entriesOf o name (sent ++ fs)) =
        (offsetsOf o (sent ++ fs'), fun name => entriesOf o name (sent ++ fs')) := by
    intro o fs fs' heq
    obtain ⟨hoffsets, hentries⟩ := Prod.mk.inj heq
    simp only [offsetsOf_append, entriesOf_append, hoffsets, congrFun hentries]
  have hjoin := meets_apart (fun o fs => (offsetsOf o fs, fun name => entriesOf o name fs))
    (F := fun c v => F c v.1 v.2) hview hmeets (fun rec hrec ordinal b c b' hmet => ?_) hlt h.known
    fun o ho => Prod.ext (h.silent o ho).1 (funext (h.silent o ho).2)
  · refine ⟨hjoin.1, fun o ho => ?_⟩
    have hnone := hjoin.2 o ho
    exact ⟨congrArg Prod.fst hnone, congrFun (congrArg Prod.snd hnone)⟩
  · obtain ⟨os, rows, hships, hG⟩ := hmet
    refine ⟨hships.ordinal, fun o ho => Prod.ext (hships.others o ho).1
      (funext (hships.others o ho).2), fun hnone => ?_⟩
    have hoffsets : offsetsOf ordinal b'.frames = offsetsOf ordinal b.frames ++ os := hships.offsets
    have hentries : ∀ name, entriesOf ordinal name b'.frames =
        entriesOf ordinal name b.frames ++ rows name := hships.entries
    obtain ⟨hsilent, hsilent'⟩ := Prod.mk.inj hnone
    have hos : offsetsOf ordinal (sent ++ b'.frames) = os := by
      rw [offsetsOf_append, hoffsets, ← List.append_assoc, ← offsetsOf_append, hsilent]
      rfl
    have hrows : (fun name => entriesOf ordinal name (sent ++ b'.frames)) = rows := by
      funext name
      rw [entriesOf_append, hentries, ← List.append_assoc, ← entriesOf_append,
        congrFun hsilent' name]
      rfl
    dsimp only
    rw [hos, hrows]
    exact hGF rec hrec c os rows hships.source_id hG

theorem Ledger.mono (h : Ledger F cs sent) (hFG : ∀ c ∈ cs, ∀ os rows, F c os rows → G c os rows) :
    Ledger G cs sent :=
  ⟨fun c hc => hFG c hc _ _ (h.known c hc), h.silent⟩

/-- A source is met by opening it, or by opening it and a turn. -/
theorem emits_openSource_met {since : Int64} (rec : SourceRow) (ordinal : UInt32) (b : Batch) :
    Emits (openSource db rec (some since) db.sealedWatermarks) (.fresh ordinal rec, b) fun _ p' =>
      MetAs (Opened db since) rec ordinal b p'.1 p'.2 := by
  refine (emits_openSource_shipped since _ (SourceCursor.fresh ordinal rec, b) rfl).mono
    (fun _ p' h => ?_) fun _ _ _ => trivial
  exact ⟨_, _, h.ships, rec, ordinal, h.moved, rfl, rfl⟩

theorem emits_openSource_poll_met {since : Int64} (rec : SourceRow) (ordinal : UInt32) (b : Batch) :
    Emits (do
      openSource db rec (some since) db.sealedWatermarks
      poll db) (.fresh ordinal rec, b) fun _ p' =>
        MetAs (Turned db (Opened db since)) rec ordinal b p'.1 p'.2 := by
  refine (emits_openSource_shipped since _ (SourceCursor.fresh ordinal rec, b) rfl).bind
    fun _ p₁ h₁ => ?_
  refine (emits_poll_shipped p₁).mono (fun _ p' h => ?_) fun _ _ _ => trivial
  exact ⟨_, _, h₁.ships.trans h.ships, p₁.1, _, _, ⟨rec, ordinal, h₁.moved, rfl, rfl⟩, h.moved, rfl, rfl⟩

theorem ordered_nodup (h : Ordered cs) : (cs.map (·.ordinal)).Nodup := by
  rw [List.nodup_iff_getElem?_ne_getElem?]
  intro i j hij hj heq
  rw [List.length_map] at hj
  rw [List.getElem?_map, List.getElem?_map, List.getElem?_eq_getElem hj,
    List.getElem?_eq_getElem (Nat.lt_trans hij hj), Option.map_some, Option.map_some] at heq
  have hi' := h i _ (List.getElem?_eq_getElem (Nat.lt_trans hij hj))
  have hj' := h j _ (List.getElem?_eq_getElem hj)
  rw [Option.some.inj heq, hj'] at hi'
  omega

theorem ordered_lt (h : Ordered cs) : ∀ c ∈ cs, c.ordinal.toNat < cs.length := by
  intro c hc
  obtain ⟨i, hi, rfl⟩ := List.mem_iff_getElem.mp hc
  rw [h i _ (List.getElem?_eq_getElem hi)]
  exact hi

variable {p p' : ArchivePublisher} {faults faults' : List (Fault StorageFailure)}
  {frames : List Frame}

/-- **What an opening that succeeded shipped.** -/
theorem open_ledger {since : Int64}
    (h : ArchivePublisher.open_ db (some since) (.unopened (some since)) faults =
      (.ok frames, p, faults')) :
    Ledger (Opened db since) p.sources frames ∧ p.since = since := by
  refine @of_open db p faults faults' frames (Ledger (Opened db since)) (some since) ?_ h
  refine (emits_openAll fun rec ordinal b => emits_openSource_met rec ordinal b).mono
    (fun _ x hmeets => ?_) fun _ _ _ => trivial
  exact @Ledger.meets (Opened db since) (Opened db since) [] _ _ _ hmeets (fun _ _ _ _ _ _ h => h)
    (fun _ hc => absurd hc List.not_mem_nil)
    ⟨fun _ hc => absurd hc List.not_mem_nil, fun _ _ => ⟨rfl, fun _ => rfl⟩⟩

/-- **What a `next` that succeeded shipped**, after what was sent before. -/
theorem next_ledger {now : Int64} (hord : Ordered p.sources) (h : Ledger F p.sources sent)
    (hnext : ArchivePublisher.next db now p faults = (.ok frames, p', faults')) :
    Ledger (fun c os rows => Turned db F c os rows ∨
      c.source_id ∉ sourceIds p.sources ∧ Turned db (Opened db p.since) c os rows)
      p'.sources (sent ++ frames) ∧ p'.since = p.since := by
  refine @of_next db p p' faults faults' frames (fun cs frames => Ledger _ cs (sent ++ frames)) now
    ?_ hnext
  have hcollect := @emits_collect db (MetAs (Turned db (Opened db p.since)))
    (fun c b c' b' => Shipped db Int64.minValue (c.unsentOffsets db) (c, b) (c', b')) now p.since
    (fun c b => emits_pollKnown_shipped now db.readSources (c, b))
    (fun rec ordinal b => emits_openSource_poll_met rec ordinal b) (fun _ _ _ _ h => h.moved.source_id)
    p.sources
  refine hcollect.mono ?_ fun _ _ _ => trivial
  rintro _ x ⟨cs₁, b₁, heach, hmeets⟩
  have hnodup := ordered_nodup hord
  have hfirst : Ledger F p.sources (sent ++ Batch.empty.frames) := by
    rwa [show sent ++ Batch.empty.frames = sent from List.append_nil sent]
  refine Ledger.meets hmeets (fun rec hrec c os rows hid h => .inr ⟨?_, h⟩) (fun c hc => ?_)
    ((hfirst.each hnodup heach).mono fun _ _ _ _ => Or.inl)
  · have hnot := (List.mem_filter.mp hrec).2
    rw [hid, sourceIds, List.mem_map]
    rintro ⟨d, hd, hdid⟩
    simp only [Bool.not_eq_true', List.any_eq_false, decide_eq_true_eq] at hnot
    exact hnot d hd hdid
  obtain ⟨hordinals, -, -⟩ := shipped_each heach hnodup
  have hlength : cs₁.length = p.sources.length := by
    have h := congrArg List.length hordinals
    rwa [List.length_map, List.length_map] at h
  have hmem : c.ordinal ∈ p.sources.map (·.ordinal) := hordinals ▸ List.mem_map_of_mem hc
  obtain ⟨d, hd, hdc⟩ := List.mem_map.mp hmem
  rw [hlength, ← hdc]
  exact ordered_lt hord d hd

end

end Dendro.Replicate
