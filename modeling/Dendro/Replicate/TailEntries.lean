import Dendro.Replicate.Tail

/-!
# Which index entries a publisher ships

A publisher resumes each name at the newest timestamp it sent and the number of entries it sent
at that timestamp. The store appends in any order of timestamps and reads back by timestamp, so
an entry is shipped exactly if it is not older than the newest that was sent.
-/

namespace Dendro.Replicate

open Dendro

/-! ## Positions -/

/-- A position among some entries: their newest timestamp, and how many have it. -/
inductive Newest (rows : List CallerRow) : Option (Int64 × Nat) → Prop where
  | nothing : rows = [] → Newest rows none
  | reached {ts : Int64} : (∃ r ∈ rows, r.ts = ts) → (∀ r ∈ rows, r.ts ≤ ts) →
      Newest rows (some (ts, rows.countP fun r => r.ts = ts))

theorem Newest.perm {rows rows' : List CallerRow} {at_ : Option (Int64 × Nat)} (h : Newest rows at_)
    (hperm : rows.Perm rows') : Newest rows' at_ := by
  cases h with
  | nothing hnil => exact Newest.nothing (List.nil_perm.mp (hnil ▸ hperm))
  | reached hmem hle =>
      rw [hperm.countP_eq]
      obtain ⟨r, hr, hts⟩ := hmem
      exact .reached ⟨r, hperm.mem_iff.mp hr, hts⟩ fun r hr => hle r (hperm.mem_iff.mpr hr)

/-- Entries older than the newest do not change the position. -/
theorem Newest.append_older {rows older : List CallerRow} {ts : Int64} {n : Nat}
    (h : Newest rows (some (ts, n))) (holder : ∀ r ∈ older, r.ts < ts) :
    Newest (older ++ rows) (some (ts, n)) := by
  cases h with
  | reached hmem hle =>
      have hnone : older.countP (fun r => r.ts = ts) = 0 :=
        List.countP_eq_zero.mpr fun r hr => by
          have hlt := holder r hr
          simpa using Int64.ne_of_lt hlt
      have hcount : rows.countP (fun r => r.ts = ts) = (older ++ rows).countP fun r => r.ts = ts := by
        rw [List.countP_append, hnone, Nat.zero_add]
      rw [hcount]
      obtain ⟨r, hr, hts⟩ := hmem
      refine .reached ⟨r, List.mem_append_right older hr, hts⟩ fun r hr => ?_
      rcases List.mem_append.mp hr with hr | hr
      · exact Int64.le_of_lt (holder r hr)
      · exact hle r hr

/-- The loop counts the entries it meets at the timestamp it has reached, passed over or not. -/
theorem Resume.position_pass (r : Resume) (row : CallerRow) : (r.pass row).position =
    some (row.ts, if some row.ts = r.last_ts then r.at_last + 1 else 1) := by
  unfold Resume.position Resume.pass Resume.sent
  by_cases hts : some row.ts = r.last_ts
  · by_cases hskip : 0 < r.skip
    · simp [← hts, hskip]
    · simp [← hts, hskip]
  · simp [hts]

theorem Newest.snoc {rows : List CallerRow} {row : CallerRow} {n : Nat}
    (hle : ∀ s ∈ rows, s.ts ≤ row.ts) (hn : n = rows.countP (fun s => s.ts = row.ts) + 1) :
    Newest (rows ++ [row]) (some (row.ts, n)) := by
  have hcount : n = (rows ++ [row]).countP fun s => s.ts = row.ts := by
    simp [hn]
  rw [hcount]
  refine .reached ⟨row, List.mem_append_right rows List.mem_cons_self, rfl⟩ fun s hs => ?_
  rcases List.mem_append.mp hs with hs | hs
  · exact hle s hs
  · rw [List.mem_singleton.mp hs]

/-- One more entry, none older. -/
theorem Newest.pass {rows : List CallerRow} {r : Resume} {row : CallerRow}
    (h : Newest rows r.position) (hle : ∀ s ∈ rows, s.ts ≤ row.ts) :
    Newest (rows ++ [row]) (r.pass row).position := by
  rw [Resume.position_pass]
  refine .snoc hle ?_
  generalize hat : r.position = at_ at h
  unfold Resume.position at hat
  cases h with
  | nothing hnil =>
      rw [Option.map_eq_none_iff.mp hat, hnil]
      rfl
  | @reached ts hmem hall =>
      obtain ⟨last, hlast, hpair⟩ := Option.map_eq_some_iff.mp hat
      obtain ⟨rfl, hn⟩ := Prod.mk.inj hpair
      rw [hlast]
      by_cases heq : row.ts = last
      · rw [heq, if_pos rfl, hn]
      · have hnone : rows.countP (fun s => s.ts = row.ts) = 0 := by
          refine List.countP_eq_zero.mpr fun s hs hts => heq ?_
          have hts : s.ts = row.ts := by simpa using hts
          obtain ⟨t, ht, htlast⟩ := hmem
          exact Int64.le_antisymm (hts ▸ hall s hs) (htlast ▸ hle t ht)
        rw [if_neg (by simpa using heq), hnone]

/-- **Where the loop stands at its end**, if it counts from nothing. -/
theorem Resume.newest_foldl_pass {r : Resume} {rows : List CallerRow} (hzero : r.at_last = 0)
    (hsorted : rows.Pairwise fun s t => s.ts ≤ t.ts) (hstart : rows = [] → r.last_ts = none) :
    Newest rows (rows.foldl Resume.pass r).position := by
  -- once an entry was met, the position is that of the entries met so far
  have hrest : ∀ (rest met : List CallerRow) (r : Resume), Newest met r.position →
      (met ++ rest).Pairwise (fun s t => s.ts ≤ t.ts) →
        Newest (met ++ rest) (rest.foldl Resume.pass r).position := by
    intro rest
    induction rest with
    | nil =>
        intro met r h _
        rwa [List.append_nil]
    | cons row rest ih =>
        intro met r h hsorted
        have hle : ∀ s ∈ met, s.ts ≤ row.ts := fun s hs =>
          (List.pairwise_append.mp hsorted).2.2 s hs row List.mem_cons_self
        have hassoc : met ++ row :: rest = (met ++ [row]) ++ rest := by simp
        rw [hassoc] at hsorted ⊢
        exact ih (met ++ [row]) (r.pass row) (h.pass hle) hsorted
  cases rows with
  | nil =>
      have hnone : r.position = none := Option.map_eq_none_iff.mpr (hstart rfl)
      rw [List.foldl_nil, hnone]
      exact .nothing rfl
  | cons row rows =>
      refine hrest rows [row] (r.pass row) ?_ hsorted
      rw [Resume.position_pass, hzero, ite_self]
      exact @Newest.snoc [] row 1 (fun s hs => absurd hs List.not_mem_nil) rfl

/-! ## What the loop passes over -/

theorem Resume.unsent_of_skip : ∀ {rows : List CallerRow} {r : Resume}, r.skip = 0 →
    r.unsent rows = rows
  | [], _, _ => rfl
  | row :: rows, r, h => by
      have hsent : r.sent row = false := by simp [Resume.sent, h]
      have hpass : (r.pass row).skip = 0 := by
        unfold Resume.pass
        rw [hsent, if_neg Bool.false_ne_true]
        split
        · exact h
        · exact h
      rw [Resume.unsent, hsent, if_neg Bool.false_ne_true, Resume.unsent_of_skip hpass]

/-- The loop passes over as many entries as were sent, which come first. -/
theorem Resume.unsent_append : ∀ {passed rows : List CallerRow} {r : Resume},
    r.skip = passed.length → (∀ s ∈ passed, some s.ts = r.last_ts) → r.unsent (passed ++ rows) = rows
  | [], _, _, hskip, _ => Resume.unsent_of_skip hskip
  | s :: passed, rows, r, hskip, hpassed => by
      obtain ⟨hs, hpassed⟩ := List.forall_mem_cons.mp hpassed
      have hsent : r.sent s = true := by
        simp [Resume.sent, hs, hskip]
      have hpass : r.pass s = { r with skip := passed.length, at_last := r.at_last + 1 } := by
        unfold Resume.pass
        rw [if_pos hsent, hskip, List.length_cons, Nat.add_sub_cancel]
      rw [List.cons_append, Resume.unsent, if_pos hsent, hpass]
      exact Resume.unsent_append rfl hpassed

/-! ## One turn of one name -/

section

variable {db : Archive} {c : SourceCursor} {name : String} {old app : List CallerRow}

/-- The newest of the entries read is the newest of all. -/
theorem Newest.of_readFrom {rows : List CallerRow} {start : Int64} {at_ : Option (Int64 × Nat)}
    (h : Newest (readFrom rows start) at_) (hsome : ∃ r ∈ rows, start ≤ r.ts) : Newest rows at_ := by
  have hread := h.perm (readFrom_perm rows start)
  obtain ⟨r, hr, hle⟩ := hsome
  have hmem : r ∈ rows.filter fun r => start ≤ r.ts := List.mem_filter.mpr ⟨hr, decide_eq_true hle⟩
  rcases at_ with _ | ⟨ts, n⟩
  · cases hread with
    | nothing hnil => exact absurd hmem (hnil ▸ List.not_mem_nil)
  · have hstart : start ≤ ts := by
      cases hread with
      | reached _ hall => exact Int64.le_trans hle (hall r hmem)
    have hskipped : ∀ s ∈ rows.filter (fun r => !decide (start ≤ r.ts)), s.ts < ts := by
      intro s hs
      have hlt := (List.mem_filter.mp hs).2
      rw [Bool.not_eq_true', decide_eq_false_iff_not, Int64.not_le] at hlt
      exact Int64.lt_of_lt_of_le hlt hstart
    exact (hread.append_older hskipped).perm (List.perm_append_comm.trans (List.filter_append_perm _ rows))

/-- A position is moved to the newest of what the name then holds. -/
theorem newest_movedAfter (hafter : Newest old (c.indexAfter name))
    (hstored : db.callerRowsOf (streamKey c.source_id name) = old ++ app) :
    Newest (old ++ app) (c.movedAfter db Int64.minValue name) := by
  unfold SourceCursor.movedAfter
  generalize hat : c.indexAfter name = at_ at hafter
  cases hafter with
  | nothing hnil =>
      rw [reading_none hat, hstored]
      have hnewest := Resume.newest_foldl_pass (r := { skip := 0, at_last := 0, last_ts := none }) rfl
        (readFrom_sorted (old ++ app) Int64.minValue) fun _ => rfl
      have hall : (old ++ app).filter (fun r => Int64.minValue ≤ r.ts) = old ++ app :=
        List.filter_eq_self.mpr fun r _ => decide_eq_true (Int64.minValue_le r.ts)
      have hperm := readFrom_perm (old ++ app) Int64.minValue
      rw [hall] at hperm
      exact hnewest.perm hperm
  | @reached ts hmem _ =>
      rw [reading_some hat, hstored]
      obtain ⟨r, hr, hts⟩ := hmem
      have hsome : ∃ r ∈ old ++ app, ts ≤ r.ts :=
        ⟨r, List.mem_append_left app hr, Int64.le_of_eq hts.symm⟩
      refine Newest.of_readFrom ?_ hsome
      refine Resume.newest_foldl_pass rfl (readFrom_sorted _ ts) fun hnil => ?_
      obtain ⟨r, hr, hle⟩ := hsome
      have hread := (readFrom_perm (old ++ app) ts).mem_iff.mpr
        (List.mem_filter.mpr ⟨hr, decide_eq_true hle⟩)
      rw [hnil] at hread
      exact absurd hread List.not_mem_nil

/-- **What a turn ships of a name**: of the entries appended since its position was right, those
that are not older than it. -/
theorem unsentEntries_perm (hafter : Newest old (c.indexAfter name))
    (hstored : db.callerRowsOf (streamKey c.source_id name) = old ++ app) :
    (c.unsentEntries db Int64.minValue name).Perm
      (app.filter fun r => ∀ s ∈ old, s.ts ≤ r.ts) := by
  unfold SourceCursor.unsentEntries
  generalize hat : c.indexAfter name = at_ at hafter
  cases hafter with
  | nothing hnil =>
      rw [reading_none hat, hstored, hnil, List.nil_append, Resume.unsent_of_skip rfl]
      refine (readFrom_perm app Int64.minValue).trans (List.Perm.of_eq (List.filter_congr fun r _ => ?_))
      simp [Int64.minValue_le]
  | @reached ts hmem hall =>
      rw [reading_some hat, hstored]
      -- the entries at `ts` come first in what is read, and among them those that were sent
      have hle : ∀ r ∈ readFrom (old ++ app) ts, ts ≤ r.ts := fun r hr =>
        of_decide_eq_true (List.mem_filter.mp ((readFrom_perm _ ts).mem_iff.mp hr)).2
      have hsplit := List.filter_append_filter_of_sorted CallerRow.ts
        (readFrom_sorted (old ++ app) ts) hle
      have hfirst : (readFrom (old ++ app) ts).filter (fun r => r.ts = ts) =
          old.filter (fun r => r.ts = ts) ++ app.filter fun r => r.ts = ts := by
        rw [readFrom, List.filter_insertionSort CallerRow.ts, List.filter_filter,
          ← List.filter_append]
        refine List.filter_congr fun r _ => ?_
        by_cases hts : r.ts = ts
        · simp [hts]
        · simp [hts]
      have hrest : ((readFrom (old ++ app) ts).filter fun r => r.ts ≠ ts).Perm
          ((app.filter fun r => ts ≤ r.ts).filter fun r => r.ts ≠ ts) := by
        refine ((readFrom_perm _ ts).filter _).trans (List.Perm.of_eq ?_)
        have hnone : (old.filter fun r => ts ≤ r.ts).filter (fun r => r.ts ≠ ts) = [] := by
          refine List.filter_eq_nil_iff.mpr fun r hr => ?_
          obtain ⟨hr, hle⟩ := List.mem_filter.mp hr
          have heq := Int64.le_antisymm (hall r hr) (of_decide_eq_true hle)
          simp [heq]
        rw [List.filter_append, List.filter_append, hnone, List.nil_append]
      rw [← hsplit, hfirst, List.append_assoc, Resume.unsent_append List.countP_eq_length_filter
        fun r hr => congrArg some (of_decide_eq_true (List.mem_filter.mp hr).2)]
      have hlater : app.filter (fun r => r.ts = ts) =
          (app.filter fun r => ts ≤ r.ts).filter fun r => r.ts = ts := by
        rw [List.filter_filter]
        refine List.filter_congr fun r _ => ?_
        by_cases hts : r.ts = ts
        · simp [hts]
        · simp [hts]
      have hnewer : app.filter (fun r => ∀ s ∈ old, s.ts ≤ r.ts) = app.filter fun r => ts ≤ r.ts := by
        refine List.filter_congr fun r _ => decide_eq_decide.mpr ⟨fun h => ?_, fun h s hs => ?_⟩
        · obtain ⟨s, hs, hts⟩ := hmem
          exact hts ▸ h s hs
        · exact Int64.le_trans (hall s hs) h
      rw [hlater, hnewer]
      refine (hrest.append_left _).trans ((List.Perm.of_eq ?_).trans
        (List.filter_append_perm (fun r => decide (r.ts = ts)) _))
      simp

end

/-! ## The entries of a source -/

/-- Every entry of the source was shipped, once. -/
def EntriesOnce (db : Archive) (id : Int) (_ : List (Int64 × Int64)) (rows : String → List CallerRow) :
    Prop :=
  ∀ name ∈ db.callerRowStreams id, (rows name).Perm (db.callerRowsOf (streamKey id name))

instance (db : Archive) (id : Int) (os : List (Int64 × Int64)) (rows : String → List CallerRow) :
    Decidable (EntriesOnce db id os rows) :=
  inferInstanceAs (Decidable (∀ name ∈ db.callerRowStreams id,
    (rows name).Perm (db.callerRowsOf (streamKey id name))))

/-- What was appended to the source since `polled` is not older than what `polled` holds under
the same name. -/
def EntriesInOrder (polled db : Archive) (id : Int) : Prop :=
  ∀ e ∈ db.caller_rows.drop polled.caller_rows.length, (ofLex e.1).1 = id →
    ∀ e' ∈ polled.caller_rows, e'.1 = e.1 → e'.2.ts ≤ e.2.ts

/-- What was shipped of the source is what the archive holds, and each name resumes at its
newest. -/
structure EntriesKeptUp (db : Archive) (c : SourceCursor) (_ : List (Int64 × Int64))
    (rows : String → List CallerRow) : Prop where
  shipped : ∀ name, (rows name).Perm (db.callerRowsOf (streamKey c.source_id name))
  index_after : ∀ name, Newest (db.callerRowsOf (streamKey c.source_id name)) (c.indexAfter name)

/-- What was appended to a name since `polled`. -/
def appendedTo (polled db : Archive) (k : StreamKey) : List CallerRow :=
  ((db.caller_rows.drop polled.caller_rows.length).filter fun e => e.1 = k).map Prod.snd

theorem callerRowsOf_appended {polled db : Archive} (h : polled.Grown db) (k : StreamKey) :
    db.callerRowsOf k = polled.callerRowsOf k ++ appendedTo polled db k := by
  obtain ⟨app, happ⟩ := h.caller_rows
  unfold Archive.callerRowsOf appendedTo
  rw [← List.map_append, ← List.filter_append, ← happ, List.drop_left]

theorem mem_callerRowsOf {a : Archive} {k : StreamKey} {row : CallerRow} :
    row ∈ a.callerRowsOf k ↔ (k, row) ∈ a.caller_rows := by
  unfold Archive.callerRowsOf
  simp

theorem mem_appendedTo {polled db : Archive} {k : StreamKey} {row : CallerRow} :
    row ∈ appendedTo polled db k ↔ (k, row) ∈ db.caller_rows.drop polled.caller_rows.length := by
  unfold appendedTo
  simp

/-- The names whose entries are in order, and the source's. -/
theorem entriesInOrder_iff {polled db : Archive} {id : Int} : EntriesInOrder polled db id ↔
    ∀ name, ∀ row ∈ appendedTo polled db (streamKey id name),
      ∀ row' ∈ polled.callerRowsOf (streamKey id name), row'.ts ≤ row.ts := by
  constructor
  · intro h name row hrow row' hrow'
    exact h _ (mem_appendedTo.mp hrow) rfl _ (mem_callerRowsOf.mp hrow') rfl
  · rintro h ⟨k, row⟩ he rfl ⟨k', row'⟩ he' hk
    obtain rfl : k' = k := hk
    exact h (ofLex k').2 row (mem_appendedTo.mpr he) row' (mem_callerRowsOf.mpr he')

theorem callerRowsOf_of_not_mem {db : Archive} {id : Int} {name : String}
    (h : name ∉ db.callerRowStreams id) : db.callerRowsOf (streamKey id name) = [] :=
  List.eq_nil_iff_forall_not_mem.mpr fun row hrow =>
    h (mem_callerRowStreams.mpr ⟨row, mem_callerRowsOf.mp hrow⟩)

/-- A turn leaves each name at the newest of what it holds. -/
theorem newest_moved {db : Archive} {c c' : SourceCursor} {os : List (Int64 × Int64)} {name : String}
    {old app : List CallerRow} (hmoved : Moved db Int64.minValue os c c')
    (hafter : Newest old (c.indexAfter name))
    (hstored : db.callerRowsOf (streamKey c.source_id name) = old ++ app) :
    Newest (old ++ app) (c'.indexAfter name) := by
  rw [hmoved.index_after]
  split
  · exact newest_movedAfter hafter hstored
  · rename_i hnot
    have hnil := callerRowsOf_of_not_mem hnot
    rw [hstored, List.append_eq_nil_iff] at hnil
    rw [hnil.1] at hafter ⊢
    rw [hnil.2]
    exact hafter

theorem follows_entries : Follows EntriesKeptUp EntriesInOrder EntriesOnce where
  opened := by
    rintro db c os rows ⟨rec, ordinal, hmoved, -, rfl⟩
    have hfresh : ∀ name, Newest [] ((SourceCursor.fresh ordinal rec).indexAfter name) :=
      fun name => .nothing rfl
    refine ⟨fun name => ?_, fun name => ?_⟩
    · have hstored : db.callerRowsOf (streamKey rec.id name) =
          [] ++ db.callerRowsOf (streamKey rec.id name) := rfl
      have hperm := unsentEntries_perm (hfresh name) hstored
      rw [hmoved.source_id]
      refine hperm.trans (List.Perm.of_eq (List.filter_eq_self.mpr fun r _ => ?_))
      simp
    · have hnewest := newest_moved hmoved (hfresh name) (List.nil_append _).symm
      rwa [hmoved.source_id]
  same db id e he := by
    rw [List.drop_length] at he
    exact absurd he List.not_mem_nil
  turned := by
    intro polled db c c' os rows hgrown hkept hmoved
    have hstored := fun name => callerRowsOf_appended hgrown (streamKey c.source_id name)
    have hshipped : ∀ name, (rows name ++ c.unsentEntries db Int64.minValue name).Perm
        (polled.callerRowsOf (streamKey c.source_id name) ++
          (appendedTo polled db (streamKey c.source_id name)).filter fun r =>
            ∀ s ∈ polled.callerRowsOf (streamKey c.source_id name), s.ts ≤ r.ts) := fun name =>
      (hkept.shipped name).append (unsentEntries_perm (hkept.index_after name) (hstored name))
    -- what was held back is missing from what was shipped
    have hwhole : ∀ name, (rows name ++ c.unsentEntries db Int64.minValue name).Perm
        (db.callerRowsOf (streamKey c.source_id name)) ↔
          ∀ row ∈ appendedTo polled db (streamKey c.source_id name),
            ∀ row' ∈ polled.callerRowsOf (streamKey c.source_id name), row'.ts ≤ row.ts := by
      intro name
      constructor
      · intro hperm row hrow
        rw [hstored name] at hperm
        have hlength := (List.perm_append_left_iff _).mp ((hshipped name).symm.trans hperm)
        have hself := List.filter_sublist.eq_of_length hlength.length_eq
        simpa using List.filter_eq_self.mp hself row hrow
      · intro h
        rw [hstored name]
        refine (hshipped name).trans (List.Perm.of_eq (congrArg _ (List.filter_eq_self.mpr ?_)))
        exact fun row hrow => decide_eq_true (h row hrow)
    rw [entriesInOrder_iff]
    constructor
    · constructor
      · intro honce name
        by_cases hname : name ∈ db.callerRowStreams c.source_id
        · exact (hwhole name).mp (honce name hname)
        · intro row hrow
          have hnil := callerRowsOf_of_not_mem hname
          rw [hstored name, List.append_eq_nil_iff] at hnil
          exact absurd hrow (hnil.2 ▸ List.not_mem_nil)
      · exact fun h name _ => (hwhole name).mpr (h name)
    · intro h
      refine ⟨fun name => ?_, fun name => ?_⟩
      · rw [hmoved.source_id]
        exact (hwhole name).mpr (h name)
      · rw [hmoved.source_id, hstored name]
        exact newest_moved hmoved (hkept.index_after name) (hstored name)

/-- **Every caller row is shipped exactly once after every poll, exactly if before every poll
what was appended to each name since the last call is not older than what that call saw under
it.** -/
theorem entries_shipped_once_iff {t : Tailer} {es : List TailEvent}
    (hopened : t.Opened Int64.minValue) (hplain : Along Tailer.step TailEvent.Plain t es) :
    Along Tailer.step (TailEvent.After (Tailer.Shipped EntriesOnce)) t es ↔
      Along Tailer.step (TailEvent.Before (Tailer.Written EntriesInOrder)) t es :=
  follows_entries.along_iff hopened hplain

/-- Entries at one timestamp, before a poll and after it, and a later one. -/
def repeated : List TailEvent :=
  [.write (.callerRows 1 "cpu" [⟨5, [1]⟩, ⟨5, [1]⟩]), .poll 0 [],
    .write (.callerRows 1 "cpu" [⟨8, [3]⟩, ⟨5, [2]⟩]), .poll 0 []]

theorem entries_shipped_once_iff_repeated :
    Along Tailer.step (TailEvent.After (Tailer.Shipped EntriesOnce))
        (.catchUp Int64.minValue oneSource) repeated ↔
      Along Tailer.step (TailEvent.Before (Tailer.Written EntriesInOrder))
        (.catchUp Int64.minValue oneSource) repeated :=
  entries_shipped_once_iff (Tailer.opened_catchUp (by decide)) (by decide +kernel)

/-- An entry older than one that was polled. -/
def lateEntry : List TailEvent :=
  [.write (.callerRows 1 "cpu" [⟨8, [1]⟩]), .poll 0 [], .write (.callerRows 1 "cpu" [⟨5, [2]⟩]),
    .poll 0 []]

/-- **An entry older than one that was polled is never shipped.** -/
theorem late_entry_lost : (Tailer.catchUp Int64.minValue oneSource).Opened Int64.minValue ∧
    Along Tailer.step TailEvent.Plain (.catchUp Int64.minValue oneSource) lateEntry ∧
    ¬ Along Tailer.step (TailEvent.After (Tailer.Shipped EntriesOnce))
      (.catchUp Int64.minValue oneSource) lateEntry :=
  ⟨Tailer.opened_catchUp (by decide), by decide +kernel, by decide +kernel⟩

end Dendro.Replicate
