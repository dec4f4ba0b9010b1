import Dendro.SegmentProof
import Dendro.Writer.World

/-!
# The span a segment claims

`materialize` checks a segment by counting: the rows it was given that fall inside the
span the segment claims are as many as the segment says. Counting leaves the two ends of
the span free to lie where no row is, strictly between two neighbours, and a seal looks
its last row up by the last part's `last_ts`.

The contract makes a span of rows exactly when neither end lies in such a gap
(`spansRows_iff`), and the lookup fails only on a segment that ends in one.
-/

namespace Dendro

/-- The segment's span begins and ends at rows, and the rows it counts are the run between
them. -/
def SpansRows (rows : List WalRow) (s : Segment) : Prop :=
  ∃ before run after, rows = before ++ run ++ after ∧
    run.head?.map (·.ts) = some s.first_ts ∧ run.getLast?.map (·.ts) = some s.last_ts ∧
      s.rows.toNat = run.length

/-- A time strictly between two neighbouring rows. -/
def InGap (rows : List WalRow) (ts : Int64) : Prop :=
  ∃ before r r' after, rows = before ++ r :: r' :: after ∧ r.ts < ts ∧ ts < r'.ts

section

variable {rows : List WalRow} {s : Segment} {first last : WalRow} {ts : Int64}

/-- A row is in no gap of its own list. -/
theorem not_inGap_of_mem (hs : rows.Pairwise fun r r' => r.ts < r'.ts) {x : WalRow}
    (hx : x ∈ rows) : ¬ InGap rows x.ts := by
  rintro ⟨before, r, r', after, rfl, hlt, hgt⟩
  obtain ⟨-, hpair, hcross⟩ := List.pairwise_append.mp hs
  obtain ⟨hr, hpair⟩ := List.pairwise_cons.mp hpair
  obtain ⟨hr', -⟩ := List.pairwise_cons.mp hpair
  rcases List.mem_append.mp hx with hb | hb
  · have := hcross x hb r (by simp)
    exact absurd hlt (by simpa using this.le)
  · rcases List.mem_cons.mp hb with rfl | hb
    · exact absurd hlt (lt_irrefl _)
    · rcases List.mem_cons.mp hb with rfl | hb
      · exact absurd hgt (lt_irrefl _)
      · exact absurd hgt (by simpa using (hr' x hb).le)

/-- A time inside the rows' own span is a row's or in a gap. -/
theorem mem_or_inGap : ∀ {rows : List WalRow} {first : WalRow}, first ∈ rows.head? →
    last ∈ rows.getLast? → first.ts ≤ ts → ts ≤ last.ts →
      (∃ r ∈ rows, r.ts = ts) ∨ InGap rows ts
  | [], _, hf, _, _, _ => absurd hf (by simp)
  | [a], first, hf, hl, hle, hge => by
      obtain rfl : a = first := by simpa using hf
      obtain rfl : a = last := by simpa using hl
      exact .inl ⟨a, by simp, le_antisymm hle hge⟩
  | a :: b :: rows, first, hf, hl, hle, hge => by
      obtain rfl : a = first := by simpa using hf
      rcases lt_or_eq_of_le hle with hlt | heq
      · rcases lt_or_ge ts b.ts with hb | hb
        · exact .inr ⟨[], a, b, rows, rfl, hlt, hb⟩
        · have hf' : b ∈ (b :: rows).head? := by simp
          have hl' : last ∈ (b :: rows).getLast? := by simpa using hl
          rcases mem_or_inGap hf' hl' hb hge with ⟨r, hr, hts⟩ | hgap
          · exact .inl ⟨r, List.mem_cons_of_mem _ hr, hts⟩
          · obtain ⟨before, r, r', after, heq, h₁, h₂⟩ := hgap
            exact .inr ⟨a :: before, r, r', after, by rw [heq, List.cons_append], h₁, h₂⟩
      · exact .inl ⟨a, by simp, heq⟩

/-- Rows between two of a list's rows: what the span of the two covers is the run from one
to the other. -/
theorem covered_run (hs : rows.Pairwise fun r r' => r.ts < r'.ts) {x y : WalRow} (hx : x ∈ rows)
    (hy : y ∈ rows) (hle : x.ts ≤ y.ts) : ∃ before run after, rows = before ++ run ++ after ∧
      run.head? = some x ∧ run.getLast? = some y ∧
        (rows.filter fun r => x.ts ≤ r.ts && r.ts ≤ y.ts) = run := by
  obtain ⟨before, tail, rfl⟩ := List.append_of_mem hx
  obtain ⟨-, htail, hcross⟩ := List.pairwise_append.mp hs
  have hytail : y ∈ x :: tail := by
    rcases List.mem_append.mp hy with hb | hb
    · have := hcross y hb x (by simp)
      exact absurd hle (not_le.mpr this)
    · exact hb
  obtain ⟨mid, after, hmid⟩ := List.append_of_mem hytail
  have hrun : (mid ++ [y]).head? = some x := by
    have := congrArg List.head? hmid
    cases mid <;> simpa using this.symm
  rw [hmid] at htail hcross ⊢
  obtain ⟨-, hafter, hrunAfter⟩ := List.pairwise_append.mp htail
  have hfirst : ∀ r ∈ mid ++ y :: after, x.ts ≤ r.ts := by
    intro r hr
    rw [← hmid] at hr htail
    rcases List.mem_cons.mp hr with rfl | hr
    · exact le_rfl
    · exact ((List.pairwise_cons.mp htail).1 r hr).le
  have hxy : x ∈ mid ++ y :: after := by rw [← hmid]; simp
  refine ⟨before, mid ++ [y], after, by simp, hrun, by simp, ?_⟩
  have hb : (before.filter fun r => x.ts ≤ r.ts && r.ts ≤ y.ts) = [] := by
    refine List.filter_eq_nil_iff.mpr fun r hr => ?_
    have := hcross r hr x hxy
    simp [not_le.mpr this]
  have hm : (mid.filter fun r => x.ts ≤ r.ts && r.ts ≤ y.ts) = mid := by
    refine List.filter_eq_self.mpr fun r hr => ?_
    have h₁ := hfirst r (by simp [hr])
    have h₂ := (hrunAfter r hr y (by simp)).le
    simp [h₁, h₂]
  have ha : (after.filter fun r => x.ts ≤ r.ts && r.ts ≤ y.ts) = [] := by
    refine List.filter_eq_nil_iff.mpr fun r hr => ?_
    have := (List.pairwise_cons.mp hafter).1 r hr
    simp [not_le.mpr this]
  rw [List.filter_append, List.filter_append, hb, hm, List.filter_cons, ha]
  simp [hle]

/-- **A segment that meets the contract spans rows exactly when neither of its ends lies
between two neighbours.** -/
theorem spansRows_iff (hs : rows.Pairwise fun r r' => r.ts < r'.ts)
    (hf : rows.head? = some first) (hl : rows.getLast? = some last)
    (h : meetsContract s rows first last = true) :
    SpansRows rows s ↔ ¬ InGap rows s.first_ts ∧ ¬ InGap rows s.last_ts := by
  simp only [meetsContract, Bool.and_eq_true, decide_eq_true_eq] at h
  obtain ⟨⟨⟨⟨-, hspan⟩, hfirst⟩, hlast⟩, hcount⟩ := h
  constructor
  · rintro ⟨before, run, after, rfl, hhead, hlast, -⟩
    obtain ⟨x, hx, hx'⟩ := Option.map_eq_some_iff.mp hhead
    obtain ⟨y, hy, hy'⟩ := Option.map_eq_some_iff.mp hlast
    rw [← hx', ← hy']
    have hxm := List.mem_of_head? hx
    have hym := List.mem_of_getLast? hy
    exact ⟨not_inGap_of_mem hs (by simp [hxm]), not_inGap_of_mem hs (by simp [hym])⟩
  · rintro ⟨hgf, hgl⟩
    obtain ⟨x, hx, hxts⟩ := (mem_or_inGap hf hl hfirst (hspan.trans hlast)).resolve_right hgf
    obtain ⟨y, hy, hyts⟩ := (mem_or_inGap hf hl (hfirst.trans hspan) hlast).resolve_right hgl
    have hle : x.ts ≤ y.ts := by rw [hxts, hyts]; exact hspan
    obtain ⟨before, run, after, hrows, hhead, hend, hfilter⟩ := covered_run hs hx hy hle
    refine ⟨before, run, after, hrows, by rw [hhead, ← hxts]; rfl, by rw [hend, ← hyts]; rfl, ?_⟩
    rw [hcount, covered, ← hfilter, hxts, hyts]

end

/-! ## Answers of an encoder -/

variable {encoder : SegmentEncoder} {ctx : EncodeContext} {rows : List WalRow}

/-- The encoder answers with a segment that passes the contract although one of its ends
lies strictly between two neighbouring rows. -/
def EncodesInGap (encoder : SegmentEncoder) (ctx : EncodeContext) (before rows : List WalRow) :
    Prop :=
  ∃ s first last, encoder.answer ctx before rows = .ok (some s) ∧ rows.head? = some first ∧
    rows.getLast? = some last ∧ meetsContract s rows first last = true ∧
      (InGap rows s.first_ts ∨ InGap rows s.last_ts)

/-- Every segment that `materialize_after` makes of the rows spans rows. -/
def SpansMade (encoder : SegmentEncoder) (ctx : EncodeContext) (before rows : List WalRow) :
    Prop :=
  ∀ s, materializeAfter encoder ctx before rows = .ok (some s) → SpansRows rows s

theorem spansMade_iff (hs : rows.Pairwise fun r r' => r.ts < r'.ts) (before : List WalRow) :
    SpansMade encoder ctx before rows ↔ ¬ EncodesInGap encoder ctx before rows := by
  constructor
  · rintro h ⟨s, first, last, ho, hf, hl, hc, hgap⟩
    have hspan := h s (materializeAfter_eq_some.mpr ⟨first, last, hf, hl, ho, hc⟩)
    obtain ⟨hgf, hgl⟩ := (spansRows_iff hs hf hl hc).mp hspan
    exact hgap.elim hgf hgl
  · intro h s hm
    obtain ⟨first, last, hf, hl, ho, hc⟩ := materializeAfter_eq_some.mp hm
    refine (spansRows_iff hs hf hl hc).mpr ⟨fun hg => h ?_, fun hg => h ?_⟩
    · exact ⟨s, first, last, ho, hf, hl, hc, .inl hg⟩
    · exact ⟨s, first, last, ho, hf, hl, hc, .inr hg⟩

/-! ## The encodes of a seal -/

/-- The parts of a split with what came before each. -/
def partCalls : List WalRow → List (List WalRow) → List (List WalRow × List WalRow)
  | _, [] => []
  | before, part :: parts => (before, part) :: partCalls (before ++ part) parts

/-- The encodes a seal of some rows may ask for: the parts of the split, each after the
rows before it, and the whole run. -/
def sealCalls (rows : List WalRow) (max_rows : Nat) : List (List WalRow × List WalRow) :=
  ([], rows) :: partCalls [] (rows.chunksOf (max max_rows 1))

theorem splitParts_calls : ∀ {chunks : List (List WalRow)} {before : List WalRow}
    {parts : List Segment} {s : Segment},
    splitParts encoder ctx before chunks = .ok (some parts) → s ∈ parts →
      ∃ c ∈ partCalls before chunks, materializeAfter encoder ctx c.1 c.2 = .ok (some s)
  | [], _, parts, s, h, hs => by
      obtain rfl := splitParts_nil h
      exact absurd hs (by simp)
  | chunk :: chunks, before, parts, s, h, hs => by
      obtain ⟨segment, rest, rfl, hm, -, hrest⟩ := splitParts_cons h
      rcases List.mem_cons.mp hs with rfl | hs
      · exact ⟨(before, chunk), by simp [partCalls], hm⟩
      · obtain ⟨c, hc, hmc⟩ := splitParts_calls hrest hs
        exact ⟨c, by simp [partCalls, hc], hmc⟩

/-- Every segment of a seal is the answer to one of its encodes. -/
theorem splitSeal_calls {max_rows : Nat} {parts : List Segment} {s : Segment}
    (h : splitSeal encoder ctx rows max_rows = .ok parts) (hs : s ∈ parts) :
    ∃ c ∈ sealCalls rows max_rows, materializeAfter encoder ctx c.1 c.2 = .ok (some s) := by
  rcases splitSeal_cases h with ⟨answer, ha, rfl⟩ | ⟨-, hsplit⟩
  · obtain rfl : answer = some s := by simpa using hs
    exact ⟨([], rows), by simp [sealCalls], ha⟩
  · obtain ⟨c, hc, hm⟩ := splitParts_calls hsplit hs
    exact ⟨c, List.mem_cons_of_mem _ hc, hm⟩

theorem partCalls_mem : ∀ {chunks : List (List WalRow)} {before : List WalRow}
    {c : List WalRow × List WalRow}, c ∈ partCalls before chunks → c.2 ∈ chunks
  | [], _, _, h => absurd h (by simp [partCalls])
  | chunk :: chunks, before, c, h => by
      rcases List.mem_cons.mp h with rfl | h
      · simp
      · exact List.mem_cons_of_mem _ (partCalls_mem h)

/-- The rows of an encode are some of the rows sealed. -/
theorem sealCalls_sublist {max_rows : Nat} {c : List WalRow × List WalRow}
    (h : c ∈ sealCalls rows max_rows) : c.2.Sublist rows := by
  rcases List.mem_cons.mp h with rfl | h
  · exact List.Sublist.refl _
  · have hchunk := partCalls_mem h
    rw [← List.flatten_chunksOf (show 0 < max max_rows 1 by omega) rows]
    exact List.sublist_flatten_of_mem hchunk

/-- What a seal of some rows relies on: every segment its encodes make spans rows, and the
row whose timestamp is the last part's `last_ts` is there to be found. -/
structure SealSpans (encoder : SegmentEncoder) (ctx : EncodeContext) (rows : List WalRow)
    (max_rows : Nat) : Prop where
  made : ∀ c ∈ sealCalls rows max_rows, SpansMade encoder ctx c.1 c.2
  found : ∀ parts tail, splitSeal encoder ctx rows max_rows = .ok parts →
    parts.getLast? = some tail → (rows.reverse.find? (·.ts = tail.last_ts)).isSome

/--
**A materialised segment spans rows exactly when the encoder does not end it in a gap.**
The count accepts a span that reaches into the gap before the next row; a seal whose last
part ends there finds no row at its end and takes the writer down.
-/
theorem segment_spans_rows_iff (encoder : SegmentEncoder) (ctx : EncodeContext)
    {rows : List WalRow} (hs : rows.Pairwise fun r r' => r.ts < r'.ts) :
    (∀ before, SpansMade encoder ctx before rows ↔ ¬ EncodesInGap encoder ctx before rows) ∧
      ∀ max_rows, SealSpans encoder ctx rows max_rows ↔
        ∀ c ∈ sealCalls rows max_rows, ¬ EncodesInGap encoder ctx c.1 c.2 := by
  have hiff : ∀ {max_rows : Nat}, ∀ c ∈ sealCalls rows max_rows,
      (SpansMade encoder ctx c.1 c.2 ↔ ¬ EncodesInGap encoder ctx c.1 c.2) := fun c hc =>
    spansMade_iff (hs.sublist (sealCalls_sublist hc)) c.1
  refine ⟨spansMade_iff hs, fun max_rows => ⟨fun h c hc => (hiff c hc).mp (h.made c hc), fun h => ?_⟩⟩
  have hmade : ∀ c ∈ sealCalls rows max_rows, SpansMade encoder ctx c.1 c.2 := fun c hc =>
    (hiff c hc).mpr (h c hc)
  refine ⟨hmade, fun parts tail hseal htail => ?_⟩
  obtain ⟨c, hc, hm⟩ := splitSeal_calls hseal (List.mem_of_getLast? htail)
  obtain ⟨before, run, after, hrows, -, hlast, -⟩ := hmade c hc tail hm
  obtain ⟨r, hr, hts⟩ := Option.map_eq_some_iff.mp hlast
  have hmem : r ∈ c.2 := by
    rw [hrows]
    simp [List.mem_of_getLast? hr]
  rw [List.find?_isSome]
  exact ⟨r, by simpa using (sealCalls_sublist hc).subset hmem, by simpa using hts⟩

/-- An encoder that keeps the first row and closes the segment where it is told to. -/
def closesAt (last_ts : Int64) : SegmentEncoder where
  encode _ rows := .ok (rows.head?.map fun r =>
    { bytes := r.row, rows := 1, first_ts := r.ts, last_ts, index := none })
  version := none
  encode_after _ _ _ := .ok none

/-- A row of the stream `cpu`. -/
def cpuRow (ts : Int64) : WalRow := { stream := "cpu", ts, wall_offset := 0, row := [1] }

theorem segment_spans_rows_iff_cpu :
    (∀ before, SpansMade (closesAt 1) ⟨1, none, "cpu"⟩ before [cpuRow 1, cpuRow 5] ↔
        ¬ EncodesInGap (closesAt 1) ⟨1, none, "cpu"⟩ before [cpuRow 1, cpuRow 5]) ∧
      ∀ max_rows, SealSpans (closesAt 1) ⟨1, none, "cpu"⟩ [cpuRow 1, cpuRow 5] max_rows ↔
        ∀ c ∈ sealCalls [cpuRow 1, cpuRow 5] max_rows,
          ¬ EncodesInGap (closesAt 1) ⟨1, none, "cpu"⟩ c.1 c.2 :=
  segment_spans_rows_iff (closesAt 1) ⟨1, none, "cpu"⟩ (by decide)

/-- Rows at 1 and 5, and an encoder that closes their segment at 3: `materialize` accepts
it, no row is there, and the seal that looks for one ends the writer thread. -/
theorem segment_closed_in_gap :
    (∃ s, materialize (closesAt 3) ⟨1, none, "cpu"⟩ [cpuRow 1, cpuRow 5] = .ok (some s) ∧
      ∀ r ∈ [cpuRow 1, cpuRow 5], r.ts ≠ s.last_ts) ∧
    let env := { Env.idle with encoder := closesAt 3 }
    let w := (World.create .table).run [
      .message env (.addSource { labels := ∅, metadata := ∅, clock_anchor_wall_ns := 0 } none) [],
      .message env (.wal [(1, [cpuRow 1, cpuRow 5])]) []]
    w.mem.isSome ∧ (w.disk.db.liveWal 1 "cpu") = [cpuRow 1, cpuRow 5] ∧
      (w.apply (.message env (.seal 1 ["cpu"] 10) [])).mem.isNone := by
  refine ⟨⟨_, rfl, by decide⟩, ?_⟩
  decide

end Dendro
