import Dendro.Segment
import Dendro.Lib.Fallible
import Dendro.Lib.Spans

/-!
# What a seal makes of a stream's rows

Whatever the encoder answers, the segments of one seal describe consecutive parts of the
rows that were sealed: `splitSeal_sealOf`. With the rows in timestamp order the segments are
laid end to end (`parts_laid`), inside the span of the rows.

An encoder that **keeps every row** puts all of its rows into the segment it answers with.
Its segments then hold exactly the rows that were sealed, each inside its segment's span.
-/

namespace Dendro

open Spans

/-- A segment that `materialize` accepted for some rows. -/
def SegmentOf (encoder : SegmentEncoder) (ctx : EncodeContext) (rows : List WalRow)
    (s : Segment) : Prop :=
  ∃ before, materializeAfter encoder ctx before rows = .ok (some s)

/-- Segments for consecutive parts of some rows, or none at all. -/
def SealOf (encoder : SegmentEncoder) (ctx : EncodeContext) (rows : List WalRow)
    (parts : List Segment) : Prop :=
  parts = [] ∨ ∃ chunks, chunks.flatten = rows ∧ List.Forall₂ (SegmentOf encoder ctx) chunks parts

variable {encoder : SegmentEncoder} {ctx : EncodeContext} {rows : List WalRow} {s : Segment}

/-! ## Rows in order -/

theorem head?_le {rows : List WalRow} (hs : rows.Pairwise fun r r' => r.ts < r'.ts) {r : WalRow}
    (hr : r ∈ rows) : ∃ first ∈ rows.head?, first.ts ≤ r.ts := by
  rcases rows with _ | ⟨a, rows⟩
  · exact absurd hr (by simp)
  · refine ⟨a, by simp, ?_⟩
    rcases List.mem_cons.mp hr with rfl | hr
    · exact le_refl _
    · exact le_of_lt ((List.pairwise_cons.mp hs).1 r hr)

theorem le_getLast? {rows : List WalRow} (hs : rows.Pairwise fun r r' => r.ts < r'.ts)
    {r : WalRow} (hr : r ∈ rows) : ∃ last ∈ rows.getLast?, r.ts ≤ last.ts := by
  rcases List.eq_nil_or_concat rows with rfl | ⟨init, a, rfl⟩
  · exact absurd hr (by simp)
  · rw [List.concat_eq_append] at hs hr ⊢
    refine ⟨a, by simp, ?_⟩
    rcases List.mem_append.mp hr with hr | hr
    · exact le_of_lt ((List.pairwise_append.mp hs).2.2 r hr a (by simp))
    · rw [List.mem_singleton.mp hr]

/-! ## One segment -/

/-- What the encoder answers for some rows of a seal. -/
def SegmentEncoder.answer (encoder : SegmentEncoder) (ctx : EncodeContext)
    (before rows : List WalRow) : EncodeResult :=
  if before.isEmpty then encoder.encode ctx rows else encoder.encode_after ctx before rows

/-- An accepted segment is an answer that meets the contract. -/
theorem materializeAfter_eq_some {before : List WalRow} :
    materializeAfter encoder ctx before rows = .ok (some s) ↔
      ∃ first last, rows.head? = some first ∧ rows.getLast? = some last ∧
        encoder.answer ctx before rows = .ok (some s) ∧ meetsContract s rows first last = true := by
  unfold materializeAfter SegmentEncoder.answer
  constructor
  · intro h
    split at h
    case h_2 => exact absurd h (by simp)
    case h_1 first last hf hl =>
      dsimp only at h
      split at h
      case h_1 | h_2 | h_3 => exact absurd h (by simp)
      case h_4 segment ho =>
        split at h
        case isFalse => exact absurd h (by simp)
        case isTrue hc =>
          obtain rfl := Option.some.inj (Except.ok.inj h)
          exact ⟨first, last, hf, hl, ho, hc⟩
  · rintro ⟨first, last, hf, hl, ho, hc⟩
    simp only [hf, hl, ho, hc, if_true]

theorem SegmentOf.encoded (h : SegmentOf encoder ctx rows s) :
    (encoder.encode ctx rows = .ok (some s) ∨
      ∃ before, encoder.encode_after ctx before rows = .ok (some s)) ∧
    ∃ first last, rows.head? = some first ∧ rows.getLast? = some last ∧
      meetsContract s rows first last = true := by
  obtain ⟨before, h⟩ := h
  obtain ⟨first, last, hf, hl, ho, hc⟩ := materializeAfter_eq_some.mp h
  refine ⟨?_, first, last, hf, hl, hc⟩
  unfold SegmentEncoder.answer at ho
  by_cases hb : before.isEmpty
  · exact .inl (by rwa [if_pos hb] at ho)
  · exact .inr ⟨before, by rwa [if_neg hb] at ho⟩

/-- What every accepted segment is: some rows, over a span inside that of its input. -/
theorem SegmentOf.span (h : SegmentOf encoder ctx rows s) :
    1 ≤ s.rows.toNat ∧ s.first_ts ≤ s.last_ts ∧ (∃ r ∈ rows, r.ts ≤ s.first_ts) ∧
      (∃ r ∈ rows, s.last_ts ≤ r.ts) ∧ s.rows.toNat = covered rows s := by
  obtain ⟨-, first, last, hf, hl, hc⟩ := h.encoded
  simp only [meetsContract, Bool.and_eq_true, decide_eq_true_eq, ne_eq] at hc
  obtain ⟨⟨⟨⟨hrows, hspan⟩, hfirst⟩, hlast⟩, hcount⟩ := hc
  refine ⟨?_, hspan, ⟨first, List.mem_of_head? hf, hfirst⟩, ⟨last, List.mem_of_getLast? hl, hlast⟩,
    hcount⟩
  exact Nat.one_le_iff_ne_zero.mpr fun h0 => by simp [← UInt64.toNat_inj, h0] at hrows

/-! ## The parts of a seal -/

/-- What a split that was not abandoned did with its first chunk. -/
theorem splitParts_cons {chunk before : List WalRow} {chunks : List (List WalRow)}
    {parts : List Segment} (h : splitParts encoder ctx before (chunk :: chunks) = .ok (some parts)) :
    ∃ s rest, parts = s :: rest ∧ materializeAfter encoder ctx before chunk = .ok (some s) ∧
      tiles s chunk before.isEmpty chunks.isEmpty = true ∧
      splitParts encoder ctx (before ++ chunk) chunks = .ok (some rest) := by
  unfold splitParts at h
  rcases hm : materializeAfter encoder ctx before chunk with e | _ | segment
  · simp [hm] at h
  · simp [hm] at h
  · rw [hm] at h
    simp only [Except.bind_eq_ok, Except.ok.injEq, exists_eq_left'] at h
    split at h
    · rename_i htiles
      simp only [Except.bind_eq_ok, Except.pure_eq_ok, Option.map_eq_some_iff] at h
      obtain ⟨_, hrest, rest, rfl, rfl⟩ := h
      exact ⟨segment, rest, rfl, rfl, htiles, hrest⟩
    · exact absurd (Except.pure_eq_ok.mp h) (by simp)

theorem splitParts_nil {before : List WalRow} {parts : List Segment}
    (h : splitParts encoder ctx before [] = .ok (some parts)) : parts = [] :=
  (Option.some.inj (Except.ok.inj h)).symm

theorem splitParts_forall₂ : ∀ {chunks : List (List WalRow)} {before : List WalRow}
    {parts : List Segment}, splitParts encoder ctx before chunks = .ok (some parts) →
      List.Forall₂ (SegmentOf encoder ctx) chunks parts
  | [], _, parts, h => by
      obtain rfl := splitParts_nil h
      exact .nil
  | chunk :: chunks, before, parts, h => by
      obtain ⟨s, rest, rfl, hm, -, hrest⟩ := splitParts_cons h
      exact .cons ⟨before, hm⟩ (splitParts_forall₂ hrest)

/-- A capped seal is the whole run as one segment, or a split that was not abandoned. -/
theorem splitSeal_cases {max_rows : Nat} {parts : List Segment}
    (h : splitSeal encoder ctx rows max_rows = .ok parts) :
    (∃ answer, materialize encoder ctx rows = .ok answer ∧ parts = answer.toList) ∨
      (max max_rows 1 < rows.length ∧
        splitParts encoder ctx [] (rows.chunksOf (max max_rows 1)) = .ok (some parts)) := by
  have hwhole : (do return (← materialize encoder ctx rows).toList : Except Error _) = .ok parts →
      ∃ answer, materialize encoder ctx rows = .ok answer ∧ parts = answer.toList := by
    intro h
    simp only [Except.bind_eq_ok, Except.pure_eq_ok] at h
    obtain ⟨answer, ha, rfl⟩ := h
    exact ⟨answer, ha, rfl⟩
  unfold splitSeal at h
  dsimp only at h
  split at h
  · exact .inl (hwhole h)
  · simp only [Except.bind_eq_ok] at h
    obtain ⟨split, hs, h⟩ := h
    cases split with
    | none => exact .inl (hwhole h)
    | some ps =>
        obtain rfl := Except.pure_eq_ok.mp h
        exact .inr ⟨by omega, hs⟩

/-- **The segments of a seal describe consecutive parts of the rows sealed.** -/
theorem splitSeal_sealOf {max_rows : Nat} {parts : List Segment}
    (h : splitSeal encoder ctx rows max_rows = .ok parts) : SealOf encoder ctx rows parts := by
  rcases splitSeal_cases h with ⟨answer, ha, rfl⟩ | ⟨-, hsplit⟩
  · cases answer with
    | none => exact .inl rfl
    | some s => exact .inr ⟨[rows], by simp, .cons ⟨[], ha⟩ .nil⟩
  · exact .inr ⟨_, List.flatten_chunksOf (by omega) rows, splitParts_forall₂ hsplit⟩

/-- Every part of a seal is a segment of some of the rows, in their order. -/
theorem SealOf.mem {parts : List Segment} (h : SealOf encoder ctx rows parts) (hs : s ∈ parts) :
    ∃ part, SegmentOf encoder ctx part s ∧ part.Sublist rows := by
  rcases h with rfl | ⟨chunks, rfl, hall⟩
  · exact absurd hs (by simp)
  · induction hall with
    | nil => exact absurd hs (by simp)
    | @cons chunk _ chunks _ hof _ ih =>
        rcases List.mem_cons.mp hs with rfl | hs
        · exact ⟨chunk, hof, by simp⟩
        · obtain ⟨part, hpart, hsub⟩ := ih hs
          exact ⟨part, hpart, hsub.trans (List.sublist_append_right _ _)⟩

theorem forall₂_laid : ∀ {chunks : List (List WalRow)} {parts : List Segment},
    List.Forall₂ (SegmentOf encoder ctx) chunks parts →
      chunks.flatten.Pairwise (fun r r' => r.ts < r'.ts) →
        Laid Segment.first_ts Segment.last_ts parts
  | _, _, .nil, _ => .nil
  | chunk :: chunks, s :: parts, .cons hof hall, hsorted => by
      rw [List.flatten_cons, List.pairwise_append] at hsorted
      obtain ⟨-, htail, hcross⟩ := hsorted
      refine .append (.singleton hof.span.2.1) (forall₂_laid hall htail) ?_
      intro s' hs' t ht
      obtain rfl := List.mem_singleton.mp hs'
      obtain ⟨part, hpart, hsub⟩ := SealOf.mem (.inr ⟨chunks, rfl, hall⟩) ht
      obtain ⟨-, -, -, ⟨r, hr, hle⟩, -⟩ := hof.span
      obtain ⟨-, -, ⟨r', hr', hle'⟩, -, -⟩ := hpart.span
      calc s'.last_ts ≤ r.ts := hle
        _ < r'.ts := hcross r hr r' (hsub.subset hr')
        _ ≤ t.first_ts := hle'

/-- **Rows in timestamp order seal into segments laid end to end.** -/
theorem SealOf.laid {parts : List Segment} (h : SealOf encoder ctx rows parts)
    (hsorted : rows.Pairwise fun r r' => r.ts < r'.ts) :
    Laid Segment.first_ts Segment.last_ts parts := by
  rcases h with rfl | ⟨chunks, rfl, hall⟩
  · exact .nil
  · exact forall₂_laid hall hsorted

/-! ## Encoders that keep every row -/

/-- A way to read the rows out of a segment's bytes, for each stream. -/
abbrev Decoder := StreamKey → Bytes → List WalRow

/-- An encoder that keeps every row it is given: a segment it answers with decodes to the
rows, and counts them. It may still answer with nothing, fail or panic. -/
def KeepsEveryRow (dec : Decoder) (encoder : SegmentEncoder) : Prop :=
  ∀ ctx rows s, encoder.encode ctx rows = .ok (some s) ∨
      (∃ before, encoder.encode_after ctx before rows = .ok (some s)) →
    dec (streamKey ctx.source_id ctx.stream) s.bytes = rows ∧ s.rows.toNat = rows.length

/-- The segments of such an encoder hold their rows, each inside the segment's span. -/
theorem SegmentOf.keeps {dec : Decoder} (hk : KeepsEveryRow dec encoder)
    (h : SegmentOf encoder ctx rows s) :
    dec (streamKey ctx.source_id ctx.stream) s.bytes = rows ∧
      ∀ r ∈ rows, s.first_ts ≤ r.ts ∧ r.ts ≤ s.last_ts := by
  obtain ⟨hdec, hlen⟩ := hk ctx rows s h.encoded.1
  refine ⟨hdec, fun r hr => ?_⟩
  obtain ⟨-, -, -, -, hcount⟩ := h.span
  have hall := List.length_filter_eq_length_iff.mp (hcount.symm.trans hlen) r hr
  simpa using hall

/-- **A seal by such an encoder holds exactly the rows sealed.** -/
theorem SealOf.keeps {dec : Decoder} (hk : KeepsEveryRow dec encoder) {parts : List Segment}
    (h : SealOf encoder ctx rows parts) (hne : parts ≠ []) :
    parts.flatMap (fun s => dec (streamKey ctx.source_id ctx.stream) s.bytes) = rows := by
  rcases h with rfl | ⟨chunks, rfl, hall⟩
  · exact absurd rfl hne
  · clear hne
    induction hall with
    | nil => rfl
    | cons hof _ ih => rw [List.flatMap_cons, List.flatten_cons, (hof.keeps hk).1, ih]

end Dendro
