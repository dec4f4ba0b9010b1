import Dendro.SegmentProof

/-!
# A capped seal tiles its rows

A split that was not abandoned cuts the rows into chunks, and its parts meet at the cuts: a
part ends at the last row of its chunk unless it is the last part, and starts at the first row
of its chunk unless it is the first. `Tiles` is that shape, read off the recursion of
`splitParts`; that no row falls between two parts, and that the inner parts are full, are
inductions on it.
-/

namespace Dendro

open Spans

variable {encoder : SegmentEncoder} {ctx : EncodeContext} {rows : List WalRow} {s : Segment}

/-- Rows in timestamp order. -/
abbrev Ascending (rows : List WalRow) : Prop := rows.Pairwise fun r r' => r.ts < r'.ts

/-- Whether a row is within the span of a segment. -/
abbrev Segment.Spans (s : Segment) (r : WalRow) : Prop := s.first_ts ≤ r.ts ∧ r.ts ≤ s.last_ts

/-- The parts of a split and the chunks they were made of; `isFirst` says whether the first
chunk is the first of the whole run. -/
inductive Tiles (encoder : SegmentEncoder) (ctx : EncodeContext) :
    Bool → List (List WalRow) → List Segment → Prop where
  | last {isFirst : Bool} {chunk : List WalRow} {s : Segment} : SegmentOf encoder ctx chunk s →
      (isFirst = false → chunk.head?.map (·.ts) = some s.first_ts) →
      Tiles encoder ctx isFirst [chunk] [s]
  | cons {isFirst : Bool} {chunk : List WalRow} {s : Segment} {chunks : List (List WalRow)}
      {parts : List Segment} : SegmentOf encoder ctx chunk s →
      (isFirst = false → chunk.head?.map (·.ts) = some s.first_ts) →
      chunk.getLast?.map (·.ts) = some s.last_ts → Tiles encoder ctx false chunks parts →
      Tiles encoder ctx isFirst (chunk :: chunks) (s :: parts)

/-- **A split that was not abandoned tiles.** -/
theorem splitParts_tiles : ∀ {chunks : List (List WalRow)} {before : List WalRow}
    {parts : List Segment}, chunks ≠ [] → (∀ c ∈ chunks, c ≠ []) →
      splitParts encoder ctx before chunks = .ok (some parts) →
      Tiles encoder ctx before.isEmpty chunks parts
  | [], _, _, hne, _, _ => absurd rfl hne
  | chunk :: chunks, before, parts, _, hfull, h => by
      obtain ⟨segment, rest, rfl, hm, htiles, hrest⟩ := splitParts_cons h
      simp only [tiles, Bool.and_eq_true, Bool.or_eq_true, decide_eq_true_eq] at htiles
      obtain ⟨hhead, hlast⟩ := htiles
      have hstart : before.isEmpty = false →
          chunk.head?.map (·.ts) = some segment.first_ts := fun hb => by
        rcases hhead with hempty | hhead
        · rw [hb] at hempty
          exact absurd hempty (by simp)
        · exact hhead
      cases chunks with
      | nil =>
          obtain rfl := splitParts_nil hrest
          exact .last ⟨before, hm⟩ hstart
      | cons next chunks =>
          have hrows : (before ++ chunk).isEmpty = false := by
            rcases hc : chunk with _ | ⟨r, rs⟩
            · exact absurd hc (hfull chunk List.mem_cons_self)
            · simp
          have hend : chunk.getLast?.map (·.ts) = some segment.last_ts := by
            rcases hlast with hempty | hlast
            · exact absurd hempty (by simp)
            · exact hlast
          have hparts := splitParts_tiles (by simp)
            (fun c hc => hfull c (List.mem_cons_of_mem _ hc)) hrest
          rw [hrows] at hparts
          exact .cons ⟨before, hm⟩ hstart hend hparts

section Tiles

variable {isFirst : Bool} {chunks : List (List WalRow)} {parts : List Segment}

theorem Tiles.forall₂ (h : Tiles encoder ctx isFirst chunks parts) :
    List.Forall₂ (SegmentOf encoder ctx) chunks parts := by
  induction h with
  | last hof _ => exact .cons hof .nil
  | cons hof _ _ _ ih => exact .cons hof ih

theorem first_le (hs : Ascending rows) {ts : Int64} (hf : rows.head?.map (·.ts) = some ts)
    {r : WalRow} (hr : r ∈ rows) : ts ≤ r.ts := by
  obtain ⟨first, hfirst, hle⟩ := head?_le hs hr
  obtain ⟨first', hfirst', rfl⟩ := Option.map_eq_some_iff.mp hf
  obtain rfl := Option.some.inj (hfirst.symm.trans hfirst')
  exact hle

theorem le_last (hs : Ascending rows) {ts : Int64} (hl : rows.getLast?.map (·.ts) = some ts)
    {r : WalRow} (hr : r ∈ rows) : r.ts ≤ ts := by
  obtain ⟨last, hlast, hle⟩ := le_getLast? hs hr
  obtain ⟨last', hlast', rfl⟩ := Option.map_eq_some_iff.mp hl
  obtain rfl := Option.some.inj (hlast.symm.trans hlast')
  exact hle

/-- Between the start of the first part and the end of the last, every row is in a part. -/
theorem Tiles.cover (h : Tiles encoder ctx isFirst chunks parts) (hs : Ascending chunks.flatten)
    {r : WalRow} (hr : r ∈ chunks.flatten) :
    (∃ s ∈ parts, s.Spans r) ∨ (isFirst = true ∧ ∃ s, parts.head? = some s ∧ r.ts < s.first_ts) ∨
      ∃ s, parts.getLast? = some s ∧ s.last_ts < r.ts := by
  induction h with
  | @last isFirst chunk s hof hhead =>
      rw [List.flatten_singleton] at hr hs
      by_cases hlo : s.first_ts ≤ r.ts
      · by_cases hhi : r.ts ≤ s.last_ts
        · exact .inl ⟨s, by simp, hlo, hhi⟩
        · exact .inr (.inr ⟨s, rfl, not_le.mp hhi⟩)
      · cases isFirst with
        | true => exact .inr (.inl ⟨rfl, s, rfl, not_le.mp hlo⟩)
        | false =>
            -- the part starts where its chunk does
            exact absurd (first_le hs (hhead rfl) hr) hlo
  | @cons isFirst chunk s chunks parts hof hhead hlast hrest ih =>
      rw [List.flatten_cons] at hr hs
      obtain ⟨hchunk, htail, hcross⟩ := List.pairwise_append.mp hs
      have hparts : parts ≠ [] := by
        rintro rfl
        cases hrest
      rcases List.mem_append.mp hr with hr | hr
      · have hhi : r.ts ≤ s.last_ts := le_last hchunk hlast hr
        by_cases hlo : s.first_ts ≤ r.ts
        · exact .inl ⟨s, by simp, hlo, hhi⟩
        · cases isFirst with
          | true => exact .inr (.inl ⟨rfl, s, rfl, not_le.mp hlo⟩)
          | false => exact absurd (first_le hchunk (hhead rfl) hr) hlo
      · rcases ih htail hr with ⟨t, ht, hspan⟩ | ⟨hfalse, -⟩ | ⟨t, ht, hlt⟩
        · exact .inl ⟨t, List.mem_cons_of_mem _ ht, hspan⟩
        · exact absurd hfalse (by simp)
        · refine .inr (.inr ⟨t, ?_, hlt⟩)
          rw [List.getLast?_cons_of_ne_nil hparts, ht]

/-- A part counts the rows of the whole run that its span holds: no other chunk has any. -/
theorem forall₂_covered : ∀ {chunks : List (List WalRow)} {parts : List Segment},
    List.Forall₂ (SegmentOf encoder ctx) chunks parts → Ascending chunks.flatten →
      ∀ s ∈ parts, s.rows.toNat = covered chunks.flatten s
  | _, _, .nil, _, _, hs => absurd hs List.not_mem_nil
  | chunk :: chunks, t :: parts, .cons hof hall, hsorted, s, hs => by
      rw [List.flatten_cons] at hsorted ⊢
      obtain ⟨-, htail, hcross⟩ := List.pairwise_append.mp hsorted
      have hsplit : covered (chunk ++ chunks.flatten) s =
          covered chunk s + covered chunks.flatten s := by
        unfold covered
        rw [List.filter_append, List.length_append]
      rw [hsplit]
      rcases List.mem_cons.mp hs with rfl | hs
      · obtain ⟨-, -, -, ⟨r, hr, hle⟩, hcount⟩ := hof.span
        have hnone : covered chunks.flatten s = 0 := by
          unfold covered
          rw [List.length_eq_zero_iff, List.filter_eq_nil_iff]
          intro r' hr'
          have hlt : s.last_ts < r'.ts := lt_of_le_of_lt hle (hcross r hr r' hr')
          simp only [Bool.and_eq_true, decide_eq_true_eq, not_and, not_le]
          exact fun _ => hlt
        rw [hcount, hnone, Nat.add_zero]
      · obtain ⟨part, hpart, hsub⟩ := SealOf.mem (.inr ⟨chunks, rfl, hall⟩) hs
        obtain ⟨-, -, ⟨r', hr', hle'⟩, -, -⟩ := hpart.span
        have hnone : covered chunk s = 0 := by
          unfold covered
          rw [List.length_eq_zero_iff, List.filter_eq_nil_iff]
          intro r hr
          have hlt : r.ts < s.first_ts := lt_of_lt_of_le (hcross r hr r' (hsub.subset hr')) hle'
          simp only [Bool.and_eq_true, decide_eq_true_eq, not_and]
          exact fun hge => absurd hge (not_le.mpr hlt)
        rw [hnone, Nat.zero_add]
        exact forall₂_covered hall htail s hs

/-- A part that meets both its neighbours counts its whole chunk. -/
theorem covered_chunk {chunk : List WalRow} (hof : SegmentOf encoder ctx chunk s)
    (hs : Ascending chunk) (hhead : chunk.head?.map (·.ts) = some s.first_ts)
    (hlast : chunk.getLast?.map (·.ts) = some s.last_ts) : s.rows.toNat = chunk.length := by
  obtain ⟨-, -, -, -, hcount⟩ := hof.span
  rw [hcount]
  unfold covered
  rw [List.length_filter_eq_length_iff]
  intro r hr
  have hlo : s.first_ts ≤ r.ts := first_le hs hhead hr
  have hhi : r.ts ≤ s.last_ts := le_last hs hlast hr
  simp [hlo, hhi]

/-- **The inner parts are full**: they count their whole chunks. -/
theorem Tiles.inner (h : Tiles encoder ctx isFirst chunks parts) (hs : Ascending chunks.flatten)
    {i : Nat} {chunk : List WalRow} (hi : parts[i]? = some s) (hc : chunks[i]? = some chunk)
    (hstart : 0 < i ∨ isFirst = false) (hend : i + 1 < parts.length) :
    s.rows.toNat = chunk.length := by
  induction h generalizing i with
  | last =>
      rw [List.length_singleton] at hend
      omega
  | @cons isFirst c t chunks parts hof hhead hlast hrest ih =>
      rw [List.flatten_cons] at hs
      obtain ⟨hchunk, htail, -⟩ := List.pairwise_append.mp hs
      cases i with
      | zero =>
          obtain rfl := Option.some.inj hi
          obtain rfl := Option.some.inj hc
          have hfalse : isFirst = false := hstart.resolve_left (Nat.lt_irrefl 0)
          exact covered_chunk hof hchunk (hhead hfalse) hlast
      | succ i =>
          rw [List.length_cons] at hend
          exact ih htail hi hc (.inr rfl) (by omega)

end Tiles

/-- Rows in order split at a cut that is closed towards earlier rows. -/
theorem ascending_split {p : Int64 → Prop} [DecidablePred p] (hdown : ∀ a b, a < b → p b → p a) :
    ∀ {rows : List WalRow}, Ascending rows → ∃ lead rest, rows = lead ++ rest ∧
      (∀ r ∈ lead, p r.ts) ∧ ∀ r ∈ rest, ¬p r.ts
  | [], _ => ⟨[], [], rfl, by simp, by simp⟩
  | a :: rows, hs => by
      obtain ⟨hfirst, htail⟩ := List.pairwise_cons.mp hs
      by_cases ha : p a.ts
      · obtain ⟨lead, rest, rfl, hlead, hrest⟩ := ascending_split hdown htail
        refine ⟨a :: lead, rest, rfl, fun r hr => ?_, hrest⟩
        rcases List.mem_cons.mp hr with rfl | hr
        · exact ha
        · exact hlead r hr
      · refine ⟨[], a :: rows, rfl, by simp, fun r hr => ?_⟩
        rcases List.mem_cons.mp hr with rfl | hr
        · exact ha
        · exact fun hp => ha (hdown a.ts r.ts (hfirst r hr) hp)

/-- How the segments of a seal lie over its rows. -/
structure Tiling (encoder : SegmentEncoder) (ctx : EncodeContext) (rows : List WalRow) (cap : Nat)
    (parts : List Segment) : Prop where
  /-- The spans are in increasing order. -/
  laid : Laid Segment.first_ts Segment.last_ts parts
  /-- No row falls between two parts. -/
  meets : ∀ s t, [s, t] <:+: parts → ∀ r ∈ rows, ¬(s.last_ts < r.ts ∧ r.ts < t.first_ts)
  counts : ∀ s ∈ parts, s.rows.toNat = (rows.filter fun r => s.Spans r).length
  /-- The parts cover one run of the rows, all but a lead before the first and a trail after the
  last. -/
  covers : ∀ first last, parts.head? = some first → parts.getLast? = some last →
    ∃ lead run trail, rows = lead ++ run ++ trail ∧ (∀ r ∈ lead, r.ts < first.first_ts) ∧
      (∀ r ∈ run, ∃ s ∈ parts, s.Spans r) ∧ ∀ r ∈ trail, last.last_ts < r.ts
  capped : 1 < parts.length → ∀ s ∈ parts, s.rows.toNat ≤ cap
  full : ∀ (i : Nat) (s : Segment), 0 < i → i + 1 < parts.length → parts[i]? = some s →
    s.rows.toNat = cap
  whole : parts.length ≤ 1 → materialize encoder ctx rows = .ok parts.head?

/-- A capped seal that is not the whole run as one segment tiles. -/
theorem splitSeal_tiled {max_rows : Nat} {parts : List Segment}
    (hover : max max_rows 1 < rows.length)
    (h : splitParts encoder ctx [] (rows.chunksOf (max max_rows 1)) = .ok (some parts)) :
    Tiles encoder ctx true (rows.chunksOf (max max_rows 1)) parts := by
  have hpos : 0 < max max_rows 1 := by omega
  refine splitParts_tiles ?_ (fun c hc => (List.mem_chunksOf hpos hc).1) h
  intro hnil
  have hflat := List.flatten_chunksOf hpos rows
  rw [hnil] at hflat
  rw [← hflat] at hover
  exact Nat.not_lt_zero _ hover

/-- Laid runs: one of two neighbours is before any third, the other after it. -/
theorem infix_laid {parts : List Segment} (h : Laid Segment.first_ts Segment.last_ts parts)
    {s t u : Segment} (hst : [s, t] <:+: parts) (hu : u ∈ parts) :
    u.last_ts ≤ s.last_ts ∨ t.first_ts ≤ u.first_ts := by
  obtain ⟨before, after, rfl⟩ := hst
  have hord := h.ordered
  rw [List.append_assoc, List.pairwise_append] at hord
  obtain ⟨-, hrest, hcross⟩ := hord
  have hspan := h.span
  rw [List.append_assoc, List.mem_append] at hu
  rcases hu with hu | hu
  · have hus : u.last_ts < s.first_ts := hcross u hu s (by simp)
    have hs : s.first_ts ≤ s.last_ts := hspan s (by simp)
    exact .inl (le_of_lt (lt_of_lt_of_le hus hs))
  · have hmem : u = s ∨ u = t ∨ u ∈ after := by simpa using hu
    rcases hmem with rfl | rfl | hu
    · exact .inl (le_refl _)
    · exact .inr (le_refl _)
    · have htail : ∀ x ∈ after, t.last_ts < x.first_ts :=
        fun x hx => (List.pairwise_cons.mp (List.pairwise_cons.mp hrest).2).1 x hx
      have ht : t.first_ts ≤ t.last_ts := hspan t (by simp)
      exact .inr (le_of_lt (lt_of_le_of_lt ht (htail u hu)))

/-- What lies between the first start and the last end of laid runs that cover it. -/
theorem Tiles.tiling {cap : Nat} {chunks : List (List WalRow)} {parts : List Segment}
    (h : Tiles encoder ctx true chunks parts) (hs : Ascending rows) (hflat : chunks.flatten = rows)
    (hcapped : 1 < parts.length → ∀ s ∈ parts, s.rows.toNat ≤ cap)
    (hfull : ∀ (i : Nat) (s : Segment), 0 < i → i + 1 < parts.length → parts[i]? = some s →
      s.rows.toNat = cap)
    (hwhole : parts.length ≤ 1 → materialize encoder ctx rows = .ok parts.head?) :
    Tiling encoder ctx rows cap parts := by
  subst hflat
  have hlaid := forall₂_laid h.forall₂ hs
  have hcover : ∀ r ∈ chunks.flatten, (∃ s ∈ parts, s.Spans r) ∨
      (∃ s, parts.head? = some s ∧ r.ts < s.first_ts) ∨
      ∃ s, parts.getLast? = some s ∧ s.last_ts < r.ts := by
    intro r hr
    rcases h.cover hs hr with hin | ⟨-, hbefore⟩ | hafter
    · exact .inl hin
    · exact .inr (.inl hbefore)
    · exact .inr (.inr hafter)
  refine ⟨hlaid, fun s t hst r hr ⟨hlt, hlt'⟩ => ?_, fun s hmem => ?_, fun first last hf hl => ?_,
    hcapped, hfull, hwhole⟩
  · have hsmem : s ∈ parts := hst.subset (by simp)
    have htmem : t ∈ parts := hst.subset (by simp)
    rcases hcover r hr with ⟨u, hu, hlo, hhi⟩ | ⟨u, hu, hbefore⟩ | ⟨u, hu, hafter⟩
    · rcases infix_laid hlaid hst hu with hle | hle
      · exact absurd (lt_of_lt_of_le hlt hhi) (not_lt.mpr hle)
      · exact absurd (lt_of_le_of_lt hlo hlt') (not_lt.mpr hle)
    · -- the first part starts no later than `s`
      have hle : u.first_ts ≤ s.first_ts := by
        obtain ⟨parts', rfl⟩ := List.head?_eq_some_iff.mp hu
        rcases List.mem_cons.mp hsmem with rfl | hmem
        · exact le_refl _
        · have hus := (List.pairwise_cons.mp hlaid.ordered).1 s hmem
          exact le_of_lt (lt_of_le_of_lt (hlaid.span u List.mem_cons_self) hus)
      have hspan : s.first_ts ≤ s.last_ts := hlaid.span s hsmem
      exact absurd (lt_trans (lt_of_lt_of_le hbefore hle) (lt_of_le_of_lt hspan hlt)) (lt_irrefl _)
    · have hle : t.last_ts ≤ u.last_ts := by
        obtain ⟨init, rfl⟩ := List.getLast?_eq_some_iff.mp hu
        rcases List.mem_append.mp htmem with hmem | hmem
        · have htu := (List.pairwise_append.mp hlaid.ordered).2.2 t hmem u (by simp)
          exact le_of_lt (lt_of_lt_of_le htu (hlaid.span u (by simp)))
        · rw [List.mem_singleton.mp hmem]
      have hspan : t.first_ts ≤ t.last_ts := hlaid.span t htmem
      exact absurd (lt_trans (lt_of_lt_of_le hlt' hspan) (lt_of_le_of_lt hle hafter)) (lt_irrefl _)
  · rw [forall₂_covered h.forall₂ hs s hmem]
    unfold covered
    refine congrArg List.length (List.filter_congr fun r _ => ?_)
    rw [Bool.decide_and]
  · obtain ⟨lead, rest, hsplit, hlead, hrest⟩ :=
      ascending_split (p := (· < first.first_ts)) (fun _ _ hab hb => lt_trans hab hb) hs
    have hsrest : Ascending rest := by
      rw [hsplit] at hs
      exact (List.pairwise_append.mp hs).2.1
    obtain ⟨run, trail, rfl, hrun, htrail⟩ :=
      ascending_split (p := (· ≤ last.last_ts)) (fun _ _ hab hb => le_of_lt (lt_of_lt_of_le hab hb))
        hsrest
    refine ⟨lead, run, trail, by rw [hsplit, List.append_assoc], hlead, fun r hr => ?_,
      fun r hr => not_le.mp (htrail r hr)⟩
    have hmem : r ∈ chunks.flatten := by
      rw [hsplit]
      exact List.mem_append_right _ (List.mem_append_left _ hr)
    rcases hcover r hmem with hin | ⟨u, hu, hbefore⟩ | ⟨u, hu, hafter⟩
    · exact hin
    · rw [hf] at hu
      obtain rfl := Option.some.inj hu
      exact absurd hbefore (hrest r (List.mem_append_left _ hr))
    · rw [hl] at hu
      obtain rfl := Option.some.inj hu
      exact absurd hafter (not_lt.mpr (hrun r hr))

/-- **A capped seal tiles its rows**, whatever the encoder answers. -/
theorem split_seal_tiles (encoder : SegmentEncoder) (ctx : EncodeContext) {rows : List WalRow}
    (hs : Ascending rows) {max_rows : Nat} {parts : List Segment}
    (h : splitSeal encoder ctx rows max_rows = .ok parts) :
    Tiling encoder ctx rows (max max_rows 1) parts := by
  rcases splitSeal_cases h with ⟨answer, hanswer, rfl⟩ | ⟨hover, hsplit⟩
  · cases answer with
    | none =>
        refine ⟨.nil, fun s t hst => ?_, by simp, by simp, by simp, by simp, fun _ => hanswer⟩
        exact absurd (hst.subset List.mem_cons_self) List.not_mem_nil
    | some s =>
        have hof : Tiles encoder ctx true [rows] [s] := .last ⟨[], hanswer⟩ (by simp)
        refine hof.tiling hs (by simp) ?_ ?_ fun _ => hanswer
        · intro hlen
          exact absurd hlen (by simp)
        · intro i t hi hlen
          have hone : i + 1 < 1 := hlen
          omega
  · have htiles := splitSeal_tiled hover hsplit
    have hpos : 0 < max max_rows 1 := by omega
    have hflat := List.flatten_chunksOf hpos rows
    have hsflat : Ascending (rows.chunksOf (max max_rows 1)).flatten := by
      rw [hflat]
      exact hs
    have hlen := htiles.forall₂.length_eq
    -- more rows than the cap are more chunks than one
    have hmany : 1 < parts.length := by
      by_contra hle
      have hone : (rows.chunksOf (max max_rows 1)).length ≤ 1 := by omega
      rcases hc : rows.chunksOf (max max_rows 1) with _ | ⟨c, _ | ⟨d, cs⟩⟩
      · rw [hc] at hflat
        rw [← hflat] at hover
        exact absurd hover (by simp)
      · rw [hc, List.flatten_singleton] at hflat
        have hclen := (List.mem_chunksOf hpos (hc ▸ List.mem_singleton.mpr rfl :
          c ∈ rows.chunksOf (max max_rows 1))).2
        rw [hflat] at hclen
        omega
      · rw [hc, List.length_cons, List.length_cons] at hone
        omega
    have hchunk : ∀ {i : Nat} {s : Segment}, parts[i]? = some s → ∃ chunk,
        (rows.chunksOf (max max_rows 1))[i]? = some chunk ∧ SegmentOf encoder ctx chunk s := by
      intro i s hi
      have hbound := (List.getElem?_eq_some_iff.mp hi).1
      refine ⟨_, List.getElem?_eq_getElem (hlen ▸ hbound), ?_⟩
      rw [← (List.getElem?_eq_some_iff.mp hi).2]
      exact htiles.forall₂.get _ _
    refine htiles.tiling hs hflat (fun _ s hmem => ?_) (fun i s hi hlast hget => ?_)
      fun hle => absurd hmany (Nat.not_lt.mpr hle)
    · obtain ⟨i, hi⟩ := List.mem_iff_getElem?.mp hmem
      obtain ⟨chunk, hc, hof⟩ := hchunk hi
      have hcount : s.rows.toNat = covered chunk s := hof.span.2.2.2.2
      have hle : covered chunk s ≤ chunk.length := List.length_filter_le _ _
      have hcap := (List.mem_chunksOf hpos (List.mem_of_getElem? hc)).2
      omega
    · obtain ⟨chunk, hc, -⟩ := hchunk hget
      rw [htiles.inner hsflat hget hc (.inl hi) hlast]
      exact List.length_of_mem_chunksOf hc (by omega)

/-- A segment of all the rows it is given. -/
def wholeSegment (rows : List WalRow) : Option Segment :=
  match rows.head?, rows.getLast? with
  | some first, some last => some
      { bytes := rows.flatMap (·.row), rows := .ofNat rows.length, first_ts := first.ts,
        last_ts := last.ts, index := none }
  | _, _ => none

/-- An encoder that keeps every row. -/
def wholeEncoder : SegmentEncoder where
  encode _ rows := .ok (wholeSegment rows)
  version := none
  encode_after _ _ rows := .ok (wholeSegment rows)

/-- Five rows of a stream. -/
def fiveRows : List WalRow :=
  [1, 2, 3, 4, 5].map fun ts => { stream := "cpu", ts, wall_offset := 0, row := [1] }

/-- At a cap of two they seal into parts of two, two and one. -/
theorem split_seal_tiles_fiveRows : ∃ parts, parts.length = 3 ∧
    Tiling wholeEncoder ⟨1, none, "cpu"⟩ fiveRows (max 2 1) parts :=
  ⟨_, rfl, @split_seal_tiles wholeEncoder ⟨1, none, "cpu"⟩ fiveRows (by decide) 2 _ rfl⟩

end Dendro
