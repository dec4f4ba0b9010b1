import Mathlib.Data.List.Nodup

/-!
# Tables with named columns, one under the other

A table has columns, each with a name, and rows with a cell for each column. `unite` puts tables
one under the other: its columns are those of all of them in the order in which they first appear,
and a row has a null for each column that its own table lacks. A column that not every table has is
relaxed, so that it may hold nulls.

That is associative (`unite_unite`) as long as no table has a column that others have relaxed: a
relaxed column is not the column it was, and a table that has the old one no longer agrees with it.
-/

universe u v w

/-! ## The first of each -/

namespace List

variable {α : Type u} [BEq α] [LawfulBEq α]

theorem eraseDups_filter (p : α → Bool) : ∀ l : List α,
    (l.filter p).eraseDups = l.eraseDups.filter p
  | [] => rfl
  | a :: l => by
      have ih := eraseDups_filter p (l.filter fun b => !b == a)
      rw [eraseDups_cons, filter_cons]
      by_cases ha : p a = true
      · rw [if_pos ha, filter_cons, if_pos ha, eraseDups_cons, filter_filter, ← ih, filter_filter]
        simp only [Bool.and_comm]
      · -- `a` itself goes, and so does every copy of it
        have hcopies : (l.filter fun b => !b == a).filter p = l.filter p := by
          rw [filter_filter]
          refine filter_congr fun b _ => ?_
          by_cases hb : b == a
          · rw [eq_of_beq hb]
            simp [ha]
          · simp [hb]
        rw [if_neg ha, filter_cons, if_neg ha, ← ih, hcopies]
termination_by l => l.length
decreasing_by exact Nat.lt_succ_of_le (length_filter_le _ l)

theorem nodup_eraseDups : ∀ l : List α, l.eraseDups.Nodup
  | [] => nodup_nil
  | a :: l => by
      rw [eraseDups_cons, nodup_cons]
      refine ⟨fun ha => ?_, nodup_eraseDups _⟩
      have hne := (mem_filter.mp (mem_eraseDups.mp ha)).2
      simp at hne
termination_by l => l.length
decreasing_by exact Nat.lt_succ_of_le (length_filter_le _ l)

theorem eraseDups_of_nodup : ∀ {l : List α}, l.Nodup → l.eraseDups = l
  | [], _ => rfl
  | a :: l, h => by
      obtain ⟨ha, hl⟩ := nodup_cons.mp h
      have hkeep : l.filter (fun b => !b == a) = l := filter_eq_self.mpr fun b hb => by
        have hne : b ≠ a := fun hba => ha (hba ▸ hb)
        simpa using hne
      rw [eraseDups_cons, hkeep, eraseDups_of_nodup hl]

/-- A function that tells the elements apart keeps the first of each. -/
theorem eraseDups_map {β : Type v} [BEq β] [LawfulBEq β] {f : α → β} : ∀ {l : List α},
    (∀ a ∈ l, ∀ b ∈ l, f a = f b → a = b) → (l.map f).eraseDups = l.eraseDups.map f
  | [], _ => rfl
  | a :: l, h => by
      have hkeep : (l.map f).filter (fun b => !b == f a) = (l.filter fun b => !b == a).map f := by
        rw [filter_map]
        refine congrArg (map f) (filter_congr fun b hb => ?_)
        have hiff : f b = f a ↔ b = a :=
          ⟨h b (mem_cons_of_mem _ hb) a mem_cons_self, congrArg f⟩
        rw [Function.comp_apply, Bool.eq_iff_iff]
        simpa using not_congr hiff
      have hrest : ((l.filter fun b => !b == a).map f).eraseDups =
          (l.filter fun b => !b == a).eraseDups.map f :=
        eraseDups_map fun b hb c hc => h b (mem_cons_of_mem _ (mem_of_mem_filter hb)) c
          (mem_cons_of_mem _ (mem_of_mem_filter hc))
      rw [map_cons, eraseDups_cons, eraseDups_cons, hkeep, hrest, map_cons]
termination_by l => l.length
decreasing_by exact Nat.lt_succ_of_le (length_filter_le _ l)

/-- Parts without repetitions have the same first appearances as the parts. -/
theorem eraseDups_flatMap_eraseDups {β : Type v} (f : β → List α) : ∀ l : List β,
    (l.flatMap fun b => (f b).eraseDups).eraseDups = (l.flatMap f).eraseDups
  | [] => rfl
  | b :: l => by
      have ih := eraseDups_flatMap_eraseDups f l
      have hremove : ∀ xs : List α, (xs.removeAll (f b).eraseDups) = xs.removeAll (f b) :=
        fun xs => filter_congr fun x _ => by simp [elem_eq_contains]
      rw [flatMap_cons, flatMap_cons, eraseDups_append, eraseDups_append,
        eraseDups_of_nodup (nodup_eraseDups (f b)), hremove, removeAll, removeAll,
        eraseDups_filter, eraseDups_filter, ih]

end List

/-! ## Tables -/

/-- Columns, and rows with a cell for each. -/
structure Table (F : Type u) (C : Type v) where
  columns : List F
  rows : List (List C)

namespace Table

variable {F : Type u} {C : Type v} {κ : Type w} [DecidableEq F] [DecidableEq κ]
  (name : F → κ) (null : C) (relax : F → F)

/-- The cell of a row under a name. -/
def cell (columns : List F) (row : List C) (k : κ) : Option C :=
  ((columns.map name).zip row).lookup k

/-- A row under other columns: null where it has none. -/
def spread (columns columns' : List F) (row : List C) : List C :=
  columns'.map fun g => (cell name columns row (name g)).getD null

/-- Whether every table has a column. -/
def shared (ts : List (Table F C)) (f : F) : Bool := ts.all fun t => f ∈ t.columns

/-- The columns of some tables, in the order in which they first appear. -/
def firstColumns (ts : List (Table F C)) : List F := (ts.flatMap (·.columns)).eraseDups

/-- The columns of tables that are put one under the other. -/
def uniteColumns (ts : List (Table F C)) : List F :=
  (firstColumns ts).map fun f => if shared ts f then f else relax f

/-- Tables one under the other. -/
def unite (ts : List (Table F C)) : Table F C where
  columns := uniteColumns relax ts
  rows := ts.flatMap fun t => t.rows.map (spread name null t.columns (uniteColumns relax ts))

/-- The cells of a row under the columns that `p` accepts. -/
def pick (p : F → Bool) (columns : List F) (row : List C) : List C :=
  ((columns.zip row).filter fun e => p e.1).map Prod.snd

/-- A table with the columns that `p` accepts, and no others. -/
def select (p : F → Bool) (t : Table F C) : Table F C where
  columns := t.columns.filter p
  rows := t.rows.map (pick p t.columns)

/-- Columns of one name, in whichever of the tables, are one column. -/
def Agree (ts : List (Table F C)) : Prop :=
  ∀ t ∈ ts, ∀ t' ∈ ts, ∀ f ∈ t.columns, ∀ g ∈ t'.columns, name f = name g → f = g

/-- How many tables have a column. -/
def carriers (ts : List (Table F C)) (f : F) : Nat :=
  (ts.filter fun t => decide (f ∈ t.columns)).length

/-- Relaxing a column that some table lacks changes nothing, unless one table alone has it. -/
def Steady (ts : List (Table F C)) : Prop :=
  ∀ f, shared ts f = false → 2 ≤ carriers ts f → relax f = f

/-- A table whose columns have distinct names and whose rows have a cell for each. -/
structure Even (t : Table F C) : Prop where
  distinct : (t.columns.map name).Nodup
  rows : ∀ row ∈ t.rows, row.length = t.columns.length

section

variable {name null relax} {ts : List (Table F C)} {columns columns' columns'' : List F}
  {row : List C} {k : κ}

theorem shared_iff {f : F} : shared ts f = true ↔ ∀ t ∈ ts, f ∈ t.columns := by
  simp [shared]

theorem mem_firstColumns {f : F} : f ∈ firstColumns ts ↔ ∃ t ∈ ts, f ∈ t.columns := by
  simp [firstColumns]

/-! ### Cells -/

omit [DecidableEq F] in
theorem cell_eq_none (h : k ∉ columns.map name) : cell name columns row k = none := by
  refine List.lookup_eq_none_iff.mpr fun e he => ?_
  have hmem := (List.of_mem_zip he).1
  simpa using fun hk : k = e.1 => h (hk ▸ hmem)

omit [DecidableEq F] in
theorem lookup_map_name (g : κ → C) : ∀ columns : List F,
    (columns.map fun f => (name f, g (name f))).lookup k =
      if k ∈ columns.map name then some (g k) else none
  | [] => rfl
  | f :: columns => by
      have ih := lookup_map_name g columns
      rw [List.map_cons, List.lookup_cons, List.map_cons]
      by_cases hk : k = name f
      · rw [hk, beq_self_eq_true]
        simp
      · rw [beq_false_of_ne hk]
        simpa [hk] using ih

omit [DecidableEq F] in
/-- A cell of a row that was put under other columns. -/
theorem cell_spread (columns columns' : List F) (row : List C) (k : κ) :
    cell name columns' (spread name null columns columns' row) k =
      if k ∈ columns'.map name then some ((cell name columns row k).getD null) else none := by
  rw [← lookup_map_name (fun k => (cell name columns row k).getD null) columns', cell, spread,
    List.zip_map']

omit [DecidableEq F] in
/-- **Putting a row under wider columns first makes no difference.** -/
theorem spread_spread (hsub : ∀ k ∈ columns.map name, k ∈ columns'.map name) (row : List C) :
    spread name null columns' columns'' (spread name null columns columns' row) =
      spread name null columns columns'' row := by
  refine List.map_congr_left fun g _ => ?_
  rw [cell_spread]
  split
  · rfl
  · rename_i hnot
    rw [cell_eq_none fun hk => hnot (hsub _ hk)]

omit [DecidableEq F] in
theorem spread_self : ∀ {columns : List F} {row : List C}, (columns.map name).Nodup →
    row.length = columns.length → spread name null columns columns row = row
  | [], [], _, _ => rfl
  | [], _ :: _, _, h => absurd h (by simp)
  | _ :: _, [], _, h => absurd h (by simp)
  | f :: columns, c :: row, hnd, hlen => by
      obtain ⟨hf, hnd⟩ := List.nodup_cons.mp hnd
      have ih : spread name null columns columns row = row := spread_self hnd (Nat.succ.inj hlen)
      have hfirst : cell name (f :: columns) (c :: row) (name f) = some c := List.lookup_cons_self
      have hrest : ∀ g ∈ columns, cell name (f :: columns) (c :: row) (name g) =
          cell name columns row (name g) := by
        intro g hg
        have hne : name g ≠ name f := fun h => hf (h ▸ List.mem_map_of_mem hg)
        unfold cell
        rw [List.map_cons, List.zip_cons_cons, List.lookup_cons, beq_false_of_ne hne]
      rw [spread, List.map_cons, hfirst]
      refine congrArg (c :: ·) ((List.map_congr_left fun g hg => ?_).trans ih)
      rw [hrest g hg]

/-! ### Columns -/

omit [DecidableEq κ] in
/-- The names of united columns are those of the columns. -/
theorem map_name_uniteColumns (hname : ∀ f, name (relax f) = name f) :
    (uniteColumns relax ts).map name = (firstColumns ts).map name := by
  rw [uniteColumns, List.map_map]
  refine List.map_congr_left fun f _ => ?_
  simp only [Function.comp_apply]
  split
  · rfl
  · exact hname f

omit [DecidableEq κ] in
/-- **Columns that agree have distinct names once they are united.** -/
theorem nodup_name_uniteColumns (hname : ∀ f, name (relax f) = name f) (h : Agree name ts) :
    ((uniteColumns relax ts).map name).Nodup := by
  rw [map_name_uniteColumns hname]
  refine (List.nodup_map_iff_inj_on (List.nodup_eraseDups _)).mpr fun f hf g hg hfg => ?_
  obtain ⟨t, ht, hft⟩ := mem_firstColumns.mp hf
  obtain ⟨t', ht', hgt'⟩ := mem_firstColumns.mp hg
  exact h t ht t' ht' f hft g hgt' hfg

omit [DecidableEq κ] in
theorem name_mem_uniteColumns (hname : ∀ f, name (relax f) = name f) {t : Table F C} (ht : t ∈ ts) :
    ∀ k ∈ t.columns.map name, k ∈ (uniteColumns relax ts).map name := by
  rintro k hk
  obtain ⟨f, hf, rfl⟩ := List.mem_map.mp hk
  rw [map_name_uniteColumns hname]
  exact List.mem_map_of_mem (mem_firstColumns.mpr ⟨t, ht, hf⟩)

/-! ### Tables of tables -/

omit [DecidableEq F] [DecidableEq κ] in
theorem Agree.subset {ts' : List (Table F C)} (h : Agree name ts) (hsub : ts' ⊆ ts) :
    Agree name ts' :=
  fun t ht t' ht' => h t (hsub ht) t' (hsub ht')

theorem Steady.sublist {ts' : List (Table F C)} (h : Steady relax ts) (hsub : ts'.Sublist ts) :
    Steady relax ts' := by
  intro f hshared htwo
  refine h f (Bool.eq_false_iff.mpr fun hall => ?_)
    (Nat.le_trans htwo (hsub.filter _).length_le)
  rw [Bool.eq_false_iff] at hshared
  exact hshared (shared_iff.mpr fun t' ht' => shared_iff.mp hall t' (hsub.subset ht'))

theorem carriers_append (ts ts' : List (Table F C)) (f : F) :
    carriers (ts ++ ts') f = carriers ts f + carriers ts' f := by
  rw [carriers, List.filter_append, List.length_append]
  rfl

theorem carriers_pos {f : F} : 1 ≤ carriers ts f ↔ ∃ t ∈ ts, f ∈ t.columns := by
  rw [carriers, Nat.one_le_iff_ne_zero, Ne, List.length_eq_zero_iff, List.filter_eq_nil_iff]
  simp

/-- A table alone is itself. -/
theorem unite_singleton {t : Table F C} (h : Even name t) : unite name null relax [t] = t := by
  have hcolumns : uniteColumns relax [t] = t.columns := by
    have hnd : t.columns.Nodup := h.distinct.of_map _
    unfold uniteColumns firstColumns
    rw [List.flatMap_singleton, List.eraseDups_of_nodup hnd]
    refine (List.map_congr_left fun f hf => ?_).trans (List.map_id _)
    rw [if_pos (shared_iff.mpr fun t' ht' => List.mem_singleton.mp ht' ▸ hf)]
    rfl
  obtain ⟨columns, rows⟩ := t
  unfold unite
  rw [hcolumns, List.flatMap_singleton]
  refine congrArg (Table.mk columns) ((List.map_congr_left fun row hrow => ?_).trans (List.map_id _))
  exact spread_self h.distinct (h.rows row hrow)

/-- United tables are even. -/
theorem even_unite (hname : ∀ f, name (relax f) = name f) (h : Agree name ts) :
    Even name (unite name null relax ts) where
  distinct := nodup_name_uniteColumns hname h
  rows row hrow := by
    obtain ⟨t, -, hrow⟩ := List.mem_flatMap.mp hrow
    obtain ⟨r, -, rfl⟩ := List.mem_map.mp hrow
    exact List.length_map _

section Groups

variable {tss : List (List (Table F C))}

/-- What becomes of a column in the group that has it. -/
def grouped (relax : F → F) (tss : List (List (Table F C))) (f : F) : F :=
  if tss.any fun ts => decide (1 ≤ carriers ts f) && !shared ts f then relax f else f

omit [DecidableEq κ] in
theorem name_grouped (hname : ∀ f, name (relax f) = name f) (f : F) :
    name (grouped relax tss f) = name f := by
  unfold grouped
  split
  · exact hname f
  · rfl

theorem shared_of_flatten {ts : List (Table F C)} (hts : ts ∈ tss) {f : F}
    (h : shared tss.flatten f = true) : shared ts f = true :=
  shared_iff.mpr fun t ht => shared_iff.mp h t (List.mem_flatten.mpr ⟨ts, hts, ht⟩)

/-- Two groups that have a column are two tables that have it. -/
theorem carriers_two {ts ts' : List (Table F C)} (hts : ts ∈ tss) (hts' : ts' ∈ tss)
    (hne : ts' ≠ ts) {f : F} (h : 1 ≤ carriers ts f) (h' : 1 ≤ carriers ts' f) :
    2 ≤ carriers tss.flatten f := by
  obtain ⟨before, after, rfl⟩ := List.append_of_mem hts
  have hother : 1 ≤ carriers before.flatten f ∨ 1 ≤ carriers after.flatten f := by
    obtain ⟨t, ht, hf⟩ := carriers_pos.mp h'
    rcases List.mem_append.mp hts' with hb | ha
    · exact .inl (carriers_pos.mpr ⟨t, List.mem_flatten.mpr ⟨ts', hb, ht⟩, hf⟩)
    · rcases List.mem_cons.mp ha with heq | ha
      · exact absurd heq hne
      · exact .inr (carriers_pos.mpr ⟨t, List.mem_flatten.mpr ⟨ts', ha, ht⟩, hf⟩)
  rw [List.flatten_append, List.flatten_cons, carriers_append, carriers_append]
  omega

theorem length_le_carriers {f : F} : ∀ {tss : List (List (Table F C))},
    (∀ ts ∈ tss, 1 ≤ carriers ts f) → tss.length ≤ carriers tss.flatten f
  | [], _ => Nat.zero_le _
  | ts :: tss, h => by
      have hfirst := h ts (by simp)
      have hrest : tss.length ≤ carriers tss.flatten f :=
        length_le_carriers fun ts' hts' => h ts' (by simp [hts'])
      rw [List.flatten_cons, carriers_append, List.length_cons]
      omega

variable (hsteady : Steady relax tss.flatten)
include hsteady

/-- **The columns of a group**: what becomes of one does not depend on which group has it. -/
theorem uniteColumns_group {ts : List (Table F C)} (hts : ts ∈ tss) :
    uniteColumns relax ts = (firstColumns ts).map (grouped relax tss) := by
  refine List.map_congr_left fun f hf => ?_
  have hcarried : 1 ≤ carriers ts f := carriers_pos.mpr (mem_firstColumns.mp hf)
  by_cases hshared : shared ts f = true
  · rw [if_pos hshared, grouped]
    split
    · -- a group that lacks it somewhere is another one
      rename_i hany
      obtain ⟨ts', hts', hother⟩ := List.any_eq_true.mp hany
      simp only [Bool.and_eq_true, decide_eq_true_eq, Bool.not_eq_true'] at hother
      obtain ⟨hcarried', hlacks⟩ := hother
      have hne : ts' ≠ ts := fun heq => by
        rw [heq, hshared] at hlacks
        cases hlacks
      have hflat : shared tss.flatten f = false := Bool.eq_false_iff.mpr fun hall => by
        rw [shared_of_flatten hts' hall] at hlacks
        cases hlacks
      exact (hsteady f hflat (carriers_two hts hts' hne hcarried hcarried')).symm
    · rfl
  · have hany : (tss.any fun ts => decide (1 ≤ carriers ts f) && !shared ts f) = true :=
      List.any_eq_true.mpr ⟨ts, hts, by simp [hcarried, hshared]⟩
    rw [if_neg hshared, grouped, if_pos hany]

variable (hname : ∀ f, name (relax f) = name f) (hagree : Agree name tss.flatten)
include hname hagree

omit hsteady [DecidableEq κ] in
/-- Fields of some tables that become one column are one. -/
theorem grouped_inj {f g : F} (hf : f ∈ firstColumns tss.flatten)
    (hg : g ∈ firstColumns tss.flatten) (h : name (grouped relax tss f) = name (grouped relax tss g)) :
    f = g := by
  rw [name_grouped hname, name_grouped hname] at h
  obtain ⟨t, ht, hft⟩ := mem_firstColumns.mp hf
  obtain ⟨t', ht', hgt'⟩ := mem_firstColumns.mp hg
  exact hagree t ht t' ht' f hft g hgt' h

omit [DecidableEq κ] hname hagree hsteady in
theorem mem_firstColumns_flatten {ts : List (Table F C)} (hts : ts ∈ tss) {f : F}
    (hf : f ∈ firstColumns ts) : f ∈ firstColumns tss.flatten := by
  obtain ⟨t, ht, hft⟩ := mem_firstColumns.mp hf
  exact mem_firstColumns.mpr ⟨t, List.mem_flatten.mpr ⟨ts, hts, ht⟩, hft⟩

/-- **United groups agree.** -/
theorem agree_unite : Agree name (tss.map (unite name null relax)) := by
  intro t ht t' ht' f hf g hg hfg
  obtain ⟨ts, hts, rfl⟩ := List.mem_map.mp ht
  obtain ⟨ts', hts', rfl⟩ := List.mem_map.mp ht'
  replace hf : f ∈ uniteColumns relax ts := hf
  replace hg : g ∈ uniteColumns relax ts' := hg
  rw [uniteColumns_group hsteady hts] at hf
  rw [uniteColumns_group hsteady hts'] at hg
  obtain ⟨f₀, hf₀, rfl⟩ := List.mem_map.mp hf
  obtain ⟨g₀, hg₀, rfl⟩ := List.mem_map.mp hg
  rw [grouped_inj hname hagree (mem_firstColumns_flatten hts hf₀)
    (mem_firstColumns_flatten hts' hg₀) hfg]

theorem firstColumns_groups : firstColumns (tss.map (unite name null relax)) =
    (firstColumns tss.flatten).map (grouped relax tss) := by
  have hcolumns : (tss.map (unite name null relax)).flatMap (·.columns) =
      (tss.flatMap fun ts => (ts.flatMap (·.columns)).eraseDups).map (grouped relax tss) := by
    rw [List.flatMap_map, List.map_flatMap]
    exact List.flatMap_congr fun ts hts => uniteColumns_group hsteady hts
  have hmem : ∀ f ∈ tss.flatMap fun ts => (ts.flatMap (·.columns)).eraseDups,
      f ∈ firstColumns tss.flatten := by
    intro f hf
    obtain ⟨ts, hts, hf⟩ := List.mem_flatMap.mp hf
    exact mem_firstColumns_flatten hts hf
  rw [firstColumns, hcolumns, List.eraseDups_map fun f hf g hg h =>
      grouped_inj hname hagree (hmem f hf) (hmem g hg) (congrArg name h),
    List.eraseDups_flatMap_eraseDups, firstColumns, List.flatten_eq_flatMap, List.flatMap_assoc]
  rfl

/-- A column that one group relaxed is relaxed in the end, and no other. -/
theorem relax_grouped (hidem : ∀ f, relax (relax f) = relax f) (hsome : ∀ ts ∈ tss, ts ≠ []) {f : F}
    (hf : f ∈ firstColumns tss.flatten) :
    (if shared (tss.map (unite name null relax)) (grouped relax tss f) then grouped relax tss f
      else relax (grouped relax tss f)) = if shared tss.flatten f then f else relax f := by
  have hgrouped : grouped relax tss f = f ∨ grouped relax tss f = relax f := by
    unfold grouped
    split
    · exact .inr rfl
    · exact .inl rfl
  by_cases hshared : shared tss.flatten f = true
  · have hsame : grouped relax tss f = f := by
      rw [grouped, if_neg]
      intro hany
      obtain ⟨ts, hts, hlacks⟩ := List.any_eq_true.mp hany
      rw [shared_of_flatten hts hshared] at hlacks
      simp at hlacks
    have hall : shared (tss.map (unite name null relax)) f = true := shared_iff.mpr fun t ht => by
      obtain ⟨ts, hts, rfl⟩ := List.mem_map.mp ht
      obtain ⟨t₀, ht₀⟩ := List.exists_mem_of_ne_nil ts (hsome ts hts)
      have hf₀ := shared_iff.mp hshared t₀ (List.mem_flatten.mpr ⟨ts, hts, ht₀⟩)
      show f ∈ uniteColumns relax ts
      rw [uniteColumns_group hsteady hts]
      exact List.mem_map.mpr ⟨f, mem_firstColumns.mpr ⟨t₀, ht₀, hf₀⟩, hsame⟩
    rw [if_pos hshared, hsame, if_pos hall]
  rw [if_neg hshared]
  by_cases hrelax : relax f = f
  · have hsame : grouped relax tss f = f := hgrouped.elim id fun h => h.trans hrelax
    rw [hsame, hrelax, ite_self]
  split
  · -- every group has it, so there is one group
    rename_i hall
    have hcarried : ∀ ts ∈ tss, 1 ≤ carriers ts f := by
      intro ts hts
      have hmem : grouped relax tss f ∈ uniteColumns relax ts :=
        shared_iff.mp hall _ (List.mem_map.mpr ⟨ts, hts, rfl⟩)
      rw [uniteColumns_group hsteady hts] at hmem
      obtain ⟨g, hg, hgf⟩ := List.mem_map.mp hmem
      have heq := grouped_inj hname hagree (mem_firstColumns_flatten hts hg) hf (congrArg name hgf)
      rw [heq] at hg
      exact carriers_pos.mpr (mem_firstColumns.mp hg)
    have hone : ¬ 2 ≤ carriers tss.flatten f := fun htwo =>
      hrelax (hsteady f (Bool.eq_false_iff.mpr hshared) htwo)
    have hlen := length_le_carriers hcarried
    rcases tss with _ | ⟨ts, _ | ⟨ts', tss⟩⟩
    · simp [firstColumns] at hf
    · have hlacks : shared ts f = false := by
        simpa using Bool.eq_false_iff.mpr hshared
      rw [grouped, if_pos]
      simp [hcarried ts (by simp), hlacks]
    · simp only [List.length_cons] at hlen
      omega
  · rcases hgrouped with h | h
    · rw [h]
    · rw [h, hidem]

/-- **Tables can be put one under the other in groups, and the groups then.** -/
theorem unite_unite (hidem : ∀ f, relax (relax f) = relax f) (hsome : ∀ ts ∈ tss, ts ≠ []) :
    unite name null relax (tss.map (unite name null relax)) = unite name null relax tss.flatten := by
  have hcolumns : uniteColumns relax (tss.map (unite name null relax)) =
      uniteColumns relax tss.flatten := by
    rw [uniteColumns, firstColumns_groups hsteady hname hagree, List.map_map, uniteColumns]
    exact List.map_congr_left fun f hf => relax_grouped hsteady hname hagree hidem hsome hf
  have hrows : (unite name null relax (tss.map (unite name null relax))).rows =
      (unite name null relax tss.flatten).rows := by
    simp only [unite, List.flatMap_map, List.flatten_eq_flatMap, List.flatMap_assoc] at hcolumns ⊢
    refine List.flatMap_congr fun ts _ => ?_
    rw [hcolumns, List.map_flatMap]
    refine List.flatMap_congr fun t ht => ?_
    rw [List.map_map]
    exact List.map_congr_left fun row _ => spread_spread (name_mem_uniteColumns hname ht) row
  exact congrArg₂ Table.mk hcolumns hrows

end Groups

end

end Table
