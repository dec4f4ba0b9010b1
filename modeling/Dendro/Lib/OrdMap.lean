import Mathlib.Algebra.GroupWithZero.Nat
import Mathlib.Data.List.Sort
import Mathlib.Data.Prod.Lex

/-!
# Finite maps in key order

A finite map is its list of entries in strictly increasing key order, and the order is a
field: a value with a duplicated or misplaced key cannot be built. It serves both as an
ordered in-memory map and as a relational table listed by its primary key.

Everything is derived from membership. `ext_mem` says that two maps with the same entries
are equal, so an algebraic law is proved by comparing members, and `get?` is the function
the membership relation is the graph of.

A table whose key is a pair `(g, s)` in lexicographic order is read one group at a time:
`m.group g` is the map of the group `g`, keyed by `s` alone.
-/

universe u v w

/-- A finite map: its entries in strictly increasing key order. -/
structure OrdMap (κ : Type u) (ρ : Type v) [LinearOrder κ] where
  /-- The entries, in key order. -/
  entries : List (κ × ρ)
  /-- Keys strictly increase, so no key occurs twice. -/
  sorted : entries.Pairwise fun a b => a.1 < b.1

namespace OrdMap

variable {κ : Type u} {ρ : Type v} [LinearOrder κ]

instance : Std.Antisymm fun a b : κ × ρ => a.1 < b.1 :=
  ⟨fun _ _ h h' => absurd h' (lt_asymm h)⟩

instance : Std.Irrefl fun a b : κ × ρ => a.1 < b.1 := ⟨fun a => lt_irrefl a.1⟩

theorem ext_entries {m m' : OrdMap κ ρ} (h : m.entries = m'.entries) : m = m' := by
  cases m; cases m'; cases h; rfl

/-- **Two maps with the same entries are equal.** -/
theorem ext_mem {m m' : OrdMap κ ρ} (h : ∀ e, e ∈ m.entries ↔ e ∈ m'.entries) : m = m' :=
  ext_entries (m.sorted.eq_of_mem_iff m'.sorted h)

instance [DecidableEq ρ] : DecidableEq (OrdMap κ ρ) := fun m m' =>
  decidable_of_iff (m.entries = m'.entries) ⟨ext_entries, fun h => h ▸ rfl⟩

/-- In a list of entries with increasing keys, a key has one value. -/
theorem mem_unique_list {k : κ} {v v' : ρ} : ∀ {es : List (κ × ρ)},
    es.Pairwise (fun a b => a.1 < b.1) → (k, v) ∈ es → (k, v') ∈ es → v = v'
  | [], _, h, _ => absurd h (by simp)
  | e :: es, hs, h, h' => by
      obtain ⟨hlt, htl⟩ := List.pairwise_cons.mp hs
      rcases List.mem_cons.mp h with rfl | hm <;> rcases List.mem_cons.mp h' with heq | hm'
      · exact (congrArg Prod.snd heq).symm
      · exact (lt_irrefl k (hlt _ hm')).elim
      · subst heq; exact (lt_irrefl k (hlt _ hm)).elim
      · exact mem_unique_list htl hm hm'

theorem mem_unique {m : OrdMap κ ρ} {k : κ} {v v' : ρ} (h : (k, v) ∈ m.entries)
    (h' : (k, v') ∈ m.entries) : v = v' :=
  mem_unique_list m.sorted h h'

/-! ## Lookup -/

/-- The value under a key. -/
def get? (m : OrdMap κ ρ) (k : κ) : Option ρ := m.entries.lookup k

/-- The keys, in order. -/
def keys (m : OrdMap κ ρ) : List κ := m.entries.map Prod.fst

/-- The values, in key order. -/
def values (m : OrdMap κ ρ) : List ρ := m.entries.map Prod.snd

/-- The map with no entry. -/
def empty : OrdMap κ ρ := ⟨[], List.Pairwise.nil⟩

instance : EmptyCollection (OrdMap κ ρ) := ⟨empty⟩

instance : Inhabited (OrdMap κ ρ) := ⟨empty⟩

@[simp] theorem entries_empty : (∅ : OrdMap κ ρ).entries = [] := rfl

theorem get?_eq_some {m : OrdMap κ ρ} {k : κ} {v : ρ} :
    m.get? k = some v ↔ (k, v) ∈ m.entries := by
  constructor
  · intro h
    obtain ⟨l₁, l₂, he, -⟩ := List.lookup_eq_some_iff.mp h
    rw [he]; simp
  · intro h
    rcases hk : m.get? k with _ | v'
    · have := List.lookup_eq_none_iff.mp hk _ h
      simp at this
    · obtain ⟨l₁, l₂, he, -⟩ := List.lookup_eq_some_iff.mp hk
      have : (k, v') ∈ m.entries := by rw [he]; simp
      rw [mem_unique h this]

theorem get?_eq_none {m : OrdMap κ ρ} {k : κ} :
    m.get? k = none ↔ ∀ v, (k, v) ∉ m.entries := by
  constructor
  · intro h v hv
    rw [get?_eq_some.mpr hv] at h
    exact absurd h (by simp)
  · intro h
    rcases hk : m.get? k with _ | v
    · rfl
    · exact absurd (get?_eq_some.mp hk) (h v)

theorem mem_keys {m : OrdMap κ ρ} {k : κ} : k ∈ m.keys ↔ ∃ v, m.get? k = some v := by
  simp [keys, get?_eq_some]

/-- Maps that answer every lookup alike are equal. -/
theorem ext_get? {m m' : OrdMap κ ρ} (h : ∀ k, m.get? k = m'.get? k) : m = m' :=
  ext_mem fun e => by rw [← get?_eq_some, ← get?_eq_some, h]

@[simp] theorem get?_empty (k : κ) : (∅ : OrdMap κ ρ).get? k = none := rfl

theorem keys_sorted (m : OrdMap κ ρ) : m.keys.Pairwise (· < ·) :=
  List.pairwise_map.mpr m.sorted

theorem keys_nodup (m : OrdMap κ ρ) : m.keys.Nodup :=
  m.keys_sorted.imp fun h => ne_of_lt h

/-! ## Filtering -/

/-- The entries that satisfy `p`. -/
def filter (p : κ → ρ → Bool) (m : OrdMap κ ρ) : OrdMap κ ρ :=
  ⟨m.entries.filter fun e => p e.1 e.2, m.sorted.filter _⟩

@[simp] theorem entries_filter (p : κ → ρ → Bool) (m : OrdMap κ ρ) :
    (m.filter p).entries = m.entries.filter fun e => p e.1 e.2 := rfl

theorem get?_filter (p : κ → ρ → Bool) (m : OrdMap κ ρ) (k : κ) :
    (m.filter p).get? k = (m.get? k).filter (p k) := by
  refine Option.ext fun v => ?_
  rw [get?_eq_some, Option.filter_eq_some_iff, get?_eq_some]
  simp

theorem get?_filter_eq_some {p : κ → ρ → Bool} {m : OrdMap κ ρ} {k : κ} {v : ρ} :
    (m.filter p).get? k = some v ↔ m.get? k = some v ∧ p k v := by
  rw [get?_filter, Option.filter_eq_some_iff]

theorem filter_filter (p q : κ → ρ → Bool) (m : OrdMap κ ρ) :
    (m.filter p).filter q = m.filter fun k v => p k v && q k v :=
  ext_entries (by simp [List.filter_filter, Bool.and_comm])

theorem filter_eq_self {p : κ → ρ → Bool} {m : OrdMap κ ρ}
    (h : ∀ k v, m.get? k = some v → p k v) : m.filter p = m :=
  ext_entries (List.filter_eq_self.mpr fun e he => h e.1 e.2 (get?_eq_some.mpr he))

theorem filter_congr {p q : κ → ρ → Bool} {m : OrdMap κ ρ}
    (h : ∀ k v, m.get? k = some v → p k v = q k v) : m.filter p = m.filter q :=
  ext_entries (List.filter_congr fun e he => h e.1 e.2 (get?_eq_some.mpr he))

/-! ## Insertion and removal -/

/-- Bind `k` to `v`, replacing any previous value. -/
def insert (m : OrdMap κ ρ) (k : κ) (v : ρ) : OrdMap κ ρ where
  entries := m.entries.filter (·.1 < k) ++ (k, v) :: m.entries.filter (k < ·.1)
  sorted := by
    rw [List.pairwise_append]
    refine ⟨m.sorted.filter _, List.pairwise_cons.mpr ⟨?_, m.sorted.filter _⟩, ?_⟩
    · intro e he
      simpa using (List.mem_filter.mp he).2
    · intro a ha b hb
      have hak : a.1 < k := by simpa using (List.mem_filter.mp ha).2
      rcases List.mem_cons.mp hb with rfl | hb
      · exact hak
      · exact hak.trans (by simpa using (List.mem_filter.mp hb).2)

/-- Forget `k`. -/
def erase (m : OrdMap κ ρ) (k : κ) : OrdMap κ ρ := m.filter fun k' _ => k' ≠ k

theorem mem_insert {m : OrdMap κ ρ} {k : κ} {v : ρ} {e : κ × ρ} :
    e ∈ (m.insert k v).entries ↔ e = (k, v) ∨ e.1 ≠ k ∧ e ∈ m.entries := by
  simp only [insert, List.mem_append, List.mem_cons, List.mem_filter, decide_eq_true_eq]
  constructor
  · rintro (⟨he, hlt⟩ | rfl | ⟨he, hlt⟩)
    · exact Or.inr ⟨ne_of_lt hlt, he⟩
    · exact Or.inl rfl
    · exact Or.inr ⟨ne_of_gt hlt, he⟩
  · rintro (rfl | ⟨hne, he⟩)
    · exact Or.inr (Or.inl rfl)
    · rcases lt_or_gt_of_ne hne with hlt | hlt
      · exact Or.inl ⟨he, hlt⟩
      · exact Or.inr (Or.inr ⟨he, hlt⟩)

theorem get?_insert (m : OrdMap κ ρ) (k k' : κ) (v : ρ) :
    (m.insert k v).get? k' = if k' = k then some v else m.get? k' := by
  refine Option.ext fun w => ?_
  rw [get?_eq_some, mem_insert]
  by_cases h : k' = k
  · subst h; simp [eq_comm]
  · simp [h, get?_eq_some]

@[simp] theorem get?_insert_self (m : OrdMap κ ρ) (k : κ) (v : ρ) :
    (m.insert k v).get? k = some v := by
  simp [get?_insert]

theorem get?_insert_ne {k k' : κ} (m : OrdMap κ ρ) (v : ρ) (h : k' ≠ k) :
    (m.insert k v).get? k' = m.get? k' := by
  simp [get?_insert, h]

theorem get?_erase (m : OrdMap κ ρ) (k k' : κ) :
    (m.erase k).get? k' = if k' = k then none else m.get? k' := by
  rw [erase, get?_filter]
  by_cases h : k' = k
  · simp [h]
  · rw [if_neg h]
    rcases m.get? k' with _ | v
    · rfl
    · simp [h]

/-- A key beyond every stored one lands at the end. -/
theorem entries_insert_of_lt {m : OrdMap κ ρ} {k : κ} (v : ρ)
    (h : ∀ k' ∈ m.keys, k' < k) : (m.insert k v).entries = m.entries ++ [(k, v)] := by
  have hlt : ∀ e ∈ m.entries, e.1 < k := fun e he => h e.1 (List.mem_map.mpr ⟨e, he, rfl⟩)
  have h₁ : m.entries.filter (·.1 < k) = m.entries :=
    List.filter_eq_self.mpr fun e he => by simpa using hlt e he
  have h₂ : m.entries.filter (k < ·.1) = [] :=
    List.filter_eq_nil_iff.mpr fun e he => by simpa using le_of_lt (hlt e he)
  simp only [insert, h₁, h₂]

theorem keys_insert_of_lt {m : OrdMap κ ρ} {k : κ} (v : ρ) (h : ∀ k' ∈ m.keys, k' < k) :
    (m.insert k v).keys = m.keys ++ [k] := by
  simp [keys, entries_insert_of_lt v h]

theorem values_insert_of_lt {m : OrdMap κ ρ} {k : κ} (v : ρ) (h : ∀ k' ∈ m.keys, k' < k) :
    (m.insert k v).values = m.values ++ [v] := by
  simp [values, entries_insert_of_lt v h]

/-- A new key adds one entry. -/
theorem perm_insert {m : OrdMap κ ρ} {k : κ} (v : ρ) (h : m.get? k = none) :
    (m.insert k v).entries.Perm ((k, v) :: m.entries) := by
  have hnd : ∀ m' : OrdMap κ ρ, m'.entries.Nodup := fun m' => m'.sorted.imp fun hlt heq => by
    rw [heq] at hlt
    exact lt_irrefl _ hlt
  refine (List.perm_ext_iff_of_nodup (hnd _) (List.nodup_cons.mpr ⟨get?_eq_none.mp h v, hnd m⟩)).mpr
    fun e => ?_
  rw [mem_insert, List.mem_cons]
  refine or_congr_right (and_iff_right_of_imp ?_)
  rintro he rfl
  exact get?_eq_none.mp h e.2 he

/-- Bind every pair of a list in turn; a later pair wins. -/
def insertAll (m : OrdMap κ ρ) (es : List (κ × ρ)) : OrdMap κ ρ :=
  es.foldl (fun acc e => acc.insert e.1 e.2) m

@[simp] theorem insertAll_nil (m : OrdMap κ ρ) : m.insertAll [] = m := rfl

@[simp] theorem insertAll_cons (m : OrdMap κ ρ) (e : κ × ρ) (es : List (κ × ρ)) :
    m.insertAll (e :: es) = (m.insert e.1 e.2).insertAll es := rfl

theorem insertAll_append (m : OrdMap κ ρ) (es es' : List (κ × ρ)) :
    m.insertAll (es ++ es') = (m.insertAll es).insertAll es' := by
  simp [insertAll, List.foldl_append]

theorem mem_insertAll {e : κ × ρ} : ∀ {es : List (κ × ρ)} {m : OrdMap κ ρ},
    e ∈ (m.insertAll es).entries → e ∈ m.entries ∨ e ∈ es
  | [], _, h => .inl h
  | e' :: es, m, h => by
      rw [insertAll_cons] at h
      rcases mem_insertAll h with h | h
      · rcases mem_insert.mp h with h | h
        · exact .inr (List.mem_cons.mpr (.inl h))
        · exact .inl h.2
      · exact .inr (List.mem_cons_of_mem _ h)

/-- What a key holds after a list of pairs: its last pair's value, or what it held before. -/
theorem get?_insertAll (k : κ) : ∀ (es : List (κ × ρ)) (m : OrdMap κ ρ),
    (m.insertAll es).get? k = ((es.filter (·.1 = k)).getLast?.map Prod.snd).or (m.get? k)
  | [], m => by simp
  | e :: es, m => by
      rw [insertAll_cons, get?_insertAll k es, List.filter_cons]
      by_cases hk : e.1 = k
      · subst hk
        rw [get?_insert_self, if_pos (by simp), List.getLast?_cons]
        rcases (es.filter (·.1 = e.1)).getLast? with _ | e' <;> simp
      · rw [get?_insert_ne m e.2 (Ne.symm hk), if_neg (by simpa using hk)]

theorem get?_insertAll_of_mem {es : List (κ × ρ)} (hnd : (es.map Prod.fst).Nodup) {k : κ} {v : ρ}
    (h : (k, v) ∈ es) (m : OrdMap κ ρ) : (m.insertAll es).get? k = some v := by
  have hsingle : es.filter (·.1 = k) = [(k, v)] := by
    obtain ⟨l₁, l₂, rfl⟩ := List.append_of_mem h
    simp only [List.map_append, List.map_cons] at hnd
    obtain ⟨-, h₂, hdisj⟩ := List.nodup_append.mp hnd
    have hnot₁ : ∀ e ∈ l₁, e.1 ≠ k := fun e he heq =>
      hdisj e.1 (List.mem_map.mpr ⟨e, he, rfl⟩) k (by simp) heq
    have hnot₂ : ∀ e ∈ l₂, e.1 ≠ k := fun e he heq =>
      (List.nodup_cons.mp h₂).1 (List.mem_map.mpr ⟨e, he, heq⟩)
    have hnil : ∀ l : List (κ × ρ), (∀ e ∈ l, e.1 ≠ k) → l.filter (·.1 = k) = [] :=
      fun l hl => List.filter_eq_nil_iff.mpr fun e he => by simpa using hl e he
    simp [List.filter_append, hnil l₁ hnot₁, hnil l₂ hnot₂]
  rw [get?_insertAll, hsingle]
  rfl

/-- A key that no pair binds keeps what it held. -/
theorem get?_insertAll_of_not_mem {es : List (κ × ρ)} {k : κ} (h : ∀ e ∈ es, e.1 ≠ k)
    (m : OrdMap κ ρ) : (m.insertAll es).get? k = m.get? k := by
  have hnil : es.filter (·.1 = k) = [] :=
    List.filter_eq_nil_iff.mpr fun e he => by simpa using h e he
  rw [get?_insertAll, hnil]
  rfl

/-- The map of a list of pairs; a later pair wins. -/
def ofList (es : List (κ × ρ)) : OrdMap κ ρ := insertAll ∅ es

/-- Inserting sorted entries that all lie beyond the map appends them. -/
theorem entries_insertAll_of_sorted {es : List (κ × ρ)} : ∀ {m : OrdMap κ ρ},
    (m.entries ++ es).Pairwise (fun a b => a.1 < b.1) →
      (m.insertAll es).entries = m.entries ++ es := by
  induction es with
  | nil => intro m _; simp [insertAll]
  | cons e es ih =>
      intro m hs
      have hlt : ∀ k' ∈ m.keys, k' < e.1 := by
        intro k' hk'
        obtain ⟨e', he', rfl⟩ := List.mem_map.mp hk'
        exact (List.pairwise_append.mp hs).2.2 e' he' e (by simp)
      have hm : (m.insert e.1 e.2).entries = m.entries ++ [e] := entries_insert_of_lt _ hlt
      have := ih (m := m.insert e.1 e.2) (by rw [hm]; simpa using hs)
      rw [hm] at this
      simpa [insertAll] using this

/-- **A map is rebuilt from its own entries.** -/
@[simp] theorem ofList_entries (m : OrdMap κ ρ) : ofList m.entries = m := by
  have h := @entries_insertAll_of_sorted κ ρ _ m.entries ∅ (by simpa using m.sorted)
  exact ext_entries (by simpa [ofList] using h)

/-- A function, where it is defined, inserted over a list of keys. -/
theorem get?_insertAll_filterMap (f : κ → Option ρ) (ks : List κ) (m : OrdMap κ ρ) (k : κ) :
    (m.insertAll (ks.filterMap fun k => (f k).map (k, ·))).get? k =
      (if k ∈ ks then f k else none).or (m.get? k) := by
  have hmem : ∀ e, e ∈ ks.filterMap (fun k => (f k).map (k, ·)) ↔ e.1 ∈ ks ∧ f e.1 = some e.2 := by
    rintro ⟨k', v⟩
    simp only [List.mem_filterMap, Option.map_eq_some_iff, Prod.mk.injEq]
    constructor
    · rintro ⟨a, ha, w, hw, rfl, rfl⟩
      exact ⟨ha, hw⟩
    · rintro ⟨hk, hv⟩
      exact ⟨k', hk, v, hv, rfl, rfl⟩
  rw [get?_insertAll]
  refine congrArg (Option.or · (m.get? k)) (Option.ext fun v => ?_)
  rw [Option.map_eq_some_iff]
  constructor
  · rintro ⟨e, hlast, rfl⟩
    obtain ⟨he, hk⟩ := List.mem_filter.mp (List.mem_of_getLast? hlast)
    obtain ⟨hks, hf⟩ := (hmem e).mp he
    obtain rfl : e.1 = k := by simpa using hk
    rw [if_pos hks, hf]
  · intro h
    obtain ⟨hk, hf⟩ := Option.ite_none_right_eq_some.mp h
    have hin : (k, v) ∈ (ks.filterMap fun k => (f k).map (k, ·)).filter (·.1 = k) :=
      List.mem_filter.mpr ⟨(hmem _).mpr ⟨hk, hf⟩, by simp⟩
    obtain ⟨e, hlast⟩ := Option.isSome_iff_exists.mp
      (List.getLast?_isSome.mpr (List.ne_nil_of_mem hin))
    obtain ⟨he, hek⟩ := List.mem_filter.mp (List.mem_of_getLast? hlast)
    obtain rfl : e.1 = k := by simpa using hek
    exact ⟨e, hlast, Option.some.inj (((hmem e).mp he).2.symm.trans hf)⟩

/-- The map of a function, where it is defined, over a list of keys. -/
theorem get?_ofList_filterMap (f : κ → Option ρ) (ks : List κ) (k : κ) :
    (ofList (ks.filterMap fun k => (f k).map (k, ·))).get? k = if k ∈ ks then f k else none := by
  rw [ofList, get?_insertAll_filterMap, get?_empty, Option.or_none]

/-- Adjacent entries replaced by one at the first of their keys. -/
theorem entries_replace {m : OrdMap κ ρ} {before run after : List (κ × ρ)} {k : κ}
    (h : m.entries = before ++ run ++ after) (hk : run.head?.map Prod.fst = some k) (v : ρ) :
    ((m.filter fun k' _ => k' ∉ run.map Prod.fst).insert k v).entries =
      before ++ (k, v) :: after := by
  obtain ⟨e, he, rfl⟩ := Option.map_eq_some_iff.mp hk
  have her : e ∈ run := List.mem_of_head? he
  have hsorted := h ▸ m.sorted
  rw [List.append_assoc] at hsorted
  obtain ⟨-, hrest, hbefore⟩ := List.pairwise_append.mp hsorted
  obtain ⟨-, -, hafter⟩ := List.pairwise_append.mp hrest
  have hlt : ∀ b ∈ before, ∀ r ∈ run, b.1 < r.1 := fun b hb r hr => hbefore b hb r (by simp [hr])
  have hkeep : (m.filter fun k' _ => k' ∉ run.map Prod.fst).entries = before ++ after := by
    have hin : ∀ es : List (κ × ρ), (∀ x ∈ es, ∀ r ∈ run, x.1 ≠ r.1) →
        es.filter (fun x => decide (x.1 ∉ run.map Prod.fst)) = es := fun es hes =>
      List.filter_eq_self.mpr fun x hx => by
        simp only [List.mem_map, decide_eq_true_eq]
        rintro ⟨r, hr, heq⟩
        exact hes x hx r hr heq.symm
    have hout : run.filter (fun x => decide (x.1 ∉ run.map Prod.fst)) = [] :=
      List.filter_eq_nil_iff.mpr fun x hx => by
        simpa using ⟨x.2, hx⟩
    rw [entries_filter, h, List.filter_append, List.filter_append, hout, List.append_nil,
      hin before fun x hx r hr => ne_of_lt (hlt x hx r hr),
      hin after fun x hx r hr => ne_of_gt (hafter r hr x hx)]
  have hb : ∀ x ∈ before, x.1 < e.1 := fun x hx => hlt x hx e her
  have ha : ∀ x ∈ after, e.1 < x.1 := hafter e her
  simp only [insert, hkeep, List.filter_append]
  rw [List.filter_eq_self.mpr fun x hx => by simpa using hb x hx,
    List.filter_eq_nil_iff.mpr fun x hx => by simpa using le_of_lt (ha x hx),
    List.filter_eq_nil_iff.mpr fun x hx => by simpa using le_of_lt (hb x hx),
    List.filter_eq_self.mpr fun x hx => by simpa using ha x hx, List.append_nil, List.nil_append]

/-! ## Mapping the values -/

section Map

variable {μ : Type w}

/-- The map with every value replaced by what `f` makes of it and its key. -/
def map (f : κ → ρ → μ) (m : OrdMap κ ρ) : OrdMap κ μ where
  entries := m.entries.map fun e => (e.1, f e.1 e.2)
  sorted := by
    rw [List.pairwise_map]
    exact m.sorted

@[simp] theorem entries_map (f : κ → ρ → μ) (m : OrdMap κ ρ) :
    (m.map f).entries = m.entries.map fun e => (e.1, f e.1 e.2) := rfl

@[simp] theorem keys_map (f : κ → ρ → μ) (m : OrdMap κ ρ) : (m.map f).keys = m.keys := by
  rw [keys, entries_map, List.map_map]
  rfl

theorem mem_map {f : κ → ρ → μ} {m : OrdMap κ ρ} {k : κ} {u : μ} :
    (k, u) ∈ (m.map f).entries ↔ ∃ v, (k, v) ∈ m.entries ∧ f k v = u := by
  simp only [entries_map, List.mem_map, Prod.mk.injEq]
  constructor
  · rintro ⟨⟨k', v⟩, he, rfl, hv⟩
    exact ⟨v, he, hv⟩
  · rintro ⟨v, he, hv⟩
    exact ⟨(k, v), he, rfl, hv⟩

@[simp] theorem get?_map (f : κ → ρ → μ) (m : OrdMap κ ρ) (k : κ) :
    (m.map f).get? k = (m.get? k).map (f k) := by
  refine Option.ext fun u => ?_
  rw [get?_eq_some, mem_map, Option.map_eq_some_iff]
  simp only [get?_eq_some]

theorem map_map {ν : Type w} (f : κ → ρ → μ) (g : κ → μ → ν) (m : OrdMap κ ρ) :
    (m.map f).map g = m.map fun k v => g k (f k v) :=
  ext_entries (by simp)

theorem filter_map (p : κ → μ → Bool) (f : κ → ρ → μ) (m : OrdMap κ ρ) :
    (m.map f).filter p = (m.filter fun k v => p k (f k v)).map f :=
  ext_entries (by rw [entries_filter, entries_map, entries_map, entries_filter, List.filter_map]; rfl)

theorem map_congr {f g : κ → ρ → μ} {m : OrdMap κ ρ} (h : ∀ k v, m.get? k = some v → f k v = g k v) :
    m.map f = m.map g := by
  refine ext_get? fun k => ?_
  rw [get?_map, get?_map]
  rcases hv : m.get? k with _ | v
  · rfl
  · rw [Option.map_some, Option.map_some, h k v hv]

end Map

/-! ## Groups of a table with a two-part key -/

section Group

variable {γ : Type u} {σ : Type v} {τ : Type v} [LinearOrder γ] [LinearOrder σ]

/-- The entries whose key starts with `g`, keyed by the rest. -/
def group (m : OrdMap (γ ×ₗ σ) τ) (g : γ) : OrdMap σ τ where
  entries := m.entries.filterMap fun e =>
    if (ofLex e.1).1 = g then some ((ofLex e.1).2, e.2) else none
  sorted := by
    rw [List.pairwise_filterMap]
    refine m.sorted.imp ?_
    rintro ⟨a, u⟩ ⟨b, w⟩ hab x hx y hy
    obtain ⟨hx₁, hx₂⟩ := Option.ite_none_right_eq_some.mp hx
    obtain ⟨hy₁, hy₂⟩ := Option.ite_none_right_eq_some.mp hy
    obtain rfl := Option.some.inj hx₂
    obtain rfl := Option.some.inj hy₂
    rcases Prod.Lex.lt_iff.mp hab with h | ⟨-, h⟩
    · exact absurd h (by rw [hx₁, hy₁]; exact lt_irrefl g)
    · exact h

theorem mem_group {m : OrdMap (γ ×ₗ σ) τ} {g : γ} {s : σ} {t : τ} :
    (s, t) ∈ (m.group g).entries ↔ (toLex (g, s), t) ∈ m.entries := by
  simp only [group, List.mem_filterMap, Option.ite_none_right_eq_some]
  constructor
  · rintro ⟨⟨k, w⟩, hm, rfl, h⟩
    obtain ⟨rfl, rfl⟩ := Prod.mk.inj (Option.some.inj h)
    exact hm
  · intro h
    exact ⟨_, h, rfl, rfl⟩

@[simp] theorem get?_group (m : OrdMap (γ ×ₗ σ) τ) (g : γ) (s : σ) :
    (m.group g).get? s = m.get? (toLex (g, s)) :=
  Option.ext fun t => by rw [get?_eq_some, get?_eq_some, mem_group]

@[simp] theorem group_empty (g : γ) : (∅ : OrdMap (γ ×ₗ σ) τ).group g = ∅ := rfl

/-- Tables that agree group by group are equal. -/
theorem ext_group {m m' : OrdMap (γ ×ₗ σ) τ} (h : ∀ g, m.group g = m'.group g) : m = m' :=
  ext_get? fun k => by
    have := congrArg (fun t => t.get? (ofLex k).2) (h (ofLex k).1)
    simpa using this

theorem keys_group (m : OrdMap (γ ×ₗ σ) τ) (g : γ) : (m.group g).keys =
    m.keys.filterMap fun k => if (ofLex k).1 = g then some (ofLex k).2 else none := by
  unfold keys group
  rw [List.filterMap_map, List.map_filterMap]
  refine List.filterMap_congr fun e _ => ?_
  dsimp only [Function.comp_apply]
  split <;> rfl

/-- Two tests that no element passes both of. -/
theorem countP_or {α : Type*} {p q : α → Bool} : ∀ {l : List α}, (∀ a ∈ l, ¬(p a ∧ q a)) →
    l.countP (fun a => p a || q a) = l.countP p + l.countP q
  | [], _ => rfl
  | a :: l, h => by
      have hl := countP_or fun b hb => h b (List.mem_cons_of_mem a hb)
      have ha := h a List.mem_cons_self
      simp only [List.countP_cons, hl]
      cases hp : p a with
      | false =>
          simp only [Bool.false_or, Bool.false_eq_true, if_false]
          omega
      | true =>
          have hq : q a = false := by simpa [hp] using ha
          simp only [hq, Bool.true_or, Bool.false_eq_true, if_true, if_false]
          omega

/-- Counting in each of several groups counts the keys of all of them; `q` tells which keys
are of one of the groups. -/
theorem sum_countP_group (m : OrdMap (γ ×ₗ σ) τ) (p : γ → σ → Bool) : ∀ {gs : List γ} {q : γ → Bool},
    gs.Nodup → (∀ k ∈ m.keys, (q (ofLex k).1 = true ↔ (ofLex k).1 ∈ gs)) →
    (gs.map fun g => (m.group g).keys.countP (p g)).sum =
      m.keys.countP fun k => q (ofLex k).1 && p (ofLex k).1 (ofLex k).2
  | [], q, _, hq => by
      refine (List.countP_eq_zero.mpr fun k hk => ?_).symm
      have hnone : ¬(q (ofLex k).1 = true) := fun h => absurd ((hq k hk).mp h) (by simp)
      rw [Bool.and_eq_true]
      exact fun h => hnone h.1
  | g :: gs, q, hnd, hq => by
      obtain ⟨hg, hgs⟩ := List.nodup_cons.mp hnd
      have hone : (m.group g).keys.countP (p g) =
          m.keys.countP fun k => decide ((ofLex k).1 = g) && p (ofLex k).1 (ofLex k).2 := by
        rw [keys_group, List.countP_filterMap]
        refine List.countP_congr fun k _ => ?_
        by_cases hk : (ofLex k).1 = g
        · subst hk
          simp
        · simp [hk]
      have hrest := sum_countP_group m p (q := fun g => decide (g ∈ gs)) hgs fun _ _ => decide_eq_true_iff
      rw [List.map_cons, List.sum_cons, hrest, hone, ← countP_or]
      · refine List.countP_congr fun k hk => ?_
        simp only [Bool.or_eq_true, Bool.and_eq_true, decide_eq_true_eq]
        rw [hq k hk, List.mem_cons]
        exact or_and_right.symm
      · -- a key is of at most one of the groups
        rintro k - ⟨h₁, h₂⟩
        simp only [Bool.and_eq_true, decide_eq_true_eq] at h₁ h₂
        exact hg (h₁.1 ▸ h₂.1)

@[simp] theorem group_insert_self (m : OrdMap (γ ×ₗ σ) τ) (g : γ) (s : σ) (t : τ) :
    (m.insert (toLex (g, s)) t).group g = (m.group g).insert s t :=
  ext_get? fun s' => by simp [get?_insert]

theorem group_insert_ne {g g' : γ} (m : OrdMap (γ ×ₗ σ) τ) (s : σ) (t : τ) (h : g' ≠ g) :
    (m.insert (toLex (g, s)) t).group g' = m.group g' :=
  ext_get? fun s' => by simp [get?_insert, h]

theorem group_insertAll (g : γ) : ∀ (es : List ((γ ×ₗ σ) × τ)) (m : OrdMap (γ ×ₗ σ) τ),
    (m.insertAll es).group g = (m.group g).insertAll (es.filterMap fun e =>
      if (ofLex e.1).1 = g then some ((ofLex e.1).2, e.2) else none)
  | [], m => by simp
  | ⟨k, t⟩ :: es, m => by
      rw [insertAll_cons, group_insertAll g es, List.filterMap_cons]
      by_cases hg : (ofLex k).1 = g
      · subst hg
        rw [if_pos rfl, insertAll_cons]
        exact congrArg (OrdMap.insertAll · _) (group_insert_self m _ _ _)
      · rw [if_neg hg]
        exact congrArg (OrdMap.insertAll · _) (group_insert_ne m _ _ (Ne.symm hg))

theorem group_filter (p : γ ×ₗ σ → τ → Bool) (m : OrdMap (γ ×ₗ σ) τ) (g : γ) :
    (m.filter p).group g = (m.group g).filter fun s t => p (toLex (g, s)) t :=
  ext_get? fun s => by simp [get?_filter]

theorem group_map {μ : Type v} (f : γ ×ₗ σ → τ → μ) (m : OrdMap (γ ×ₗ σ) τ) (g : γ) :
    (m.map f).group g = (m.group g).map fun s t => f (toLex (g, s)) t :=
  ext_get? fun s => by rw [get?_group, get?_map, get?_map, get?_group]

end Group

end OrdMap
