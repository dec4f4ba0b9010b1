import Dendro.Documents.Copy
import Dendro.Documents.EditProof

/-!
# What a copy carries

`Carried` is the loop invariant of `copy_documents`: what stands in the destination after the
first revisions of the source, and what the copy remembers of them. The destination's own
rows stay in front; behind them stands one row for each revision it did not hold, in the
source's order, each superseding the row with the uuid its original supersedes (`Carries`).
-/

namespace Dendro

namespace Documents

/-- `n` is the row a copy makes of the revision `p` of `s`, in a table that grew to `t`. -/
structure Carries (s t : Documents) (p n : DocumentRow) : Prop where
  uuid : n.uuid = p.uuid
  kind : n.kind = p.kind
  name : n.name = p.name
  content : n.content = p.content
  created : n.created_wall_ns = p.created_wall_ns
  root : p.supersedes = none → n.supersedes = none
  link : ∀ q ∈ s.rows, p.supersedes = some q.id →
    ∃ m ∈ t.rows, m.uuid = q.uuid ∧ n.supersedes = some m.id

theorem Carries.mono {s t t' : Documents} {p n : DocumentRow} (h : Carries s t p n)
    (ht : t.Extends t') : Carries s t' p n where
  uuid := h.uuid
  kind := h.kind
  name := h.name
  content := h.content
  created := h.created
  root := h.root
  link := by
    intro q hq hs
    obtain ⟨m, hm, hrest⟩ := h.link q hq hs
    exact ⟨m, ht.mem hm, hrest⟩

theorem Carries.isOf {s t : Documents} {p n : DocumentRow} (h : Carries s t p n)
    (kind name : String) : n.isOf kind name = p.isOf kind name := by
  rw [DocumentRow.isOf, DocumentRow.isOf, h.kind, h.name]

/-- Of a list of revisions, those the table `d` does not hold. -/
def brought (d : Documents) (rows : List DocumentRow) : List DocumentRow :=
  rows.filter fun r => r.uuid ∉ d.uuids

theorem mem_brought {d : Documents} {rows : List DocumentRow} {r : DocumentRow} :
    r ∈ d.brought rows ↔ r ∈ rows ∧ r.uuid ∉ d.uuids := by
  simp [brought]

/-- The state of a copy from `s` into a table that was `d`, after the revisions `done`: the
table is `t`, with the rows `new` at its end. -/
structure Carried (s d : Documents) (done : List DocumentRow) (c : Copying) (t : Documents)
    (new : List DocumentRow) : Prop where
  rows : t.rows = d.rows ++ new
  carries : List.Forall₂ (Carries s t) (d.brought done) new
  /-- Each revision done is in the table, and its id is on record. -/
  ids : ∀ r ∈ done, ∃ m ∈ t.rows, c.ids.get? r.id = some m.id ∧ m.uuid = r.uuid ∧
    m.kind = r.kind ∧ m.name = r.name ∧ m.content = r.content
  touched : ∀ kind name, c.touched.get? (toLex (kind, name)) =
    ((new.filter (DocumentRow.isOf kind name)).getLast?).map fun n =>
      ((d.newest kind name).map DocumentFile.headOf, n.id)
  first_le : ∀ n ∈ new, c.first_inserted ≤ n.id
  lt_first : ∀ r ∈ d.rows, (r.id : WithTop Int) < c.first_inserted
  inserted : c.inserted = new.length

theorem Carried.start (s d : Documents) : Carried s d [] .start d [] where
  rows := by simp
  carries := .nil
  ids := nofun
  touched _ _ := rfl
  first_le := nofun
  lt_first _ _ := WithTop.coe_lt_top _
  inserted := rfl

/-- A table whose rows come behind those of `d` extends it. -/
theorem Carried.extends {s d t : Documents} {done new : List DocumentRow} {c : Copying}
    (h : Carried s d done c t new) : d.Extends t := .of_append h.rows

/-- A revision that is still to come is held only if the destination held it. -/
theorem Carried.held_iff {s d t : Documents} {done rest new : List DocumentRow} {c : Copying}
    {r : DocumentRow} (h : Carried s d done c t new) (hs : s.rows = done ++ r :: rest) :
    r.uuid ∈ t.uuids ↔ r.uuid ∈ d.uuids := by
  constructor
  · intro hr
    obtain ⟨m, hm, hu⟩ := mem_uuids.mp hr
    rw [h.rows] at hm
    rcases List.mem_append.mp hm with hm | hm
    · exact mem_uuids.mpr ⟨m, hm, hu⟩
    · -- a row the copy made has the uuid of an earlier revision
      obtain ⟨p, hp, hcarries⟩ : ∃ p ∈ d.brought done, Carries s t p m := by
        obtain ⟨i, hi, rfl⟩ := List.getElem_of_mem hm
        have hlen := h.carries.length_eq
        exact ⟨_, List.getElem_mem (by omega), h.carries.get (by omega) hi⟩
      have hne : p.uuid ≠ r.uuid := by
        have hunique := s.unique
        rw [hs] at hunique
        exact (List.pairwise_append.mp hunique).2.2 p (mem_brought.mp hp).1 r (by simp)
      exact absurd (hcarries.uuid.symm.trans hu) hne
  · exact h.extends.uuids

/-- The id on record for one revision more. -/
theorem Carried.ids_insert {s d t t' : Documents} {done rest new : List DocumentRow}
    {c : Copying} {r m : DocumentRow} (h : Carried s d done c t new)
    (hs : s.rows = done ++ r :: rest) (hext : t.Extends t') (hm : m ∈ t'.rows)
    (hmatch : m.uuid = r.uuid ∧ m.kind = r.kind ∧ m.name = r.name ∧ m.content = r.content) :
    ∀ p ∈ done ++ [r], ∃ m' ∈ t'.rows, (c.ids.insert r.id m.id).get? p.id = some m'.id ∧
      m'.uuid = p.uuid ∧ m'.kind = p.kind ∧ m'.name = p.name ∧ m'.content = p.content := by
  intro p hp
  rcases List.mem_append.mp hp with hp | hp
  · have hne : p.id ≠ r.id := by
      have hsorted := s.sorted
      rw [hs] at hsorted
      exact ((List.pairwise_append.mp hsorted).2.2 p hp r (by simp)).ne
    obtain ⟨m', hm', hid, hrest⟩ := h.ids p hp
    exact ⟨m', hext.mem hm', (OrdMap.get?_insert_ne _ _ hne).trans hid, hrest⟩
  · rw [List.mem_singleton.mp hp]
    exact ⟨m, hm, OrdMap.get?_insert_self _ _ _, hmatch⟩

/-- Skipping a revision the destination holds. -/
theorem Carried.skip {s d t : Documents} {done rest new : List DocumentRow} {c : Copying}
    {r held : DocumentRow} (h : Carried s d done c t new) (hs : s.rows = done ++ r :: rest)
    (hheld : t.withUuid r.uuid = some held) (hsame : DocumentFile.same held r) :
    Carried s d (done ++ [r]) (c.held r held.id) t new := by
  obtain ⟨hm, hu⟩ := withUuid_eq_some.mp hheld
  have hd : r.uuid ∈ d.uuids := (h.held_iff hs).mp (mem_uuids.mpr ⟨held, hm, hu⟩)
  simp only [DocumentFile.same, Bool.and_eq_true, decide_eq_true_eq] at hsame
  refine { h with carries := ?_, ids := ?_ }
  · have hnone : d.brought [r] = [] := List.filter_eq_nil_iff.mpr (by simp [hd])
    rw [brought, List.filter_append, ← brought, ← brought, hnone, List.append_nil]
    exact h.carries
  · exact h.ids_insert hs (.refl t) hm ⟨hu, hsame.1.1, hsame.1.2, hsame.2⟩

/-- What a revision supersedes is done before it. -/
theorem Linked.mem_done {s : Documents} {done rest : List DocumentRow} {r q : DocumentRow}
    (h : s.Linked) (hs : s.rows = done ++ r :: rest) (hq : q ∈ s.rows)
    (hsup : r.supersedes = some q.id) : q ∈ done ∧ q.kind = r.kind ∧ q.name = r.name := by
  obtain ⟨q', hq', hid, hlt, hkind, hname⟩ := h r (by rw [hs]; simp) q.id hsup
  obtain rfl := eq_of_id hq' hq hid
  refine ⟨?_, hkind, hname⟩
  have hsorted := s.sorted
  rw [hs] at hsorted hq
  obtain ⟨-, hrest, -⟩ := List.pairwise_append.mp hsorted
  rcases List.mem_append.mp hq with hq | hq
  · exact hq
  rcases List.mem_cons.mp hq with rfl | hq
  · exact absurd hlt (lt_irrefl _)
  · exact absurd hlt ((List.pairwise_cons.mp hrest).1 q' hq).not_gt

/-- What the renumbered pointer of a revision names: the row with the uuid of the revision
that is superseded. -/
theorem Carried.link {s d t : Documents} {done rest new : List DocumentRow} {c : Copying}
    {r q : DocumentRow} (h : Carried s d done c t new) (hlinked : s.Linked)
    (hs : s.rows = done ++ r :: rest) (hq : q ∈ s.rows) (hsup : r.supersedes = some q.id) :
    ∃ m ∈ t.rows, m.uuid = q.uuid ∧ (c.revision r).supersedes = some m.id ∧
      m.kind = r.kind ∧ m.name = r.name := by
  obtain ⟨hdone, hkind, hname⟩ := hlinked.mem_done hs hq hsup
  obtain ⟨m, hm, hid, hu, hmkind, hmname, -⟩ := h.ids q hdone
  refine ⟨m, hm, hu, ?_, hmkind.trans hkind, hmname.trans hname⟩
  show r.supersedes.bind c.ids.get? = some m.id
  rw [hsup, Option.bind_some, hid]

/-- A pointer of an inserted revision names a row of its own document. -/
theorem Carried.revision_link {s d t : Documents} {done rest new : List DocumentRow} {c : Copying}
    {r : DocumentRow} (h : Carried s d done c t new) (hlinked : s.Linked)
    (hs : s.rows = done ++ r :: rest) : ∀ i, (c.revision r).supersedes = some i →
      ∃ m ∈ t.rows, m.id = i ∧ m.kind = r.kind ∧ m.name = r.name := by
  intro i hi
  obtain ⟨a, ha, -⟩ := Option.bind_eq_some_iff.mp hi
  obtain ⟨q, hq, rfl, -⟩ := hlinked r (by rw [hs]; simp) a ha
  obtain ⟨m, hm, -, hsup, hkind, hname⟩ := h.link hlinked hs hq ha
  exact ⟨m, hm, Option.some.inj (hsup.symm.trans hi), hkind, hname⟩

/-- The baseline of a document: its newest revision before the copy, whether the copy has
inserted into it or not. -/
theorem Carried.before {s d t : Documents} {done new : List DocumentRow} {c : Copying}
    (h : Carried s d done c t new) (kind name : String) :
    (∀ before last, c.touched.get? (toLex (kind, name)) = some (before, last) →
        before = (d.newest kind name).map DocumentFile.headOf) ∧
      (c.touched.get? (toLex (kind, name)) = none → t.newest kind name = d.newest kind name) := by
  have htouched := h.touched kind name
  constructor
  · intro before last hget
    rw [hget] at htouched
    obtain ⟨n, -, hn⟩ := Option.map_eq_some_iff.mp htouched.symm
    exact (Prod.mk.inj hn).1.symm
  · intro hget
    rw [hget] at htouched
    have hnone := Option.map_eq_none_iff.mp htouched.symm
    rw [newest_append h.rows, hnone, Option.none_or]

/-- Inserting a revision the destination does not hold. -/
theorem Carried.place {s d t t' : Documents} {done rest new : List DocumentRow} {c : Copying}
    {r : DocumentRow} {id : Int} (h : Carried s d done c t new) (hlinked : s.Linked)
    (hs : s.rows = done ++ r :: rest) (hins : t.insert (c.revision r) = .ok (id, t')) :
    Carried s d (done ++ [r])
      (c.placed r ((d.newest r.kind r.name).map DocumentFile.headOf) id) t'
      (new ++ [(c.revision r).row id]) := by
  obtain ⟨rfl, hrows, hfresh⟩ := insert_ok hins
  have hext : t.Extends t' := .of_append hrows
  have hmem : (c.revision r).row (t.lastId + 1) ∈ t'.rows := by rw [hrows]; simp
  have hd : r.uuid ∉ d.uuids := fun hr => hfresh ((h.held_iff hs).mpr hr)
  have hcarries : Carries s t' r ((c.revision r).row (t.lastId + 1)) := by
    refine ⟨rfl, rfl, rfl, rfl, rfl, fun hnone => ?_, fun q hq hsup => ?_⟩
    · show r.supersedes.bind c.ids.get? = none
      rw [hnone, Option.bind_none]
    · obtain ⟨m, hm, hu, hid, -⟩ := h.link hlinked hs hq hsup
      exact ⟨m, hext.mem hm, hu, hid⟩
  refine ⟨?_, ?_, ?_, ?_, ?_, ?_, ?_⟩
  · rw [hrows, h.rows, List.append_assoc]
  · have hone : d.brought [r] = [r] := List.filter_eq_self.mpr (by simp [hd])
    rw [brought, List.filter_append, ← brought, ← brought, hone]
    exact List.rel_append (h.carries.imp fun _ _ hp => hp.mono hext) (.cons hcarries .nil)
  · exact h.ids_insert hs hext hmem ⟨rfl, rfl, rfl, rfl⟩
  · intro kind name
    show (c.touched.insert (toLex (r.kind, r.name)) _).get? (toLex (kind, name)) = _
    rw [List.filter_append]
    by_cases hof : ((c.revision r).row (t.lastId + 1)).isOf kind name
    · obtain ⟨hkind, hname⟩ := DocumentRow.isOf_iff.mp hof
      obtain rfl : r.kind = kind := hkind
      obtain rfl : r.name = name := hname
      rw [OrdMap.get?_insert_self, List.filter_cons_of_pos hof, List.filter_nil,
        List.getLast?_concat]
      rfl
    · have hne : (toLex (kind, name) : DocumentKey) ≠ toLex (r.kind, r.name) := by
        intro heq
        obtain ⟨hkind, hname⟩ := Prod.mk.inj (toLex.injective heq)
        exact hof (DocumentRow.isOf_iff.mpr ⟨hkind.symm, hname.symm⟩)
      rw [OrdMap.get?_insert_ne _ _ hne, List.filter_cons_of_neg hof, List.filter_nil,
        List.append_nil]
      exact h.touched kind name
  · intro n hn
    rcases List.mem_append.mp hn with hn | hn
    · exact (min_le_left _ _).trans (h.first_le n hn)
    · rw [List.mem_singleton.mp hn]
      exact min_le_right _ _
  · intro p hp
    refine lt_min (h.lt_first p hp) ?_
    have hle := id_le_lastId (h.extends.mem hp)
    exact WithTop.coe_lt_coe.mpr (Int.lt_add_one_of_le hle)
  · rw [List.length_append, ← h.inserted]
    rfl

end Documents

namespace DocumentFile

open Documents

/-! ## The loop -/

/-- A copy from `s` into a file whose table was `d`, with the revisions `rest` to go. -/
def Amid (s d : Documents) (rest : List DocumentRow) (c : Copying) (f : DocumentFile) : Prop :=
  ∃ done new t, s.rows = done ++ rest ∧ f.documents = some t ∧ Carried s d done c t new ∧ t.Linked

/-- A copy that stopped somewhere. -/
def Partly (s d : Documents) (f : DocumentFile) : Prop := ∃ rest c, Amid s d rest c f

variable {s d : Documents}

theorem head_runs {f : DocumentFile} {t : Documents} (ht : f.documents = some t)
    (kind name : String) {E : Error → DocumentFile → Prop} (hE : ∀ e, E e f) :
    Prog.Runs (fun _ _ => True) (head kind name) f
      (fun h f' => f' = f ∧ h = (t.newest kind name).map headOf) E := by
  refine .read (fun h hh => ?_) (fun e _ => hE e) fun x => hE _
  obtain ⟨t', ht', rfl⟩ := of_query hh
  obtain rfl : t = t' := Option.some.inj (ht.symm.trans ht')
  exact ⟨rfl, rfl⟩

theorem copyRow_runs (hs : s.Linked) {r : DocumentRow} {rest : List DocumentRow} {c : Copying}
    {f : DocumentFile} (h : Amid s d (r :: rest) c f) :
    Prog.Runs (fun _ _ => True) (copyRow c r) f (Amid s d rest) fun _ => Partly s d := by
  have hpartly : Partly s d f := ⟨_, _, h⟩
  obtain ⟨done, new, t, hrows, ht, hcarried, hlinked⟩ := h
  have hnext : s.rows = (done ++ [r]) ++ rest := by simp [hrows]
  unfold copyRow
  refine .bind (Q := fun _ f' => f' = f) (.read (fun _ _ => rfl) (fun _ _ => hpartly)
    fun _ => hpartly) ?_
  rintro _ f rfl
  refine .bind (Q := fun _ f' => f' = f) ?_ ?_
  · unfold ensure
    split
    · exact .pure rfl
    · exact (checkWritable_ends f).runs.mono (fun _ _ h => h) fun _ _ h => h ▸ hpartly
  rintro _ f rfl
  refine .bind (Q := fun held f' => f' = f ∧ held = t.withUuid r.uuid)
    (.read (fun held hheld => ?_) (fun _ _ => hpartly) fun _ => hpartly) ?_
  · obtain ⟨t', ht', rfl⟩ := of_query hheld
    obtain rfl : t = t' := Option.some.inj (ht.symm.trans ht')
    exact ⟨rfl, rfl⟩
  rintro _ f ⟨rfl, rfl⟩
  rcases hheld : t.withUuid r.uuid with _ | held
  · dsimp only
    refine .bind (Q := fun before f' => f' = f ∧ before = (d.newest r.kind r.name).map headOf)
      ?_ ?_
    · obtain ⟨hsome, hnone⟩ := hcarried.before r.kind r.name
      unfold baseline
      rcases hget : c.touched.get? (toLex (r.kind, r.name)) with _ | ⟨before, last⟩
      · exact (head_runs ht r.kind r.name fun _ => hpartly).mono
          (fun _ _ h => ⟨h.1, h.2.trans (by rw [hnone hget])⟩) fun _ _ h => h
      · exact .pure ⟨rfl, hsome before last hget⟩
    rintro _ f ⟨rfl, rfl⟩
    refine .bind (Q := fun id f' => Wrote f (c.revision r) id f')
      ((insertRevision_ends (c.revision r) f).runs.mono ?_ ?_) ?_
    · rintro id f' (⟨id', hid, hwrote⟩ | ⟨hnot, -⟩)
      · exact Outcome.ok.inj hid ▸ hwrote
      · exact absurd hnot (by simp [Outcome.isOk])
    · rintro e f' (⟨id', hid, -⟩ | ⟨-, rfl⟩)
      · exact absurd hid (by simp)
      · exact hpartly
    · intro id f' hwrote
      obtain ⟨t₁, t', ht₁, ht', hins⟩ := hwrote.tables
      obtain rfl : t = t₁ := Option.some.inj (ht.symm.trans ht₁)
      refine .pure ⟨_, _, t', hnext, ht', hcarried.place hs hrows hins, ?_⟩
      exact hlinked.insert hins (hcarried.revision_link hs hrows)
  · dsimp only
    split
    · rename_i hsame
      exact .pure ⟨_, new, t, hnext, ht, hcarried.skip hrows hheld hsame, hlinked⟩
    · exact .fail hpartly

/-! ## The report -/

/-- The fork of one document, if it is one. -/
def forkedOf (t : Documents) (first_inserted : WithTop Int)
    (e : DocumentKey × (Option Head × Int)) : List Fork :=
  match e.2.1 with
  | none => []
  | some before =>
    let walk := t.ancestry e.2.2 before.id first_inserted
    if !walk.1 && (!before.deleted || walk.2) then
      [{ kind := (ofLex e.1).1, name := (ofLex e.1).2, displaced := before.uuid,
         current := (((t.newest (ofLex e.1).1 (ofLex e.1).2).map headOf).map (·.uuid)).getD "" }]
    else []

/-- A fork is reported under its document's key. -/
theorem mem_forkedOf {t : Documents} {first_inserted : WithTop Int}
    {e : DocumentKey × (Option Head × Int)} {fork : Fork}
    (h : fork ∈ forkedOf t first_inserted e) : e.1 = toLex (fork.kind, fork.name) := by
  unfold forkedOf at h
  split at h
  · simp at h
  · dsimp only at h
    split at h
    · rw [List.mem_singleton.mp h]
      rfl
    · simp at h

/-- What a copy reports: its documents in order, and the forks among them. -/
def reportOf (t : Documents) (c : Copying) (es : List (DocumentKey × (Option Head × Int))) :
    CopiedDocuments where
  inserted := c.inserted
  current := es.map fun e => ofLex e.1
  forked := es.flatMap (forkedOf t c.first_inserted)

theorem forksOf_runs {f : DocumentFile} {t : Documents} (ht : f.documents = some t)
    (first_inserted : WithTop Int) (e : DocumentKey × (Option Head × Int)) :
    Prog.Runs (fun _ _ => True) (forksOf first_inserted e) f
      (fun forked f' => f' = f ∧ forked = forkedOf t first_inserted e) fun _ f' => f' = f := by
  unfold forksOf forkedOf
  rcases e.2.1 with _ | before
  · exact .pure ⟨rfl, rfl⟩
  dsimp only
  unfold forkOf
  refine .bind (Q := fun a f' => f' = f ∧ a = t.ancestry e.2.2 before.id first_inserted)
    (.read (fun a ha => ?_) (fun _ _ => rfl) fun _ => rfl) ?_
  · obtain ⟨t', ht', rfl⟩ := of_query ha
    obtain rfl : t = t' := Option.some.inj (ht.symm.trans ht')
    exact ⟨rfl, rfl⟩
  rintro _ f ⟨rfl, rfl⟩
  rcases t.ancestry e.2.2 before.id first_inserted with ⟨reaches, shares⟩
  dsimp only
  split
  · refine .bind (head_runs ht _ _ fun _ => rfl) ?_
    rintro _ f ⟨rfl, rfl⟩
    exact .pure ⟨rfl, rfl⟩
  · exact .pure ⟨rfl, rfl⟩

theorem reportDocument_runs {f : DocumentFile} {t : Documents} (ht : f.documents = some t)
    (c : Copying) (es : List (DocumentKey × (Option Head × Int)))
    (e : DocumentKey × (Option Head × Int)) :
    Prog.Runs (fun _ _ => True) (reportDocument c.first_inserted (reportOf t c es) e) f
      (fun report f' => f' = f ∧ report = reportOf t c (es ++ [e])) fun _ f' => f' = f := by
  unfold reportDocument
  refine .bind (forksOf_runs ht _ e) ?_
  rintro _ f ⟨rfl, rfl⟩
  exact .pure ⟨rfl, by simp [reportOf]⟩

/-! ## A whole copy -/

/-- What a copy that returns leaves and reports. -/
structure Merged (s d : Documents) (report : CopiedDocuments) (t : Documents) : Prop where
  linked : t.Linked
  carried : ∃ c new, Carried s d s.rows c t new ∧ report = reportOf t c c.touched.entries

theorem copyDocuments_runs {src f : DocumentFile} (hsrc : src.documents = some s)
    (hf : f.documents = some d) (hs : s.Linked) (hd : d.Linked) :
    Prog.Runs (fun _ _ => True) (copyDocuments src) f
      (fun report f' => ∃ t, f'.documents = some t ∧ Merged s d report t)
      fun _ f' => Partly s d f' := by
  have hstart : Amid s d s.rows .start f := ⟨[], [], d, rfl, hf, .start s d, hd⟩
  unfold copyDocuments
  refine .bind (Q := fun has f' => f' = f ∧ has = true) (.read (fun has hhas => ?_)
    (fun _ _ => ⟨_, _, hstart⟩) fun _ => ⟨_, _, hstart⟩) ?_
  · rw [hsrc] at hhas
    exact ⟨rfl, (Except.ok.inj hhas).symm⟩
  rintro _ f ⟨rfl, rfl⟩
  rw [if_neg (by simp)]
  refine .bind (Q := fun _ f' => f' = f) (.read (fun _ _ => rfl) (fun _ _ => ⟨_, _, hstart⟩)
    fun _ => ⟨_, _, hstart⟩) ?_
  rintro _ f rfl
  rw [rows, hsrc]
  refine .bind (.foldEach (I := Amid s d) (fun r rest c f h => copyRow_runs hs h) hstart) ?_
  intro c f' hdone
  obtain ⟨done, new, t, hrows, ht, hcarried, hlinked⟩ := id hdone
  obtain rfl : s.rows = done := by rw [hrows, List.append_nil]
  refine .bind (Q := fun _ f'' => f'' = f') (.read (fun _ _ => rfl) (fun _ _ => ⟨_, _, hdone⟩)
    fun _ => ⟨_, _, hdone⟩) ?_
  rintro _ f' rfl
  -- the report is made of the documents reported so far
  refine (Prog.Runs.foldEach (I := fun rest report f'' => f'' = f' ∧
      ∃ es, c.touched.entries = es ++ rest ∧ report = reportOf t c es)
    (E := fun _ f'' => f'' = f') ?_ ⟨rfl, [], rfl, rfl⟩).mono ?_ ?_
  · rintro e rest report f'' ⟨rfl, es, hes, rfl⟩
    refine (reportDocument_runs ht c es e).mono ?_ fun _ _ h => h
    rintro report f'' ⟨rfl, rfl⟩
    exact ⟨rfl, es ++ [e], by simp [hes], rfl⟩
  · rintro report f'' ⟨rfl, es, hes, rfl⟩
    rw [List.append_nil] at hes
    exact ⟨t, ht, hlinked, c, new, hcarried, by rw [hes]⟩
  · rintro _ f'' rfl
    exact ⟨_, _, hdone⟩

end DocumentFile

end Dendro
