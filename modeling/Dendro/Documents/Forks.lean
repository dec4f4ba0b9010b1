import Dendro.Documents.Ancestry
import Dendro.Documents.Files

/-!
# Forks

A copy can bring revisions of a document whose newest one the destination held already: the
source then holds several chains of the document, as a combination of archives does. What was
inserted takes the newest ids, so an older revision becomes current, and the report should
name the document.

It does, unless the newest revision the destination held is a deletion and the last revision
brought comes from nothing the destination held (`Recognized`): the copy takes the document
for one that was gone and the other for an unrelated one of its name. The deletion may well
be the newest revision of the source too, and then both archives hold the document as deleted
and the copy brings it back without a word (`deleted_document_resurrected`).
-/

namespace Dendro

theorem forall₂_getLast? {α β : Type} {R : α → β → Prop} {l : List α} {l' : List β}
    (h : List.Forall₂ R l l') : Option.Rel R l.getLast? l'.getLast? := by
  rw [← List.head?_reverse, ← List.head?_reverse]
  generalize hr : l.reverse = r, hr' : l'.reverse = r'
  have hrev : List.Forall₂ R r r' := by
    rw [← hr, ← hr']
    exact List.forall₂_reverse_iff.mpr h
  cases hrev with
  | nil => exact .none
  | cons hab _ => exact .some hab

namespace Documents

/-! ## Chains across a copy -/

theorem Carried.exists_new {s d t : Documents} {done new : List DocumentRow} {c : Copying}
    (h : Carried s d done c t new) {p : DocumentRow} (hp : p ∈ d.brought done) :
    ∃ n ∈ new, Carries s t p n := by
  obtain ⟨i, hi, rfl⟩ := List.getElem_of_mem hp
  have hlen := h.carries.length_eq
  exact ⟨_, List.getElem_mem (by omega), h.carries.get hi (by omega)⟩

/-- The last revision of a document that the copy brought, and the row it made of it. -/
theorem Carried.last {s d t : Documents} {done new : List DocumentRow} {c : Copying}
    (h : Carried s d done c t new) (kind name : String) :
    Option.Rel (Carries s t) (((d.brought done).filter (DocumentRow.isOf kind name)).getLast?)
      ((new.filter (DocumentRow.isOf kind name)).getLast?) := by
  refine forall₂_getLast? (List.rel_filter ?_ h.carries)
  intro p n hpn
  show p.isOf kind name = true ↔ n.isOf kind name = true
  rw [hpn.isOf]

/-- A row of before the copy is below every row it made. -/
theorem Carried.id_lt_first {s d t : Documents} {done new : List DocumentRow} {c : Copying}
    (h : Carried s d done c t new) {m : DocumentRow} (hm : m ∈ t.rows) :
    (m.id : WithTop Int) < c.first_inserted ↔ m.uuid ∈ d.uuids := by
  constructor
  · intro hlt
    rw [h.rows] at hm
    rcases List.mem_append.mp hm with hm | hm
    · exact mem_uuids.mpr ⟨m, hm, rfl⟩
    · exact absurd hlt (h.first_le m hm).not_gt
  · intro hu
    obtain ⟨r, hr, hru⟩ := mem_uuids.mp hu
    rw [← eq_of_uuid (h.extends.mem hr) hm hru]
    exact h.lt_first r hr

/-- **An inserted row comes from a row of before the copy exactly when its original comes from
a revision the destination held.** -/
theorem Carried.shares_iff {s d t : Documents} {new : List DocumentRow} {c : Copying}
    (h : Carried s d s.rows c t new) (hs : s.Linked) {p n : DocumentRow}
    (hp : p ∈ d.brought s.rows) (hn : n ∈ new) (hpn : Carries s t p n) :
    (∃ i, t.Descends n.id i ∧ (i : WithTop Int) < c.first_inserted) ↔
      ∃ a ∈ s.rows, s.Descends p.id a.id ∧ a.uuid ∈ d.uuids := by
  induction hk : s.upTo p.id using Nat.strong_induction_on generalizing p n with
  | _ k ih =>
  obtain ⟨hps, hpd⟩ := mem_brought.mp hp
  have hnt : n ∈ t.rows := by rw [h.rows]; exact List.mem_append_right _ hn
  have hnfirst : ¬(n.id : WithTop Int) < c.first_inserted := (h.first_le n hn).not_gt
  have hself : ∀ a ∈ s.rows, a.id = p.id → a.uuid ∉ d.uuids := by
    intro a ha hid
    rwa [eq_of_id ha hps hid]
  rcases hsup : p.supersedes with _ | j
  · -- both are roots, and neither was there before
    have hsroot : s.supersedesOf p.id = none := by rw [supersedesOf_of_mem hps, hsup]
    have htroot : t.supersedesOf n.id = none := by rw [supersedesOf_of_mem hnt, hpn.root hsup]
    constructor
    · rintro ⟨i, hi, hlt⟩
      rw [(descends_of_root htroot).mp hi] at hlt
      exact absurd hlt hnfirst
    · rintro ⟨a, ha, hda, hheld⟩
      exact absurd hheld (hself a ha ((descends_of_root hsroot).mp hda))
  · obtain ⟨q, hq, rfl, hlt, -⟩ := hs p hps j hsup
    obtain ⟨m, hm, hmu, hnsup⟩ := hpn.link q hq hsup
    have hslink : s.supersedesOf p.id = some q.id := by rw [supersedesOf_of_mem hps, hsup]
    have htlink : t.supersedesOf n.id = some m.id := by rw [supersedesOf_of_mem hnt, hnsup]
    have hleft : (∃ i, t.Descends n.id i ∧ (i : WithTop Int) < c.first_inserted) ↔
        ∃ i, t.Descends m.id i ∧ (i : WithTop Int) < c.first_inserted := by
      constructor
      · rintro ⟨i, hi, hlt⟩
        rcases (descends_of_link htlink).mp hi with rfl | hi
        · exact absurd hlt hnfirst
        · exact ⟨i, hi, hlt⟩
      · rintro ⟨i, hi, hlt⟩
        exact ⟨i, hi.step htlink, hlt⟩
    have hright : (∃ a ∈ s.rows, s.Descends p.id a.id ∧ a.uuid ∈ d.uuids) ↔
        ∃ a ∈ s.rows, s.Descends q.id a.id ∧ a.uuid ∈ d.uuids := by
      constructor
      · rintro ⟨a, ha, hda, hheld⟩
        rcases (descends_of_link hslink).mp hda with hid | hda
        · exact absurd hheld (hself a ha hid)
        · exact ⟨a, ha, hda, hheld⟩
      · rintro ⟨a, ha, hda, hheld⟩
        exact ⟨a, ha, hda.step hslink, hheld⟩
    rw [hleft, hright]
    by_cases hheld : q.uuid ∈ d.uuids
    · have hmlt := (h.id_lt_first hm).mpr (hmu ▸ hheld)
      exact iff_of_true ⟨m.id, .refl t _, hmlt⟩ ⟨q, hq, .refl s _, hheld⟩
    · have hqb : q ∈ d.brought s.rows := mem_brought.mpr ⟨hq, hheld⟩
      obtain ⟨n', hn', hqn⟩ := h.exists_new hqb
      have hn't : n' ∈ t.rows := by rw [h.rows]; exact List.mem_append_right _ hn'
      obtain rfl : n' = m := eq_of_uuid hn't hm (hqn.uuid.trans hmu.symm)
      exact ih (s.upTo q.id) (hk ▸ upTo_lt hps hlt) hqb hn' hqn rfl

/-! ## What is reported -/

/-- The fork report of one document. -/
theorem Carried.listed_iff {s d t : Documents} {new : List DocumentRow} {c : Copying}
    (h : Carried s d s.rows c t new) (ht : t.Linked) {kind name : String}
    {before n : DocumentRow} (hbefore : d.newest kind name = some before)
    (hlast : (new.filter (DocumentRow.isOf kind name)).getLast? = some n)
    (hnot : ¬t.Descends n.id before.id) :
    (∃ fork ∈ (DocumentFile.reportOf t c c.touched.entries).forked,
        fork.kind = kind ∧ fork.name = name) ↔
      before.content ≠ none ∨ ∃ i, t.Descends n.id i ∧ (i : WithTop Int) < c.first_inserted := by
  have hn : n ∈ t.rows := by
    rw [h.rows]
    exact List.mem_append_right _ (List.mem_of_mem_filter (List.mem_of_getLast? hlast))
  have htouched : (toLex (kind, name), (some (DocumentFile.headOf before), n.id)) ∈
      c.touched.entries := by
    rw [← OrdMap.get?_eq_some, h.touched, hlast, hbefore]
    rfl
  have hreaches : (t.ancestry n.id before.id c.first_inserted).1 = false := by
    rw [← Bool.not_eq_true, ancestry_reaches ht hn]
    exact hnot
  -- the entry of the document, and no other, can report it
  have hentry : (∃ fork ∈ (DocumentFile.reportOf t c c.touched.entries).forked,
      fork.kind = kind ∧ fork.name = name) ↔
      DocumentFile.forkedOf t c.first_inserted
        (toLex (kind, name), (some (DocumentFile.headOf before), n.id)) ≠ [] := by
    constructor
    · rintro ⟨fork, hfork, rfl, rfl⟩ hnil
      obtain ⟨e, he, hmem⟩ := List.mem_flatMap.mp hfork
      have hkey := DocumentFile.mem_forkedOf hmem
      have hval : e.2 = (some (DocumentFile.headOf before), n.id) := by
        refine OrdMap.mem_unique (k := e.1) he ?_
        rw [hkey]
        exact htouched
      rw [← hkey, ← hval] at hnil
      rw [hnil] at hmem
      exact absurd hmem (by simp)
    · intro hne
      obtain ⟨fork, hfork⟩ := List.exists_mem_of_ne_nil _ hne
      have hkey := DocumentFile.mem_forkedOf hfork
      obtain ⟨hkind, hname⟩ := Prod.mk.inj (toLex.injective hkey)
      exact ⟨fork, List.mem_flatMap.mpr ⟨_, htouched, hfork⟩, hkind.symm, hname.symm⟩
  rw [hentry, ← ancestry_shares ht hn hnot]
  unfold DocumentFile.forkedOf
  simp only [DocumentFile.headOf, hreaches]
  rcases hc : before.content with _ | content
  · rcases (t.ancestry n.id before.id c.first_inserted).2 <;> simp
  · simp

end Documents

namespace DocumentFile

open Documents

/-! ## Files -/

/-- The revision `a` of a file comes from its revision `b`. -/
def Descends (f : DocumentFile) (a b : Int) : Prop :=
  ∃ t, f.documents = some t ∧ t.Descends a b

/-- The newest revision of a document that a file holds, deletion or not. -/
def newestRow (f : DocumentFile) (kind name : String) : Option DocumentRow :=
  (f.history kind name).getLast?

/-- A copy from `src` turned the file `dst` into `dst'` and overtook the document: the newest
revision of the source was there already, others of the document were inserted, and the newest
one now does not come from the newest one before. -/
structure Overtaken (src dst dst' : DocumentFile) (kind name : String) : Prop where
  held : ∃ r, src.newestRow kind name = some r ∧ r.uuid ∈ dst.uuids
  inserted : (dst.history kind name).length < (dst'.history kind name).length
  displaced : ∀ before after, dst.newestRow kind name = some before →
    dst'.newestRow kind name = some after → ¬dst'.Descends after.id before.id

/-- The document is in the report's `forked`. -/
def Listed (report : CopiedDocuments) (kind name : String) : Prop :=
  ∃ fork ∈ report.forked, fork.kind = kind ∧ fork.name = name

/-- Whether a copy can tell that a document was displaced: the newest revision the destination
held is no deletion, or the last revision it does not hold comes, in the source, from one that
it holds. -/
def Recognized (src dst : DocumentFile) (kind name : String) : Prop :=
  (∃ before, dst.newestRow kind name = some before ∧ before.content ≠ none) ∨
    ∃ last, ((src.history kind name).filter fun r => r.uuid ∉ dst.uuids).getLast? = some last ∧
      ∃ a ∈ src.rows, src.Descends last.id a.id ∧ a.uuid ∈ dst.uuids

theorem descends_of_documents {f : DocumentFile} {t : Documents} (h : f.documents = some t)
    (a b : Int) : f.Descends a b ↔ t.Descends a b := by
  simp [Descends, h]

theorem newestRow_of_documents {f : DocumentFile} {t : Documents} (h : f.documents = some t)
    (kind name : String) : f.newestRow kind name = t.newest kind name := by
  rw [newestRow, history, rows_of_documents h]
  rfl

theorem exists_documents {f : DocumentFile} {r : DocumentRow} (h : r ∈ f.rows) :
    ∃ t, f.documents = some t := by
  rcases ht : f.documents with _ | t
  · simp [rows, ht] at h
  · exact ⟨t, rfl⟩

/-- The revisions of a document that a copy brings. -/
theorem filter_history {src dst : DocumentFile} {s d : Documents} (hs : src.documents = some s)
    (hd : dst.documents = some d) (kind name : String) :
    ((src.history kind name).filter fun r => r.uuid ∉ dst.uuids) =
      (d.brought s.rows).filter (DocumentRow.isOf kind name) := by
  rw [history, uuids, rows_of_documents hs, rows_of_documents hd, List.filter_filter, brought,
    List.filter_filter]
  exact List.filter_congr fun r _ => Bool.and_comm _ _

/-- A document whose source revision is held has one before the copy. -/
theorem exists_newest_of_held {s d t : Documents} {c : Copying} {new : List DocumentRow}
    (h : Carried s d s.rows c t new) {kind name : String} {r : DocumentRow}
    (hr : s.newest kind name = some r) (hheld : r.uuid ∈ d.uuids) :
    ∃ before, d.newest kind name = some before := by
  obtain ⟨hrs, hkind, hname⟩ := mem_of_newest hr
  obtain ⟨m, hm, -, hu, hmkind, hmname, -⟩ := h.ids r hrs
  obtain ⟨q, hq, hqu⟩ := mem_uuids.mp hheld
  obtain rfl : q = m := eq_of_uuid (h.extends.mem hq) hm (hqu.trans hu.symm)
  have hmem : q ∈ d.history kind name :=
    mem_history.mpr ⟨hq, hmkind.trans hkind, hmname.trans hname⟩
  rcases hlast : d.newest kind name with _ | before
  · rw [Documents.newest, List.getLast?_eq_none_iff] at hlast
    rw [hlast] at hmem
    exact absurd hmem (by simp)
  · exact ⟨before, rfl⟩

theorem listed_iff_recognized {src dst dst' : DocumentFile} (hsrc : src.Linked)
    (hdst : dst.Linked) {faults rest : List (Fault SqliteError)} {report : CopiedDocuments}
    (hcopy : copyDocuments src dst faults = (.ok report, dst', rest)) {kind name : String}
    (hover : Overtaken src dst dst' kind name) :
    Listed report kind name ↔ Recognized src dst kind name := by
  obtain ⟨⟨r, hr, hheld⟩, hinserted, hdisplaced⟩ := hover
  obtain ⟨s, hs⟩ : ∃ s, src.documents = some s :=
    exists_documents (List.mem_of_mem_filter (List.mem_of_getLast? hr))
  obtain ⟨d, hd⟩ : ∃ d, dst.documents = some d := by
    obtain ⟨q, hq, -⟩ := List.mem_map.mp hheld
    exact exists_documents hq
  have hruns := copyDocuments_runs hs hd (hsrc s hs) (hdst d hd) faults
  rw [hcopy] at hruns
  obtain ⟨-, t, ht, hlinked, c, new, hcarried, rfl⟩ := hruns
  rw [newestRow_of_documents hs] at hr
  rw [uuids, rows_of_documents hd] at hheld
  obtain ⟨before, hbefore⟩ := exists_newest_of_held hcarried hr hheld
  -- the last revision brought, and the row made of it
  obtain ⟨n, hn⟩ : ∃ n, (new.filter (DocumentRow.isOf kind name)).getLast? = some n := by
    rw [history, history, rows_of_documents hd, rows_of_documents ht, hcarried.rows,
      List.filter_append, List.length_append] at hinserted
    have hne : new.filter (DocumentRow.isOf kind name) ≠ [] := by
      intro hnil
      rw [hnil] at hinserted
      simp at hinserted
    exact ⟨_, List.getLast?_eq_some_getLast hne⟩
  have hlast := hcarried.last kind name
  rw [hn] at hlast
  obtain ⟨p, hp, hpn⟩ : ∃ p, ((d.brought s.rows).filter (DocumentRow.isOf kind name)).getLast? =
      some p ∧ Carries s t p n := by
    generalize ((d.brought s.rows).filter (DocumentRow.isOf kind name)).getLast? = o at hlast
    cases hlast with
    | some hpn => exact ⟨_, rfl, hpn⟩
  have hnot : ¬t.Descends n.id before.id := by
    rw [← descends_of_documents ht]
    refine hdisplaced before n ?_ ?_
    · rw [newestRow_of_documents hd, hbefore]
    · rw [newestRow_of_documents ht, newest_append hcarried.rows, hn, Option.some_or]
  rw [Listed, hcarried.listed_iff hlinked hbefore hn hnot,
    hcarried.shares_iff (hsrc s hs) (List.mem_of_mem_filter (List.mem_of_getLast? hp))
      (List.mem_of_mem_filter (List.mem_of_getLast? hn)) hpn]
  simp only [Recognized, filter_history hs hd, newestRow_of_documents hd, hbefore, hp,
    Option.some.injEq, exists_eq_left', rows_of_documents hs, descends_of_documents hs]
  rw [uuids, rows_of_documents hd]
  exact Iff.rfl

/-- **An overtaken document is reported exactly when the copy recognizes it**, whatever the
histories of the two files. -/
theorem overtaken_listed_iff (json : String → Option String) (w : Files) (hw : w.New)
    (events : List FileEvent) (src dst : Nat) (faults rest : List (Fault SqliteError))
    (report : CopiedDocuments) (dst' : DocumentFile)
    (hcopy : copyDocuments (w.run json events src) (w.run json events dst) faults =
      (.ok report, dst', rest)) (kind name : String)
    (hover : Overtaken (w.run json events src) (w.run json events dst) dst' kind name) :
    Listed report kind name ↔
      Recognized (w.run json events src) (w.run json events dst) kind name :=
  have hlinked := Files.run_linked events hw.linked
  listed_iff_recognized (hlinked src) (hlinked dst) hcopy hover

/-! ### A combination of two archives -/

/-- File 0 has one revision of a document, file 1 another of its own, and file 2 combines
them, that of file 1 first. -/
def combined : List FileEvent := [
  .edit 0 ⟨.put "view" "main" "view/1" "1" none, ⟨"x", 1⟩, []⟩,
  .edit 1 ⟨.put "view" "main" "view/1" "2" none, ⟨"y", 2⟩, []⟩,
  .copy 1 2 [] false,
  .copy 0 2 [] false]

/-- The same, where file 0 has deleted its document before it is combined. -/
def combinedDeleted : List FileEvent := [
  .edit 0 ⟨.put "view" "main" "view/1" "1" none, ⟨"x", 1⟩, []⟩,
  .edit 0 ⟨.delete "view" "main", ⟨"z", 3⟩, []⟩,
  .edit 1 ⟨.put "view" "main" "view/1" "2" none, ⟨"y", 2⟩, []⟩,
  .copy 1 2 [] false,
  .copy 0 2 [] false]

/-- New files, all of this schema. -/
def created : Files := fun _ => .create

/-- A copy of the combination back into file 0. -/
def copiedBack (events : List FileEvent) :
    Outcome Error CopiedDocuments × DocumentFile × List (Fault SqliteError) :=
  copyDocuments (created.run anyJson events 2) (created.run anyJson events 0) []

theorem created_new : created.New := fun _ => .inl rfl

/-- A revision without a link comes from itself alone. -/
theorem not_descends_of_root {f : DocumentFile} {r : DocumentRow} (hr : r ∈ f.rows)
    (hroot : r.supersedes = none) {b : Int} (hb : b ≠ r.id) : ¬f.Descends r.id b := by
  rintro ⟨t, ht, hd⟩
  rw [rows_of_documents ht] at hr
  have hsup : t.supersedesOf r.id = none := by rw [supersedesOf_of_mem hr, hroot]
  exact hb ((descends_of_root hsup).mp hd)

/-- A copy back that puts a revision without a link on top of what file 0 held. -/
theorem copiedBack_overtaken (events : List FileEvent) (before after : DocumentRow)
    (hheld : ∃ r, (created.run anyJson events 2).newestRow "view" "main" = some r ∧
      r.uuid ∈ (created.run anyJson events 0).uuids)
    (hinserted : ((created.run anyJson events 0).history "view" "main").length <
      ((copiedBack events).2.1.history "view" "main").length)
    (hbefore : (created.run anyJson events 0).newestRow "view" "main" = some before)
    (hafter : (copiedBack events).2.1.newestRow "view" "main" = some after)
    (hroot : after.supersedes = none) (hne : before.id ≠ after.id) :
    Overtaken (created.run anyJson events 2) (created.run anyJson events 0)
      (copiedBack events).2.1 "view" "main" := by
  refine ⟨hheld, hinserted, fun b a hb ha => ?_⟩
  rw [hbefore] at hb
  rw [hafter] at ha
  obtain rfl := Option.some.inj hb
  obtain rfl := Option.some.inj ha
  exact not_descends_of_root (List.mem_of_mem_filter (List.mem_of_getLast? hafter)) hroot hne

theorem overtaken_listed_iff_combined :
    Listed { inserted := 1, current := [("view", "main")],
             forked := [{ kind := "view", name := "main", displaced := "x", current := "y" }] }
        "view" "main" ↔
      Recognized (created.run anyJson combined 2) (created.run anyJson combined 0)
        "view" "main" := by
  have hover : Overtaken (created.run anyJson combined 2) (created.run anyJson combined 0)
      (copiedBack combined).2.1 "view" "main" :=
    copiedBack_overtaken combined ⟨1, "x", "view", "main", some ("view/1", "1"), 1, none⟩
      ⟨2, "y", "view", "main", some ("view/1", "2"), 2, none⟩
      ⟨⟨2, "x", "view", "main", some ("view/1", "1"), 1, none⟩, by decide, by decide⟩
      (by decide) (by decide) (by decide) rfl (by decide)
  exact overtaken_listed_iff anyJson created created_new combined 2 0 [] [] _ _
    (Prod.ext (by decide) rfl) "view" "main" hover

/-- **A deleted document comes back and no fork is reported.** Both files hold the document
as deleted, the newest revision of the source among what the destination holds; the copy back
makes the other document of that name current and its report names no fork. -/
theorem deleted_document_resurrected :
    (created.run anyJson combinedDeleted 2).current "view" "main" = none ∧
    (created.run anyJson combinedDeleted 0).current "view" "main" = none ∧
    (copiedBack combinedDeleted).2.1.current "view" "main" ≠ none ∧
    Overtaken (created.run anyJson combinedDeleted 2) (created.run anyJson combinedDeleted 0)
      (copiedBack combinedDeleted).2.1 "view" "main" ∧
    ∃ report, (copiedBack combinedDeleted).1 = .ok report ∧ ¬Listed report "view" "main" := by
  refine ⟨by decide, by decide, by decide, ?_, ?_⟩
  · exact copiedBack_overtaken combinedDeleted ⟨2, "z", "view", "main", none, 3, some 1⟩
      ⟨3, "y", "view", "main", some ("view/1", "2"), 2, none⟩
      ⟨⟨3, "z", "view", "main", none, 3, some 2⟩, by decide, by decide⟩
      (by decide) (by decide) (by decide) rfl (by decide)
  · refine ⟨{ inserted := 1, current := [("view", "main")], forked := [] }, by decide, ?_⟩
    rintro ⟨fork, hfork, -⟩
    exact absurd hfork (by simp)

end DocumentFile

end Dendro
