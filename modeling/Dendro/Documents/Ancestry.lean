import Mathlib.Logic.Relation
import Dendro.Documents.Copy

/-!
# Following a document's history back

`ancestry` walks the `supersedes` links of a revision with a guard against cycles. In a
linked table each link leads to a smaller id, so the guard never strikes and the walk ends at
a revision that supersedes none: what it answers is what `Descends` says.
-/

namespace Dendro

namespace Documents

open Relation

/-- The revision `a` comes from the revision `b`: it is `b`, or what it supersedes comes from
`b`. -/
def Descends (t : Documents) : Int → Int → Prop :=
  ReflTransGen fun a b => t.supersedesOf a = some b

theorem Descends.refl (t : Documents) (a : Int) : t.Descends a a := ReflTransGen.refl

theorem Descends.step {t : Documents} {a b c : Int} (h : t.supersedesOf a = some b)
    (hb : t.Descends b c) : t.Descends a c := ReflTransGen.head h hb

/-- What a revision comes from: itself, and what the one it supersedes comes from. -/
theorem descends_iff {t : Documents} {a c : Int} :
    t.Descends a c ↔ c = a ∨ ∃ b, t.supersedesOf a = some b ∧ t.Descends b c := by
  refine (ReflTransGen.cases_head_iff).trans (or_congr eq_comm Iff.rfl)

theorem descends_of_root {t : Documents} {a c : Int} (h : t.supersedesOf a = none) :
    t.Descends a c ↔ c = a := by
  rw [descends_iff, h]
  simp

theorem descends_of_link {t : Documents} {a b c : Int} (h : t.supersedesOf a = some b) :
    t.Descends a c ↔ c = a ∨ t.Descends b c := by
  rw [descends_iff, h]
  simp

/-- How many revisions there are up to an id. -/
def upTo (t : Documents) (id : Int) : Nat := (t.rows.filter (·.id ≤ id)).length

theorem upTo_lt {t : Documents} {r : DocumentRow} {id : Int} (hr : r ∈ t.rows) (h : id < r.id) :
    t.upTo id < t.upTo r.id := by
  have hfilter : t.rows.filter (·.id ≤ id) =
      (t.rows.filter (·.id ≤ r.id)).filter (·.id ≤ id) := by
    rw [List.filter_filter]
    refine List.filter_congr fun q _ => ?_
    have : q.id ≤ id → q.id ≤ r.id := fun hq => hq.trans h.le
    by_cases hq : q.id ≤ id
    · simp [hq, this hq]
    · simp [hq]
  rw [upTo, upTo, hfilter]
  refine List.length_filter_lt_length_iff_exists.mpr ⟨r, List.mem_filter.mpr ⟨hr, by simp⟩, ?_⟩
  simpa using h

/-- What a walk in a linked table answers, whatever it has seen above. -/
theorem ancestryFrom_spec {t : Documents} (ht : t.Linked) (target : Int)
    (first_new : WithTop Int) : ∀ (fuel : Nat) (r : DocumentRow) (seen : List Int)
      (shares : Bool), r ∈ t.rows → t.upTo r.id ≤ fuel → (∀ x ∈ seen, r.id < x) →
      (t.Descends r.id target →
        t.ancestryFrom target first_new fuel (some r.id) seen shares = (true, true)) ∧
      (¬t.Descends r.id target →
        (t.ancestryFrom target first_new fuel (some r.id) seen shares).1 = false ∧
        ((t.ancestryFrom target first_new fuel (some r.id) seen shares).2 = true ↔
          shares = true ∨ ∃ c, t.Descends r.id c ∧ (c : WithTop Int) < first_new)) := by
  intro fuel
  induction fuel with
  | zero =>
      intro r seen shares hr hfuel _
      have hmem : r ∈ t.rows.filter (·.id ≤ r.id) := List.mem_filter.mpr ⟨hr, by simp⟩
      have hpos : 0 < t.upTo r.id := List.length_pos_of_mem hmem
      omega
  | succ fuel ih =>
      intro r seen shares hr hfuel hseen
      unfold ancestryFrom
      by_cases htarget : r.id = target
      · subst htarget
        simp [Descends.refl]
      have hnot : r.id ∉ seen := fun h => lt_irrefl _ (hseen _ h)
      rw [if_neg htarget, if_neg hnot]
      rcases hsup : t.supersedesOf r.id with _ | i
      · -- a root: the walk ends
        have hend : ∀ b, t.ancestryFrom target first_new fuel none (r.id :: seen) b =
            (false, b) := by
          intro b
          cases fuel <;> rfl
        rw [descends_of_root hsup, hend]
        refine ⟨fun h => absurd h.symm htarget, fun _ => ⟨rfl, ?_⟩⟩
        simp [descends_of_root hsup, isBelow_eq_true]
      · obtain ⟨p, hp, rfl, hlt, -⟩ := ht r hr i (by rw [← supersedesOf_of_mem hr, hsup])
        have hless := upTo_lt hr hlt
        have hseen' : ∀ x ∈ r.id :: seen, p.id < x := by
          intro x hx
          rcases List.mem_cons.mp hx with rfl | hx
          · exact hlt
          · exact hlt.trans (hseen x hx)
        obtain ⟨hreach, hmiss⟩ := ih p (r.id :: seen)
          (shares || isBelow r.id first_new) hp (by omega) hseen'
        rw [descends_of_link hsup]
        refine ⟨fun h => hreach (h.resolve_left fun he => htarget he.symm), fun h => ?_⟩
        obtain ⟨hno, hshares⟩ := hmiss fun hd => h (.inr hd)
        refine ⟨hno, hshares.trans ?_⟩
        simp only [Bool.or_eq_true, isBelow_eq_true, descends_of_link hsup, or_and_right,
          exists_or, exists_eq_left]
        rw [or_assoc]

/-- **`ancestry` answers whether a revision descends from `target`.** -/
theorem ancestry_reaches {t : Documents} (ht : t.Linked) {r : DocumentRow} (hr : r ∈ t.rows)
    (target : Int) (first_new : WithTop Int) :
    (t.ancestry r.id target first_new).1 = true ↔ t.Descends r.id target := by
  have hfuel : t.upTo r.id ≤ t.rows.length + 2 :=
    (List.length_filter_le _ _).trans (by omega)
  obtain ⟨hreach, hmiss⟩ := ancestryFrom_spec ht target first_new _ r [] false hr hfuel nofun
  constructor
  · intro h
    by_contra hnot
    rw [ancestry, (hmiss hnot).1] at h
    exact absurd h (by simp)
  · intro h
    rw [ancestry, hreach h]

/-- **Where it does not, `ancestry` answers whether it descends from a revision of before the
copy.** -/
theorem ancestry_shares {t : Documents} (ht : t.Linked) {r : DocumentRow} (hr : r ∈ t.rows)
    {target : Int} (h : ¬t.Descends r.id target) (first_new : WithTop Int) :
    (t.ancestry r.id target first_new).2 = true ↔
      ∃ c, t.Descends r.id c ∧ (c : WithTop Int) < first_new := by
  have hfuel : t.upTo r.id ≤ t.rows.length + 2 :=
    (List.length_filter_le _ _).trans (by omega)
  have hmiss := (ancestryFrom_spec ht target first_new _ r [] false hr hfuel nofun).2 h
  rw [ancestry, hmiss.2]
  simp

end Documents

end Dendro
