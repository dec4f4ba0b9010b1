import Mathlib.Data.List.Pairwise
import Mathlib.Order.Lattice

/-!
# Logs of deltas

A log's entries stand in the order of their times. Some of them are full statements; each of the
others says what changed since the entry before it. To know the state at a time, a reader needs
the latest full entry at or before it and every entry after that one.

A log loses entries from the front. What makes that harmless is said of the cut alone: if a full
entry was lost, one that is left stands at or before every time that is still asked for
(`Anchored`).
-/

universe u v

variable {α : Type u} {τ : Type v} [LinearOrder τ] {time : α → τ} {full : α → Bool}

/-- What a reader at time `t` needs of a log: its latest full entry at or before `t`, and what
comes after. -/
def NeededAt (time : α → τ) (full : α → Bool) (t : τ) (log needed : List α) : Prop :=
  ∃ before f after, log = before ++ f :: after ∧ needed = f :: after ∧ full f = true ∧
    time f ≤ t ∧ ∀ g ∈ after, full g = true → ¬time g ≤ t

/-- No full entry is gone, or one that is left is at or before every time in `asked`. -/
def Anchored (time : α → τ) (full : α → Bool) (gone stored : List α) (asked : τ → Prop) : Prop :=
  (∃ g ∈ gone, full g = true) → ∃ f ∈ stored, full f = true ∧ ∀ t, asked t → time f ≤ t

/-- Entries in order, split at a time. -/
theorem List.filter_split_of_pairwise (cut : τ) : ∀ {log : List α},
    log.Pairwise (fun a b => time a ≤ time b) →
      log = (log.filter fun a => time a < cut) ++ log.filter fun a => !decide (time a < cut)
  | [], _ => rfl
  | a :: log, h => by
      obtain ⟨hfirst, hrest⟩ := List.pairwise_cons.mp h
      by_cases ha : time a < cut
      · rw [List.filter_cons_of_pos (by simp [ha]), List.filter_cons_of_neg (by simp [ha]),
          List.cons_append, ← List.filter_split_of_pairwise cut hrest]
      · -- what comes later is not before the cut either
        have hlater : ∀ b ∈ log, ¬time b < cut := fun b hb hlt =>
          ha (lt_of_le_of_lt (hfirst b hb) hlt)
        rw [List.filter_cons_of_neg (by simp [ha]), List.filter_cons_of_pos (by simp [ha]),
          List.filter_eq_nil_iff.mpr fun b hb => by simpa using hlater b hb,
          List.filter_eq_self.mpr fun b hb => by simpa using hlater b hb, List.nil_append]

namespace Anchored

variable {gone stored : List α} {asked asked' : τ → Prop}

theorem nothing_gone (stored : List α) (asked : τ → Prop) : Anchored time full [] stored asked :=
  fun ⟨_, hg, _⟩ => absurd hg List.not_mem_nil

/-- **What a reader needs is left.** -/
theorem needed (h : Anchored time full gone stored asked) {t : τ} (ht : asked t)
    {needed : List α} (hneeded : NeededAt time full t (gone ++ stored) needed) :
    needed <:+ stored := by
  obtain ⟨before, f, after, hlog, rfl, hf, -, hlatest⟩ := hneeded
  rcases List.append_eq_append_iff.mp hlog with ⟨rest, -, hstored⟩ | ⟨rest, hgone, hafter⟩
  · exact ⟨rest, hstored.symm⟩
  · rcases rest with _ | ⟨g, rest⟩
    · rw [List.nil_append] at hafter
      exact ⟨[], hafter⟩
    · -- it would be gone, and then a later one is left that the reader could take
      obtain ⟨rfl, rfl⟩ := List.cons.inj hafter
      obtain ⟨f', hf', hfull, hbefore⟩ := h ⟨f, by rw [hgone]; simp, hf⟩
      exact absurd (hbefore t ht) (hlatest f' (by simp [hf']) hfull)

/-- More entries, and times asked for that are not before some other, or not before any entry. -/
theorem grow (h : Anchored time full gone stored asked) (more : List α)
    (hasked : ∀ t, asked' t → (∃ t', asked t' ∧ t' ≤ t) ∨ ∀ e ∈ stored, time e ≤ t) :
    Anchored time full gone (stored ++ more) asked' := by
  intro hgone
  obtain ⟨f, hf, hfull, hbefore⟩ := h hgone
  refine ⟨f, List.mem_append_left _ hf, hfull, fun t ht => ?_⟩
  rcases hasked t ht with ⟨t', ht', hle⟩ | hall
  · exact le_trans (hbefore t' ht') hle
  · exact hall f hf

/-- A cut at or before a full entry of the log that is at or before every time still asked
for. -/
theorem cut (h : Anchored time full gone stored asked) (cut : τ)
    (hsorted : (gone ++ stored).Pairwise fun a b => time a ≤ time b)
    (hasked : ∀ t, asked' t → ∃ t', asked t' ∧ t' ≤ t)
    (hcut : (∀ e ∈ stored, ¬time e < cut) ∨
      ∃ f ∈ gone ++ stored, full f = true ∧ cut ≤ time f ∧ ∀ t, asked' t → time f ≤ t) :
    ∃ lost, stored = lost ++ (stored.filter fun e => !decide (time e < cut)) ∧
      Anchored time full (gone ++ lost) (stored.filter fun e => !decide (time e < cut)) asked' := by
  obtain ⟨-, hstored, hcross⟩ := List.pairwise_append.mp hsorted
  have hnone : (∀ e ∈ stored, ¬time e < cut) →
      ∃ lost, stored = lost ++ (stored.filter fun e => !decide (time e < cut)) ∧
        Anchored time full (gone ++ lost) (stored.filter fun e => !decide (time e < cut))
          asked' := by
    intro hclear
    refine ⟨[], (List.filter_eq_self.mpr fun e he => by simpa using hclear e he).symm, ?_⟩
    have hkept := h.grow [] fun t ht => .inl (hasked t ht)
    rw [List.append_nil] at hkept ⊢
    rwa [List.filter_eq_self.mpr fun e he => by simpa using hclear e he]
  rcases hcut with hclear | ⟨f, hf, hfull, hle, hbefore⟩
  · exact hnone hclear
  · rcases List.mem_append.mp hf with hf | hf
    · exact hnone fun e he hlt =>
        absurd (le_trans hle (hcross f hf e he)) (not_le.mpr hlt)
    · refine ⟨_, List.filter_split_of_pairwise cut hstored, fun _ => ⟨f, ?_, hfull, hbefore⟩⟩
      exact List.mem_filter.mpr ⟨hf, by simpa using hle⟩

end Anchored
