import Mathlib.Data.List.Induction
import Mathlib.Data.List.Nodup

/-!
# Sequences of which not everything arrives

A sequence on its way over a link that keeps the order and may lose anything: each element carries
a mark of whether it arrives. A receiver that only remembers the newest element it got, or its
number, learns of a loss from the two facts below: the newest element that arrived is the newest
that was sent only if that one arrived (`newest_passed_iff`), and the number of the last arrival is
the one before the next only if nothing was lost in between (`lastArrived_succ_iff`).
-/

namespace Dendro

/-- What arrives. -/
def passed {α : Type} (sent : List (α × Bool)) : List α := (sent.filter (·.2)).map (·.1)

section

variable {α : Type}

theorem passed_append (sent sent' : List (α × Bool)) :
    passed (sent ++ sent') = passed sent ++ passed sent' := by
  unfold passed
  rw [List.filter_append, List.map_append]

theorem passed_sublist (sent : List (α × Bool)) : (passed sent).Sublist (sent.map (·.1)) :=
  List.filter_sublist.map _

/-- **The newest arrival is the newest element sent only if that one arrived**, where no element
is sent twice. -/
theorem newest_passed_iff {sent : List (α × Bool)} (hnodup : (sent.map (·.1)).Nodup) :
    (passed sent).getLast? = (sent.map (·.1)).getLast? ↔ ∀ x ∈ sent.getLast?, x.2 = true := by
  rcases List.eq_nil_or_concat sent with rfl | ⟨sent, ⟨a, b⟩, rfl⟩
  · simp [passed]
  rw [List.concat_eq_append] at hnodup ⊢
  rw [passed_append, List.map_append, List.map_singleton, List.getLast?_concat, List.getLast?_concat]
  cases b with
  | true => simp [passed]
  | false =>
      -- what arrived is older, and nothing older is the same
      have hnone : passed [(a, false)] = [] := rfl
      rw [hnone, List.append_nil]
      refine ⟨fun hlast => ?_, fun hall => absurd (hall _ rfl) (by simp)⟩
      have hmem : a ∈ passed sent := List.mem_of_getLast? hlast
      have hold : a ∈ sent.map (·.1) := (passed_sublist sent).subset hmem
      rw [List.map_append, List.nodup_append] at hnodup
      exact absurd rfl (hnodup.2.2 a hold a (List.mem_singleton_self a))

/-- The number of the last element that arrived. -/
def lastArrived (marks : List Bool) : Option Nat :=
  marks.foldl (fun (x : Nat × Option Nat) b => (x.1 + 1, if b then some x.1 else x.2)) (0, none) |>.2

theorem lastArrived_concat (marks : List Bool) (b : Bool) :
    lastArrived (marks ++ [b]) = if b then some marks.length else lastArrived marks := by
  have hcount : ∀ (marks : List Bool) (x : Nat × Option Nat),
      (marks.foldl (fun (x : Nat × Option Nat) b => (x.1 + 1, if b then some x.1 else x.2)) x).1 =
        x.1 + marks.length := by
    intro marks
    induction marks with
    | nil => exact fun x => rfl
    | cons b marks ih =>
        intro x
        rw [List.foldl_cons, ih, List.length_cons]
        omega
  unfold lastArrived
  rw [List.foldl_append, List.foldl_cons, List.foldl_nil, hcount, Nat.zero_add]

theorem lastArrived_lt {marks : List Bool} {i : Nat} (h : lastArrived marks = some i) :
    i < marks.length := by
  induction marks using List.reverseRecOn with
  | nil => exact absurd h (by simp [lastArrived])
  | append_singleton marks b ih =>
      rw [lastArrived_concat] at h
      rw [List.length_append, List.length_singleton]
      split at h
      · have := Option.some.inj h
        omega
      · have := ih h
        omega

/-- **The last arrival is the last element sent only if that one arrived.** -/
theorem lastArrived_succ_iff {marks : List Bool} {i : Nat} (h : lastArrived marks = some i) :
    i + 1 = marks.length ↔ marks.getLast? = some true := by
  rcases List.eq_nil_or_concat marks with rfl | ⟨marks, b, rfl⟩
  · exact absurd h (by simp [lastArrived])
  rw [List.concat_eq_append] at h ⊢
  rw [lastArrived_concat] at h
  rw [List.length_append, List.length_singleton, List.getLast?_concat]
  cases b with
  | true =>
      have := Option.some.inj h
      simp
      omega
  | false =>
      have := lastArrived_lt h
      simp
      omega

theorem lastArrived_eq_none_iff {marks : List Bool} : lastArrived marks = none ↔ true ∉ marks := by
  induction marks using List.reverseRecOn with
  | nil => simp [lastArrived]
  | append_singleton marks b ih =>
      rw [lastArrived_concat]
      cases b with
      | true => simp
      | false => simpa using ih

end

end Dendro
