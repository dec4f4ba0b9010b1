import Mathlib.Data.List.Forall2

/-!
# Computations that can fail

How a result of `Except` splits over the steps it was computed in.
-/

universe u

namespace Except

variable {ε : Type*} {α β : Type u}

@[simp] theorem bind_eq_ok {x : Except ε α} {f : α → Except ε β} {b : β} :
    (x >>= f) = .ok b ↔ ∃ a, x = .ok a ∧ f a = .ok b := by
  cases x <;> simp [bind, Except.bind]

@[simp] theorem bind_eq_error {x : Except ε α} {f : α → Except ε β} {e : ε} :
    (x >>= f) = .error e ↔ x = .error e ∨ ∃ a, x = .ok a ∧ f a = .error e := by
  cases x <;> simp [bind, Except.bind]

@[simp] theorem pure_eq_ok {a b : α} : (pure a : Except ε α) = .ok b ↔ a = b := by
  simp [pure, Except.pure]

@[simp] theorem pure_ne_error {a : α} {e : ε} : (pure a : Except ε α) ≠ .error e := by
  simp [pure, Except.pure]

@[simp] theorem mapError_eq_ok {ε' : Type*} {x : Except ε α} {f : ε → ε'} {a : α} :
    x.mapError f = .ok a ↔ x = .ok a := by
  cases x with
  | error e => exact ⟨nofun, nofun⟩
  | ok b =>
      show Except.ok b = Except.ok a ↔ _
      simp only [Except.ok.injEq]

theorem foldlM_cons_eq_ok {f : β → α → Except ε β} {a : α} {as : List α} {b b' : β} :
    (a :: as).foldlM f b = .ok b' ↔ ∃ c, f b a = .ok c ∧ as.foldlM f c = .ok b' := by
  rw [List.foldlM_cons, bind_eq_ok]

theorem foldlM_cons_eq_error {f : β → α → Except ε β} {a : α} {as : List α} {b : β} {e : ε} :
    (a :: as).foldlM f b = .error e ↔
      f b a = .error e ∨ ∃ c, f b a = .ok c ∧ as.foldlM f c = .error e := by
  rw [List.foldlM_cons, bind_eq_error]

/-- A list is computed element by element. -/
theorem mapM_eq_ok {f : α → Except ε β} : ∀ {as : List α} {bs : List β},
    as.mapM f = .ok bs ↔ List.Forall₂ (fun a b => f a = .ok b) as bs
  | [], bs => by
      rw [List.mapM_nil, pure_eq_ok, List.forall₂_nil_left_iff]
      exact eq_comm
  | a :: as, bs => by
      rw [List.mapM_cons, bind_eq_ok, List.forall₂_cons_left_iff]
      constructor
      · rintro ⟨b, hb, h⟩
        obtain ⟨rest, hrest, h⟩ := bind_eq_ok.mp h
        exact ⟨b, rest, hb, mapM_eq_ok.mp hrest, (pure_eq_ok.mp h).symm⟩
      · rintro ⟨b, rest, hb, hrest, rfl⟩
        exact ⟨b, hb, bind_eq_ok.mpr ⟨rest, mapM_eq_ok.mpr hrest, rfl⟩⟩

/-- The list that is computed, where it is known what each element is computed to. -/
theorem map_of_mapM_ok {f : α → Except ε β} {g : α → β} (hg : ∀ a b, f a = .ok b → b = g a) :
    ∀ {as : List α} {bs : List β}, as.mapM f = .ok bs →
      bs = as.map g ∧ ∀ a ∈ as, f a = .ok (g a)
  | [], bs, h => by
      rw [List.mapM_nil] at h
      exact ⟨(pure_eq_ok.mp h).symm, nofun⟩
  | a :: as, bs, h => by
      rw [List.mapM_cons] at h
      obtain ⟨b, hb, h⟩ := bind_eq_ok.mp h
      obtain ⟨rest, hrest, h⟩ := bind_eq_ok.mp h
      obtain ⟨hrest, hall⟩ := map_of_mapM_ok hg hrest
      obtain rfl := pure_eq_ok.mp h
      obtain rfl := hg a b hb
      exact ⟨by rw [hrest, List.map_cons], List.forall_mem_cons.mpr ⟨hb, hall⟩⟩

/-- Lists whose elements are computed alike. -/
theorem mapM_forall₂ {γ : Type u} {f : α → Except ε β} {g : γ → Except ε β} {as : List α}
    {cs : List γ} (h : List.Forall₂ (fun a c => f a = g c) as cs) : as.mapM f = cs.mapM g := by
  induction h with
  | nil => rfl
  | cons hac _ ih => rw [List.mapM_cons, List.mapM_cons, hac, ih]

theorem mapM_congr {f g : α → Except ε β} {as : List α} (h : ∀ a ∈ as, f a = g a) :
    as.mapM f = as.mapM g :=
  mapM_forall₂ (List.forall₂_same.mpr h)

/-- Two computations give up alike: with the same error, or not at all. -/
def FailsAs {γ : Type u} (x : Except ε α) (y : Except ε γ) : Prop := ∀ e, x = .error e ↔ y = .error e

section FailsAs

variable {γ δ : Type u} {x : Except ε α} {y : Except ε γ}

theorem FailsAs.refl (x : Except ε α) : FailsAs x x := fun _ => Iff.rfl

theorem FailsAs.pure (a : α) (b : γ) : FailsAs (Pure.pure a : Except ε α) (Pure.pure b) :=
  fun _ => iff_of_false pure_ne_error pure_ne_error

theorem FailsAs.trans {z : Except ε δ} (h : FailsAs x y) (h' : FailsAs y z) : FailsAs x z :=
  fun e => (h e).trans (h' e)

theorem FailsAs.symm (h : FailsAs x y) : FailsAs y x := fun e => (h e).symm

/-- To go on to a value is not to fail. -/
theorem FailsAs.value (f : γ → α) (y : Except ε γ) : FailsAs (y >>= fun b => Pure.pure (f b)) y := by
  intro e
  cases y with
  | error e' => exact ⟨fun h => congrArg _ (Except.error.inj h), fun h => congrArg _ (Except.error.inj h)⟩
  | ok b => exact iff_of_false nofun nofun

theorem FailsAs.bind {k : α → Except ε β} {l : γ → Except ε δ} (h : FailsAs x y)
    (hk : ∀ a b, x = .ok a → y = .ok b → FailsAs (k a) (l b)) : FailsAs (x >>= k) (y >>= l) := by
  intro e
  cases x with
  | error e' =>
      obtain rfl : y = .error e' := (h e').mp rfl
      exact ⟨fun h => congrArg _ (Except.error.inj h), fun h => congrArg _ (Except.error.inj h)⟩
  | ok a =>
      cases y with
      | error e' => exact absurd ((h e').mpr rfl) (by simp)
      | ok b => exact hk a b rfl rfl e

theorem FailsAs.mapM {f : α → Except ε β} {g : α → Except ε δ} : ∀ {as : List α},
    (∀ a ∈ as, FailsAs (f a) (g a)) → FailsAs (as.mapM f) (as.mapM g)
  | [], _ => by
      rw [List.mapM_nil, List.mapM_nil]
      exact .pure _ _
  | a :: as, h => by
      rw [List.mapM_cons, List.mapM_cons]
      refine (h a List.mem_cons_self).bind fun _ _ _ _ => ?_
      refine (FailsAs.mapM fun a' ha' => h a' (List.mem_cons_of_mem a ha')).bind fun _ _ _ _ => ?_
      exact .pure _ _

end FailsAs

/-- Two computations end alike: both with related results, or both with an error. -/
inductive Alike (R : α → α → Prop) : Except ε α → Except ε α → Prop where
  | ok {a a' : α} : R a a' → Alike R (.ok a) (.ok a')
  | error {e e' : ε} : Alike R (.error e) (.error e')

theorem Alike.bind {R : α → α → Prop} {S : β → β → Prop} {x x' : Except ε α}
    {f f' : α → Except ε β} (h : Alike R x x') (hf : ∀ a a', R a a' → Alike S (f a) (f' a')) :
    Alike S (x >>= f) (x' >>= f') := by
  cases h with
  | ok h => exact hf _ _ h
  | error => exact .error

/-- A fold whose steps end alike on related accumulators. -/
theorem Alike.foldlM {R : β → β → Prop} {f : β → α → Except ε β}
    (hf : ∀ a b b', R b b' → Alike R (f b a) (f b' a)) : ∀ (as : List α) {b b' : β}, R b b' →
      Alike R (as.foldlM f b) (as.foldlM f b')
  | [], _, _, h => .ok h
  | a :: as, b, b', h => by
      rw [List.foldlM_cons, List.foldlM_cons]
      exact (hf a b b' h).bind fun _ _ h' => Alike.foldlM hf as h'

end Except
