import Mathlib.Init

/-!
# Properties along a run

A machine takes one event after another. `Along step P` says that `P` holds of every event of a
run, in the state in which it comes.
-/

universe u v

variable {σ : Type u} {ε : Type v} {step : σ → ε → σ}

/-- `P` holds of each event of a run from `s`, in the state before it. -/
def Along (step : σ → ε → σ) (P : σ → ε → Prop) : σ → List ε → Prop
  | _, [] => True
  | s, e :: es => P s e ∧ Along step P (step s e) es

namespace Along

variable {P Q C : σ → ε → Prop} {I : σ → Prop}

instance decidable [∀ s e, Decidable (P s e)] : ∀ (es : List ε) (s : σ),
    Decidable (Along step P s es)
  | [], _ => inferInstanceAs (Decidable True)
  | e :: es, s =>
      have := decidable es (step s e)
      inferInstanceAs (Decidable (P s e ∧ Along step P (step s e) es))

/-- Where, as long as an invariant holds, two properties of an event agree, and an event that
has them keeps the invariant, the properties agree along every run. -/
theorem iff_of_step (hstep : ∀ s e, I s → Q s e → (P s e ↔ C s e) ∧ (C s e → I (step s e))) :
    ∀ {es : List ε} {s : σ}, I s → Along step Q s es → (Along step P s es ↔ Along step C s es)
  | [], _, _, _ => Iff.rfl
  | e :: es, s, hI, hQ => by
      obtain ⟨hiff, hnext⟩ := hstep s e hI hQ.1
      constructor
      · intro h
        have hC := hiff.mp h.1
        exact ⟨hC, (iff_of_step hstep (hnext hC) hQ.2).mp h.2⟩
      · intro h
        exact ⟨hiff.mpr h.1, (iff_of_step hstep (hnext h.1) hQ.2).mpr h.2⟩

end Along
