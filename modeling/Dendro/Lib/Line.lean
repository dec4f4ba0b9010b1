import Dendro.Lib.Prog

/-!
# Straight lines of calls

A program without branches makes its calls one after the other, and each goes through unless
a fault strikes it. Such a program is known by the list of its calls: `true` for one whose
failure ends the program, `false` for one whose failure it ignores. `struck` says what the
faults do to the list, and `Line` that a program does just that: which call fails is read off
the faults alone, and `E` says what a failure at each of them leaves.
-/

namespace Prog

variable {σ φ ε α β : Type}

/-- What the faults do to a line of calls: it gets to its end, the `i`-th call fails, or it is
killed on the way. -/
def struck : List Bool → List (Fault φ) → Outcome Nat Unit
  | [], _ => .ok ()
  | _ :: _, [] => .ok ()
  | fatal :: calls, fault :: faults =>
    let later := match struck calls faults with
      | .err i => .err (i + 1)
      | r => r
    match fault with
    | .none => later
    | .kill => .killed
    | .fails _ => if fatal then .err 0 else later

theorem struck_nil_right (calls : List Bool) :
    struck calls ([] : List (Fault φ)) = .ok () := by
  cases calls <;> rfl

/-- A line that goes on after another. -/
theorem struck_append (first calls : List Bool) : ∀ faults : List (Fault φ),
    struck (first ++ calls) faults = match struck first faults with
      | .ok () => match struck calls (faults.drop first.length) with
        | .err i => .err (i + first.length)
        | r => r
      | r => r := by
  induction first with
  | nil =>
      intro faults
      simp only [List.nil_append, struck, List.length_nil, List.drop_zero, Nat.add_zero]
      rcases struck calls faults <;> rfl
  | cons fatal first ih =>
      intro faults
      cases faults with
      | nil => simp [struck, struck_nil_right]
      | cons fault faults =>
          simp only [List.cons_append, struck, ih faults, List.length_cons, List.drop_succ_cons]
          rcases struck first faults with _ | i | - <;>
            rcases struck calls (faults.drop first.length) with _ | j | - <;>
            cases fault <;> cases fatal <;> simp <;> omega

/-- From `s`, `m` makes the calls of a line: it returns as `Q` says exactly when the line gets
to its end, and gives up exactly when a call fails, as `E` says of that call. -/
def Line (calls : List Bool) (m : Prog σ φ ε α) (s : σ) (Q : α → σ → Prop)
    (E : Nat → σ → Prop) : Prop :=
  ∀ faults, match struck calls faults, m s faults with
    | .ok (), (.ok a, s', rest) => Q a s' ∧ rest = faults.drop calls.length
    | .err i, (.err _, s', _) => E i s'
    | .killed, (.killed, _, _) => True
    | _, _ => False

variable {calls : List Bool} {m : Prog σ φ ε α} {s : σ} {Q Q' : α → σ → Prop}
  {E E' : Nat → σ → Prop}

theorem Line.mono (h : Line calls m s Q E) (hQ : ∀ a s', Q a s' → Q' a s')
    (hE : ∀ i s', E i s' → E' i s') : Line calls m s Q' E' := by
  intro faults
  have hm := h faults
  generalize struck calls faults = r, m s faults = x at hm ⊢
  rcases r with _ | i | - <;> rcases x with ⟨a | e | -, s', rest⟩ <;>
    first | exact hm.elim | skip
  · exact ⟨hQ a s' hm.1, hm.2⟩
  · exact hE i s' hm
  · trivial

theorem Line.pure {a : α} (h : Q a s) : Line [] (Pure.pure a : Prog σ φ ε α) s Q E :=
  fun _ => ⟨h, rfl⟩

/-- A program that starts by reading its state. -/
theorem Line.state_bind {k : σ → Prog σ φ ε α} (h : Line calls (k s) s Q E) :
    Line calls (Prog.state >>= k) s Q E := h

theorem Line.lift {x : Except ε α} {a : α} (hx : x = .ok a) (h : Q a s) :
    Line [] (Prog.lift x : Prog σ φ ε α) s Q E := by
  rw [hx]
  exact .pure h

/-- A call that goes through where no fault strikes. -/
theorem Line.call {wrap : φ → ε} {f : σ → Except ε α × σ} {a : α} {s' : σ}
    (hf : f s = (.ok a, s')) (hQ : Q a s') (hE : E 0 s) : Line [true] (Prog.call wrap f) s Q E := by
  intro faults
  cases faults with
  | nil => simp [struck, Prog.call, hf, hQ]
  | cons fault faults => cases fault <;> simp [struck, Prog.call, hf, hQ, hE]

theorem Line.read {wrap : φ → ε} {f : σ → Except ε α} {a : α} (hf : f s = .ok a) (hQ : Q a s)
    (hE : E 0 s) : Line [true] (Prog.read wrap f) s Q E :=
  .call (by rw [hf]) hQ hE

/-- A call whose failure is ignored. -/
theorem Line.attempt_call {wrap : φ → ε} {f : σ → Except ε α × σ} {a : α} {s' : σ}
    {Q : Except ε α → σ → Prop} (hf : f s = (.ok a, s')) (hQ : Q (.ok a) s')
    (hfail : ∀ x, Q (.error (wrap x)) s) :
    Line [false] (Prog.attempt (Prog.call wrap f)) s Q E := by
  intro faults
  cases faults with
  | nil => simp [struck, Prog.attempt, Prog.call, hf, hQ]
  | cons fault faults =>
      cases fault <;> simp [struck, Prog.attempt, Prog.call, hf, hQ, hfail]

theorem Line.bind {later : List Bool} {k : α → Prog σ φ ε β} {Q' : β → σ → Prop}
    (hm : Line calls m s Q E)
    (hk : ∀ a s', Q a s' → Line later (k a) s' Q' fun i => E (i + calls.length)) :
    Line (calls ++ later) (m >>= k) s Q' E := by
  intro faults
  have h := hm faults
  rw [struck_append, run_bind]
  rcases hs : struck calls faults with _ | i | - <;>
    rcases hr : m s faults with ⟨a | e | -, s', rest⟩ <;> rw [hs, hr] at h <;>
    first | exact h.elim | skip
  · obtain ⟨hQ, rfl⟩ := h
    have h' := hk a s' hQ (faults.drop calls.length)
    dsimp only
    rcases hs' : struck later (faults.drop calls.length) with _ | i | - <;>
      rcases hr' : k a s' (faults.drop calls.length) with ⟨b | e | -, s'', rest⟩ <;>
      rw [hs', hr'] at h' <;> first | exact h'.elim | skip
    · exact ⟨h'.1, by rw [h'.2, List.drop_drop, List.length_append]⟩
    · exact h'
    · trivial
  · exact h
  · trivial

/-- From `s`, `m` gives up exactly when a call of the line fails, as `E` says of that call. -/
def GivesUp (calls : List Bool) (m : Prog σ φ ε α) (s : σ) (E : Nat → σ → Prop) : Prop :=
  ∀ faults, match struck calls faults, m s faults with
    | .err i, (.err _, s', _) => E i s'
    | .err _, _ => False
    | _, (.err _, _, _) => False
    | _, _ => True

theorem Line.givesUp (h : Line calls m s Q E) : GivesUp calls m s E := by
  intro faults
  have hm := h faults
  generalize struck calls faults = r, m s faults = x at hm ⊢
  rcases r with _ | i | - <;> rcases x with ⟨a | e | -, s', rest⟩ <;>
    first | exact hm.elim | exact hm | trivial

theorem GivesUp.abort : GivesUp [] (Prog.abort : Prog σ φ ε α) s E := fun _ => trivial

theorem GivesUp.mono (h : GivesUp calls m s E) (hE : ∀ i s', E i s' → E' i s') :
    GivesUp calls m s E' := by
  intro faults
  have hm := h faults
  generalize struck calls faults = r, m s faults = x at hm ⊢
  rcases r with _ | i | - <;> rcases x with ⟨a | e | -, s', rest⟩ <;>
    first | exact hm.elim | exact hE i s' hm | trivial

/-- A line, and after it a program that may panic. -/
theorem Line.bind_givesUp {later : List Bool} {k : α → Prog σ φ ε β} (hm : Line calls m s Q E)
    (hk : ∀ a s', Q a s' → GivesUp later (k a) s' fun i => E (i + calls.length)) :
    GivesUp (calls ++ later) (m >>= k) s E := by
  intro faults
  have h := hm faults
  rw [struck_append, run_bind]
  generalize hs : struck calls faults = r, m s faults = x at h ⊢
  rcases r with _ | i | - <;> rcases x with ⟨a | e | -, s', rest⟩ <;>
    first | exact h.elim | exact h | skip
  · obtain ⟨hQ, rfl⟩ := h
    have h' := hk a s' hQ (faults.drop calls.length)
    dsimp only
    generalize struck later (faults.drop calls.length) = r',
      k a s' (faults.drop calls.length) = x' at h' ⊢
    rcases r' with _ | i | - <;> rcases x' with ⟨b | e | -, s'', rest⟩ <;>
      first | exact h'.elim | exact h'

/-- What is computed of the result gives up no more. -/
theorem GivesUp.bind_pure (h : GivesUp calls m s E) (f : α → β) :
    GivesUp calls (m >>= fun a => (Pure.pure (f a) : Prog σ φ ε β)) s E := by
  intro faults
  have hm := h faults
  rw [run_bind]
  generalize struck calls faults = r, m s faults = x at hm ⊢
  rcases r with _ | i | - <;> rcases x with ⟨a | e | -, s', rest⟩ <;>
    first | exact hm.elim | exact hm

/-- The failure that a program gives up with. -/
theorem GivesUp.err (h : GivesUp calls m s E) {faults rest : List (Fault φ)} {e : ε} {s' : σ}
    (hm : m s faults = (.err e, s', rest)) : ∃ i, struck calls faults = .err i ∧ E i s' := by
  have hg := h faults
  rw [hm] at hg
  rcases hs : struck calls faults with _ | i | - <;> rw [hs] at hg
  · exact hg.elim
  · exact ⟨i, rfl, hg⟩
  · exact hg.elim

/-- A call that fails makes the program give up. -/
theorem GivesUp.of_struck (h : GivesUp calls m s E) {faults : List (Fault φ)} {i : Nat}
    (hs : struck calls faults = .err i) :
    ∃ e s' rest, m s faults = (.err e, s', rest) ∧ E i s' := by
  have hg := h faults
  rw [hs] at hg
  rcases hm : m s faults with ⟨a | e | -, s', rest⟩ <;> rw [hm] at hg
  · exact hg.elim
  · exact ⟨e, s', rest, rfl, hg⟩
  · exact hg.elim

end Prog
