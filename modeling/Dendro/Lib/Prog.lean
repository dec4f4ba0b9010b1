import Mathlib.Logic.Relation

/-!
# Programs over a store that can fail or be killed

A program runs over a state of which a part is durable, and everything durable happens in
**calls**: a call either takes effect whole or not at all. A run is given a list of faults,
one for each call it will make: the call goes through, it fails without effect, or the
process is killed before it takes effect. A list that has run out lets every further call
through, so `[]` is the run in which nothing fails.

Between two calls the program only computes and updates its own memory, and nothing can
interrupt it there: a kill then is a kill at the next call, with the memory lost either way.

`Runs R m s Q E` is the program logic: from `s`, whatever the faults, the run of `m` is a
sequence of `R`-steps, and its result satisfies `Q` or its error `E`. What every step of a
relation preserves is thereby preserved by every program proved to make only such steps,
at every point where it can fail or be killed.
-/

/-- What happens to one call. -/
inductive Fault (φ : Type) where
  /-- It goes through. -/
  | none
  /-- It fails and has no effect. -/
  | fails (failure : φ)
  /-- The process is killed before it takes effect. -/
  | kill
  deriving DecidableEq, Repr

/-- How a run ended. -/
inductive Outcome (ε α : Type) where
  | ok (a : α)
  | err (e : ε)
  /-- The process is gone, and its memory with it. -/
  | killed
  deriving DecidableEq, Repr

/-- Whether the run returned. -/
def Outcome.isOk {ε α : Type} : Outcome ε α → Bool
  | .ok _ => true
  | _ => false

/-- A program over the state `σ`, with failures `φ` of single calls and errors `ε`. -/
def Prog (σ φ ε α : Type) := σ → List (Fault φ) → Outcome ε α × σ × List (Fault φ)

namespace Prog

variable {σ τ φ ε α β : Type}

/-! ## Constructors -/

instance : Monad (Prog σ φ ε) where
  pure a := fun s fs => (.ok a, s, fs)
  bind m k := fun s fs => match m s fs with
    | (.ok a, s', fs') => k a s' fs'
    | (.err e, s', fs') => (.err e, s', fs')
    | (.killed, s', fs') => (.killed, s', fs')

/-- Give up with an error. -/
def fail (e : ε) : Prog σ φ ε α := fun s fs => (.err e, s, fs)

/-- The thread panics: what it remembers is gone, as after a kill. -/
def abort : Prog σ φ ε α := fun s fs => (.killed, s, fs)

/-- A computation that touches no state. -/
def lift : Except ε α → Prog σ φ ε α
  | .ok a => pure a
  | .error e => fail e

/-- The current state. -/
def state : Prog σ φ ε σ := fun s fs => (.ok s, s, fs)

/-- Update the state in memory. -/
def update (f : σ → σ) : Prog σ φ ε Unit := fun s fs => (.ok (), f s, fs)

/-- One call: `f` is its result and the state it leaves, `wrap` turns a failure of the call
itself into an error. -/
def call (wrap : φ → ε) (f : σ → Except ε α × σ) : Prog σ φ ε α := fun s fs =>
  match fs with
  | .fails x :: fs => (.err (wrap x), s, fs)
  | .kill :: fs => (.killed, s, fs)
  | .none :: fs => match f s with
    | (.ok a, s') => (.ok a, s', fs)
    | (.error e, s') => (.err e, s', fs)
  | [] => match f s with
    | (.ok a, s') => (.ok a, s', [])
    | (.error e, s') => (.err e, s', [])

/-- A call that only reads. -/
def read (wrap : φ → ε) (f : σ → Except ε α) : Prog σ φ ε α := call wrap fun s => (f s, s)

/-- The outcome of a program as a value. A kill is not one. -/
def attempt (m : Prog σ φ ε α) : Prog σ φ ε (Except ε α) := fun s fs =>
  match m s fs with
  | (.ok a, s', fs') => (.ok (.ok a), s', fs')
  | (.err e, s', fs') => (.ok (.error e), s', fs')
  | (.killed, s', fs') => (.killed, s', fs')

/-- Run again, up to `n` times more, as long as the error is retryable. -/
def retry (retryable : ε → Bool) (m : Prog σ φ ε α) : Nat → Prog σ φ ε α
  | 0 => m
  | n + 1 => fun s fs => match m s fs with
    | (.err e, s', fs') => if retryable e then retry retryable m n s' fs' else (.err e, s', fs')
    | r => r

/-- One run for each element of a list, in order. -/
def forEach (f : β → Prog σ φ ε Unit) : List β → Prog σ φ ε Unit
  | [] => pure ()
  | b :: bs => do
      f b
      forEach f bs

/-- One run for each element of a list, threading a value through. -/
def foldEach (f : α → β → Prog σ φ ε α) : α → List β → Prog σ φ ε α
  | a, [] => pure a
  | a, b :: bs => do
      let a' ← f a b
      foldEach f a' bs

/-- A program over a part of the state. -/
def zoom (get : σ → τ) (set : τ → σ → σ) (m : Prog τ φ ε α) : Prog σ φ ε α := fun s fs =>
  match m (get s) fs with
  | (r, t, fs') => (r, set t s, fs')

/-- A program with a value of its own beside the state. The value is its result, and is
gone with it if the program gives up. -/
def withValue (t : τ) (m : Prog (τ × σ) φ ε α) : Prog σ φ ε τ := fun s fs =>
  match m (t, s) fs with
  | (.ok _, x, fs') => (.ok x.1, x.2, fs')
  | (.err e, x, fs') => (.err e, x.2, fs')
  | (.killed, x, fs') => (.killed, x.2, fs')

/-- One run for each element of a list, in order and in place. -/
def onEach (m : Prog (τ × σ) φ ε Unit) : Prog (List τ × σ) φ ε Unit := fun s => go s.1 s.2
where
  go : List τ → σ → List (Fault φ) → Outcome ε Unit × (List τ × σ) × List (Fault φ)
    | [], s, fs => (.ok (), ([], s), fs)
    | t :: ts, s, fs => match m (t, s) fs with
      | (.ok (), x, fs') => match go ts x.2 fs' with
        | (r, y, fs'') => (r, (x.1 :: y.1, y.2), fs'')
      | (r, x, fs') => (r, (x.1 :: ts, x.2), fs')

/-! ## Running without faults -/

theorem run_pure (a : α) (s : σ) (fs : List (Fault φ)) :
    (pure a : Prog σ φ ε α) s fs = (.ok a, s, fs) := rfl

theorem run_bind (m : Prog σ φ ε α) (k : α → Prog σ φ ε β) (s : σ) (fs : List (Fault φ)) :
    (m >>= k) s fs = match m s fs with
      | (.ok a, s', fs') => k a s' fs'
      | (.err e, s', fs') => (.err e, s', fs')
      | (.killed, s', fs') => (.killed, s', fs') := rfl

theorem run_bind_ok {m : Prog σ φ ε α} {k : α → Prog σ φ ε β} {s s' : σ}
    {fs fs' : List (Fault φ)} {a : α} (h : m s fs = (.ok a, s', fs')) :
    (m >>= k) s fs = k a s' fs' := by
  rw [run_bind, h]

/-- What a run that returned has returned on the way. -/
theorem run_bind_eq_ok {m : Prog σ φ ε α} {k : α → Prog σ φ ε β} {s s'' : σ}
    {fs fs'' : List (Fault φ)} {b : β} (h : (m >>= k) s fs = (.ok b, s'', fs'')) :
    ∃ a s' fs', m s fs = (.ok a, s', fs') ∧ k a s' fs' = (.ok b, s'', fs'') := by
  rw [run_bind] at h
  rcases hr : m s fs with ⟨a | e | -, s', fs'⟩ <;> rw [hr] at h
  · exact ⟨a, s', fs', rfl, h⟩
  · exact absurd (Prod.mk.inj h).1 (by simp)
  · exact absurd (Prod.mk.inj h).1 (by simp)

/-- Continuations that agree wherever a program can return. -/
theorem run_bind_congr {m : Prog σ φ ε α} {k k' : α → Prog σ φ ε β} {s : σ}
    {fs : List (Fault φ)} (h : ∀ a s' fs', m s fs = (.ok a, s', fs') → k a s' fs' = k' a s' fs') :
    (m >>= k) s fs = (m >>= k') s fs := by
  rw [run_bind, run_bind]
  rcases hm : m s fs with ⟨a | e | -, s', fs'⟩
  · exact h a s' fs' hm
  · rfl
  · rfl

theorem run_call_nil (wrap : φ → ε) (f : σ → Except ε α × σ) (s : σ) :
    call wrap f s [] = match f s with
      | (.ok a, s') => (.ok a, s', [])
      | (.error e, s') => (.err e, s', []) := rfl

/-- A call, by the fault it meets: none where the list has run out. -/
theorem run_call (wrap : φ → ε) (f : σ → Except ε α × σ) (s : σ) (fs : List (Fault φ)) :
    call wrap f s fs = match fs.headD .none with
      | .none => match f s with
        | (.ok a, s') => (.ok a, s', fs.tail)
        | (.error e, s') => (.err e, s', fs.tail)
      | .fails x => (.err (wrap x), s, fs.tail)
      | .kill => (.killed, s, fs.tail) := by
  rcases fs with _ | ⟨_ | x | -, fs⟩ <;> rfl

theorem run_read_nil (wrap : φ → ε) {f : σ → Except ε α} {s : σ} {a : α} (h : f s = .ok a) :
    read wrap f s [] = (.ok a, s, []) := by
  rw [read, run_call_nil, h]

theorem run_lift_bind {x : Except ε α} {k : α → Prog σ φ ε β} {s : σ} {fs : List (Fault φ)}
    {a : α} (h : x = .ok a) : (lift x >>= k) s fs = k a s fs := by
  rw [h]
  rfl

/-- A program that succeeds at once is not retried. -/
theorem run_retry_ok {retryable : ε → Bool} {m : Prog σ φ ε α} {s s' : σ}
    {fs fs' : List (Fault φ)} {a : α} (h : m s fs = (.ok a, s', fs')) (n : Nat) :
    retry retryable m n s fs = (.ok a, s', fs') := by
  cases n with
  | zero => exact h
  | succ n => simp only [retry, h]

/-- An error that is not retryable is returned at once. -/
theorem run_retry_err {retryable : ε → Bool} {m : Prog σ φ ε α} {s s' : σ}
    {fs fs' : List (Fault φ)} {e : ε} (h : m s fs = (.err e, s', fs')) (he : retryable e = false)
    (n : Nat) : retry retryable m n s fs = (.err e, s', fs') := by
  cases n with
  | zero => exact h
  | succ n => simp [retry, h, he]

/-! ## Retried calls and their faults -/

/-- Whether a fault fails a call in a way that is tried again. -/
def again (wrap : φ → ε) (retryable : ε → Bool) : Fault φ → Bool
  | .fails x => retryable (wrap x)
  | _ => false

section Retried

variable {retryable : ε → Bool} {wrap : φ → ε} {f : σ → Except ε α × σ} {s : σ}

/-- A program is not run again unless it ends with an error that is retryable. -/
theorem run_retry_once {m : Prog σ φ ε α} {fs : List (Fault φ)}
    (h : ∀ e s' fs', m s fs = (.err e, s', fs') → retryable e = false) (n : Nat) :
    retry retryable m n s fs = m s fs := by
  cases n with
  | zero => rfl
  | succ n =>
      rcases hm : m s fs with ⟨a | e | -, s', fs'⟩
      · exact run_retry_ok hm (n + 1)
      · exact run_retry_err hm (h e s' fs' hm) (n + 1)
      · simp only [retry, hm]

/-- A call that fails no more often than it is tried again is made after those failures. -/
theorem run_retry_call (hf : ∀ e s', f s = (.error e, s') → retryable e = false) :
    ∀ (n : Nat) (fs : List (Fault φ)),
      (fs.takeWhile (again wrap retryable)).length ≤ n →
        retry retryable (call wrap f) n s fs =
          call wrap f s (fs.dropWhile (again wrap retryable))
  | n, [], _ => by
      refine run_retry_once (fun e s' fs' h => ?_) n
      rw [run_call_nil] at h
      rcases hr : f s with ⟨e' | a, s''⟩
      · rw [hr] at h
        obtain rfl : e' = e := by injection h with h; injection h
        exact hf e' s'' hr
      · rw [hr] at h
        exact absurd h (by simp)
  | n, .kill :: fs, _ => run_retry_once (fun e s' fs' h => absurd h (by simp [call])) n
  | n, .none :: fs, _ => by
      refine run_retry_once (fun e s' fs' h => ?_) n
      simp only [call] at h
      rcases hr : f s with ⟨e' | a, s''⟩
      · rw [hr] at h
        obtain rfl : e' = e := by injection h with h; injection h
        exact hf e' s'' hr
      · rw [hr] at h
        exact absurd h (by simp)
  | n, .fails x :: fs, h => by
      by_cases hx : retryable (wrap x) = true
      · rw [List.takeWhile_cons_of_pos (by exact hx), List.length_cons] at h
        rw [List.dropWhile_cons_of_pos (by exact hx)]
        obtain ⟨n, rfl⟩ : ∃ n', n = n' + 1 := ⟨n - 1, by omega⟩
        have hrest := run_retry_call hf n fs (by omega)
        rw [← hrest]
        simp only [retry, call, hx, if_true]
      · rw [List.dropWhile_cons_of_neg (by exact hx)]
        refine run_retry_once (fun e s' fs' h => ?_) n
        obtain rfl : wrap x = e := by injection h with h; injection h
        simpa using hx

/-- A call that fails more often than that gives up with its last failure. -/
theorem run_retry_struck : ∀ (n : Nat) (fs : List (Fault φ)),
    n < (fs.takeWhile (again wrap retryable)).length →
      ∃ x rest, retryable (wrap x) = true ∧
        retry retryable (call wrap f) n s fs = (.err (wrap x), s, rest)
  | _, [], h => absurd h (by simp)
  | _, .none :: _, h => absurd h (by simp [again])
  | _, .kill :: _, h => absurd h (by simp [again])
  | n, .fails x :: fs, h => by
      by_cases hx : retryable (wrap x) = true
      · rw [List.takeWhile_cons_of_pos (by exact hx), List.length_cons] at h
        cases n with
        | zero => exact ⟨x, fs, hx, rfl⟩
        | succ n =>
            obtain ⟨y, rest, hy, hr⟩ := run_retry_struck n fs (by omega)
            refine ⟨y, rest, hy, ?_⟩
            rw [← hr]
            simp only [retry, call, hx, if_true]
      · rw [List.takeWhile_cons_of_neg (by exact hx)] at h
        exact absurd h (by simp)

end Retried

/-! ## The program logic -/

open Relation

/-- What is known of a finished run that started from `s`. -/
def Meets (R : σ → σ → Prop) (s : σ) (Q : α → σ → Prop) (E : ε → σ → Prop) :
    Outcome ε α × σ × List (Fault φ) → Prop
  | (.ok a, s', _) => ReflTransGen R s s' ∧ Q a s'
  | (.err e, s', _) => ReflTransGen R s s' ∧ E e s'
  | (.killed, s', _) => ReflTransGen R s s'

/-- From `s`, whatever the faults, `m` makes only `R`-steps; if it returns, `Q` holds of the
value and the state, and if it gives up, `E` of the error and the state. -/
def Runs (R : σ → σ → Prop) (m : Prog σ φ ε α) (s : σ) (Q : α → σ → Prop)
    (E : ε → σ → Prop) : Prop :=
  ∀ fs, Meets R s Q E (m s fs)

variable {R : σ → σ → Prop} {s s₀ : σ} {Q Q' : α → σ → Prop} {E E' : ε → σ → Prop}

theorem Meets.mono {r : Outcome ε α × σ × List (Fault φ)} (h : Meets R s Q E r)
    (hQ : ∀ a s', Q a s' → Q' a s') (hE : ∀ e s', E e s' → E' e s') : Meets R s Q' E' r := by
  rcases r with ⟨a | e | -, s', fs'⟩
  · exact ⟨h.1, hQ _ _ h.2⟩
  · exact ⟨h.1, hE _ _ h.2⟩
  · exact h

/-- What was reached by `R`-steps from `s₀` and goes on by `R`-steps was reached from `s₀`. -/
theorem Meets.trans {r : Outcome ε α × σ × List (Fault φ)} (h₀ : ReflTransGen R s₀ s)
    (h : Meets R s Q E r) : Meets R s₀ Q E r := by
  rcases r with ⟨a | e | -, s', fs'⟩
  · exact ⟨h₀.trans h.1, h.2⟩
  · exact ⟨h₀.trans h.1, h.2⟩
  · exact h₀.trans h

/-- The state a run leaves, whatever its outcome, is reached by `R`-steps. -/
theorem Runs.steps {m : Prog σ φ ε α} (h : Runs R m s Q E) (fs : List (Fault φ)) :
    ReflTransGen R s (m s fs).2.1 := by
  have hm := h fs
  rcases hr : m s fs with ⟨a | e | -, s', fs'⟩ <;> rw [hr] at hm
  · exact hm.1
  · exact hm.1
  · exact hm

/-- What is known of a value that was returned. -/
theorem Runs.returned {m : Prog σ φ ε α} (h : Runs R m s Q E) {fs fs' : List (Fault φ)} {a : α}
    {s' : σ} (hr : m s fs = (.ok a, s', fs')) : ReflTransGen R s s' ∧ Q a s' := by
  have hm := h fs
  rwa [hr] at hm

theorem Runs.mono {m : Prog σ φ ε α} (h : Runs R m s Q E) (hQ : ∀ a s', Q a s' → Q' a s')
    (hE : ∀ e s', E e s' → E' e s') : Runs R m s Q' E' :=
  fun fs => (h fs).mono hQ hE

/-- A step relation may be weakened. -/
theorem Runs.weaken {R' : σ → σ → Prop} {m : Prog σ φ ε α} (h : Runs R m s Q E)
    (hR : ∀ s s', R s s' → R' s s') : Runs R' m s Q E := by
  have hsteps : ∀ s', ReflTransGen R s s' → ReflTransGen R' s s' := fun s' hs => ReflTransGen.mono hR s s' hs
  intro fs
  have hm := h fs
  rcases hr : m s fs with ⟨a | e | -, s', fs'⟩ <;> rw [hr] at hm
  · exact ⟨hsteps s' hm.1, hm.2⟩
  · exact ⟨hsteps s' hm.1, hm.2⟩
  · exact hsteps s' hm

theorem Runs.pure {a : α} (h : Q a s) : Runs R (Pure.pure a : Prog σ φ ε α) s Q E :=
  fun _ => ⟨.refl, h⟩

theorem Runs.fail {e : ε} (h : E e s) : Runs R (Prog.fail e : Prog σ φ ε α) s Q E :=
  fun _ => ⟨.refl, h⟩

theorem Runs.abort : Runs R (Prog.abort : Prog σ φ ε α) s Q E := fun _ => .refl

theorem Runs.lift {x : Except ε α} (hQ : ∀ a, x = .ok a → Q a s)
    (hE : ∀ e, x = .error e → E e s) : Runs R (Prog.lift x : Prog σ φ ε α) s Q E := by
  cases x with
  | ok a => exact Runs.pure (hQ a rfl)
  | error e => exact Runs.fail (hE e rfl)

theorem Runs.state {Q : σ → σ → Prop} (h : Q s s) : Runs R (Prog.state : Prog σ φ ε σ) s Q E :=
  fun _ => ⟨.refl, h⟩

theorem Runs.update {f : σ → σ} {Q : Unit → σ → Prop} (hR : R s (f s)) (h : Q () (f s)) :
    Runs R (Prog.update f : Prog σ φ ε Unit) s Q E :=
  fun _ => ⟨.single hR, h⟩

theorem Runs.bind {m : Prog σ φ ε α} {k : α → Prog σ φ ε β} {Q' : β → σ → Prop}
    (hm : Runs R m s Q E) (hk : ∀ a s', Q a s' → Runs R (k a) s' Q' E) :
    Runs R (m >>= k) s Q' E := by
  intro fs
  have h := hm fs
  rw [run_bind]
  rcases hr : m s fs with ⟨a | e | -, s', fs'⟩ <;> rw [hr] at h
  · exact (hk a s' h.2 fs').trans h.1
  · exact h
  · exact h

/-- A call that goes through makes at most one step. -/
theorem Runs.call {wrap : φ → ε} {f : σ → Except ε α × σ}
    (hok : ∀ a s', f s = (.ok a, s') → ReflTransGen R s s' ∧ Q a s')
    (herr : ∀ e s', f s = (.error e, s') → ReflTransGen R s s' ∧ E e s')
    (hfail : ∀ x, E (wrap x) s) : Runs R (Prog.call wrap f) s Q E := by
  intro fs
  have hgo : ∀ fs' : List (Fault φ), Meets R s Q E (match f s with
      | (.ok a, s') => (Outcome.ok a, s', fs')
      | (.error e, s') => (.err e, s', fs')) := by
    intro fs'
    rcases hf : f s with ⟨e | a, s'⟩
    · exact herr e s' hf
    · exact hok a s' hf
  cases fs with
  | nil => exact hgo []
  | cons x fs =>
      cases x with
      | none => exact hgo fs
      | fails x => exact ⟨.refl, hfail x⟩
      | kill => exact .refl

theorem Runs.read {wrap : φ → ε} {f : σ → Except ε α} (hok : ∀ a, f s = .ok a → Q a s)
    (herr : ∀ e, f s = .error e → E e s) (hfail : ∀ x, E (wrap x) s) :
    Runs R (Prog.read wrap f) s Q E := by
  refine Runs.call ?_ ?_ hfail
  · intro a s' h
    obtain ⟨h₁, rfl⟩ := Prod.mk.inj h
    exact ⟨.refl, hok a h₁⟩
  · intro e s' h
    obtain ⟨h₁, rfl⟩ := Prod.mk.inj h
    exact ⟨.refl, herr e h₁⟩

theorem Runs.attempt {m : Prog σ φ ε α} {Q' : Except ε α → σ → Prop}
    (hm : Runs R m s Q E) (hok : ∀ a s', Q a s' → Q' (.ok a) s')
    (herr : ∀ e s', E e s' → Q' (.error e) s') : Runs R (Prog.attempt m) s Q' E' := by
  intro fs
  have h := hm fs
  unfold Prog.attempt
  rcases hr : m s fs with ⟨a | e | -, s', fs'⟩ <;> rw [hr] at h
  · exact ⟨h.1, hok a s' h.2⟩
  · exact ⟨h.1, herr e s' h.2⟩
  · exact h

/-- A retried program: what an error leaves must be enough to start over. -/
theorem Runs.retry {retryable : ε → Bool} {m : Prog σ φ ε α} {I : σ → Prop}
    (hm : ∀ s, I s → Runs R m s Q fun e s' => I s' ∧ E e s') (n : Nat) :
    ∀ s, I s → Runs R (Prog.retry retryable m n) s Q fun e s' => I s' ∧ E e s' := by
  induction n with
  | zero => exact hm
  | succ n ih =>
      intro s hs fs
      have h := hm s hs fs
      unfold Prog.retry
      rcases hr : m s fs with ⟨a | e | -, s', fs'⟩ <;> rw [hr] at h
      · exact h
      · dsimp only
        split
        · exact (ih s' h.2.1 fs').trans h.1
        · exact h
      · exact h

/-- A loop over a list keeps an invariant that each turn keeps. -/
theorem Runs.forEach {f : β → Prog σ φ ε Unit} {I : σ → Prop} : ∀ {bs : List β},
    (∀ b ∈ bs, ∀ s, I s → Runs R (f b) s (fun _ s' => I s') E) → ∀ {s : σ}, I s →
      Runs R (Prog.forEach f bs) s (fun _ s' => I s') E
  | [], _, _, hs => Runs.pure hs
  | b :: bs, h, s, hs =>
      (h b (by simp) s hs).bind fun _ _ hs' =>
        Runs.forEach (fun b' hb' => h b' (by simp [hb'])) hs'

/-- A call and the update of memory that follows it are one step: nothing can come between. -/
theorem Runs.call_update {wrap : φ → ε} {f : σ → Except ε β × σ} {g : σ → σ}
    {k : Unit → Prog σ φ ε α} (hok : ∀ b s', f s = (.ok b, s') →
      ReflTransGen R s (g s') ∧ Runs R (k ()) (g s') Q E)
    (herr : ∀ e s', f s = (.error e, s') → ReflTransGen R s s' ∧ E e s')
    (hfail : ∀ x, E (wrap x) s) :
    Runs R (Prog.call wrap f >>= fun _ => Prog.update g >>= k) s Q E := by
  intro fs
  have hgo : ∀ fs' : List (Fault φ), Meets R s Q E (match (match f s with
      | (.ok a, s') => (Outcome.ok a, s', fs')
      | (.error e, s') => (.err e, s', fs')) with
      | (.ok _, s', fs') => (Prog.update g >>= k) s' fs'
      | (.err e, s', fs') => (.err e, s', fs')
      | (.killed, s', fs') => (.killed, s', fs')) := by
    intro fs'
    rcases hf : f s with ⟨e | b, s'⟩
    · exact herr e s' hf
    · obtain ⟨hstep, hk⟩ := hok b s' hf
      exact (hk fs').trans hstep
  rw [run_bind]
  cases fs with
  | nil => exact hgo []
  | cons x fs =>
      cases x with
      | none => exact hgo fs
      | fails x => exact ⟨.refl, hfail x⟩
      | kill => exact .refl

/-- A loop over a list that threads a value through keeps an invariant of the value, the
state and the part of the list still to come. -/
theorem Runs.foldEach {f : α → β → Prog σ φ ε α} {I : List β → α → σ → Prop} :
    ∀ {bs : List β}, (∀ b bs a s, I (b :: bs) a s → Runs R (f a b) s (I bs) E) →
      ∀ {a : α} {s : σ}, I bs a s → Runs R (Prog.foldEach f a bs) s (I []) E
  | [], _, _, _, hs => Runs.pure hs
  | b :: bs, h, a, s, hs => (h b bs a s hs).bind fun _ _ hs' => Runs.foldEach h hs'

/-! ### However a run ends

`Runs` says of a killed run only which steps led to it. Where what is left after a kill
matters, `Ends` says it of every outcome alike. -/

/-- Whatever the faults, the run of `m` from `s` ends as `P` says. -/
def Ends (m : Prog σ φ ε α) (s : σ) (P : Outcome ε α → σ → Prop) : Prop :=
  ∀ fs, P (m s fs).1 (m s fs).2.1

variable {P P' : Outcome ε α → σ → Prop}

theorem Ends.mono {m : Prog σ φ ε α} (h : Ends m s P) (hP : ∀ r s', P r s' → P' r s') :
    Ends m s P' := fun fs => hP _ _ (h fs)

theorem Ends.pure {a : α} (h : P (.ok a) s) : Ends (Pure.pure a : Prog σ φ ε α) s P := fun _ => h

theorem Ends.fail {e : ε} (h : P (.err e) s) : Ends (Prog.fail e : Prog σ φ ε α) s P := fun _ => h

theorem Ends.abort (h : P .killed s) : Ends (Prog.abort : Prog σ φ ε α) s P := fun _ => h

theorem Ends.lift {x : Except ε α} (hok : ∀ a, x = .ok a → P (.ok a) s)
    (herr : ∀ e, x = .error e → P (.err e) s) : Ends (Prog.lift x : Prog σ φ ε α) s P := by
  cases x with
  | ok a => exact .pure (hok a rfl)
  | error e => exact .fail (herr e rfl)

theorem Ends.bind {m : Prog σ φ ε α} {k : α → Prog σ φ ε β} {P' : Outcome ε β → σ → Prop}
    (hm : Ends m s P) (hok : ∀ a s', P (.ok a) s' → Ends (k a) s' P')
    (herr : ∀ e s', P (.err e) s' → P' (.err e) s') (hkill : ∀ s', P .killed s' → P' .killed s') :
    Ends (m >>= k) s P' := by
  intro fs
  have h := hm fs
  rw [run_bind]
  rcases hr : m s fs with ⟨a | e | -, s', fs'⟩ <;> rw [hr] at h
  · exact hok a s' h fs'
  · exact herr e s' h
  · exact hkill s' h

theorem Ends.call {wrap : φ → ε} {f : σ → Except ε α × σ}
    (hok : ∀ a s', f s = (.ok a, s') → P (.ok a) s')
    (herr : ∀ e s', f s = (.error e, s') → P (.err e) s') (hfail : ∀ e, P (.err e) s)
    (hkill : P .killed s) : Ends (Prog.call wrap f) s P := by
  intro fs
  have hgo : ∀ fs' : List (Fault φ), P (match f s with
      | (.ok a, s') => (Outcome.ok a, s', fs')
      | (.error e, s') => (.err e, s', fs')).1 (match f s with
      | (.ok a, s') => (Outcome.ok a, s', fs')
      | (.error e, s') => (.err e, s', fs')).2.1 := by
    intro fs'
    rcases hf : f s with ⟨e | a, s'⟩
    · exact herr e s' hf
    · exact hok a s' hf
  cases fs with
  | nil => exact hgo []
  | cons x fs =>
      cases x with
      | none => exact hgo fs
      | fails x => exact hfail (wrap x)
      | kill => exact hkill

theorem Ends.read {wrap : φ → ε} {f : σ → Except ε α} (hok : ∀ a, f s = .ok a → P (.ok a) s)
    (hfail : ∀ e, P (.err e) s) (hkill : P .killed s) : Ends (Prog.read wrap f) s P := by
  refine Ends.call ?_ ?_ hfail hkill
  · intro a s' h
    obtain ⟨h₁, rfl⟩ := Prod.mk.inj h
    exact hok a h₁
  · intro e s' h
    obtain ⟨-, rfl⟩ := Prod.mk.inj h
    exact hfail e

theorem Ends.attempt {m : Prog σ φ ε α} {P' : Outcome ε (Except ε α) → σ → Prop}
    (hm : Ends m s P) (hok : ∀ a s', P (.ok a) s' → P' (.ok (.ok a)) s')
    (herr : ∀ e s', P (.err e) s' → P' (.ok (.error e)) s')
    (hkill : ∀ s', P .killed s' → P' .killed s') : Ends (Prog.attempt m) s P' := by
  intro fs
  have h := hm fs
  unfold Prog.attempt
  rcases hr : m s fs with ⟨a | e | -, s', fs'⟩ <;> rw [hr] at h
  · exact hok a s' h
  · exact herr e s' h
  · exact hkill s' h

/-- How a run ends, of the runs that return or give up. -/
theorem Ends.runs {m : Prog σ φ ε α} (h : Ends m s P) :
    Runs (fun _ _ => True) m s (fun a s' => P (.ok a) s') fun e s' => P (.err e) s' := by
  intro fs
  have hend := h fs
  rcases hr : m s fs with ⟨a | e | -, s', fs'⟩ <;> rw [hr] at hend
  · exact ⟨.single trivial, hend⟩
  · exact ⟨.single trivial, hend⟩
  · exact .single trivial

/-- A program that starts by computing. -/
theorem Ends.lift_bind {x : Except ε α} {k : α → Prog σ φ ε β} {P : Outcome ε β → σ → Prop}
    (herr : ∀ e, x = .error e → P (.err e) s) (hok : ∀ a, x = .ok a → Ends (k a) s P) :
    Ends (Prog.lift x >>= k) s P := by
  cases x with
  | ok a => exact hok a rfl
  | error e => exact fun _ => herr e rfl

/-- A program that starts with a call that only reads. -/
theorem Ends.read_bind {wrap : φ → ε} {f : σ → Except ε α} {k : α → Prog σ φ ε β}
    {P : Outcome ε β → σ → Prop} (hfail : ∀ e, P (.err e) s) (hkill : P .killed s)
    (h : ∀ a, f s = .ok a → Ends (k a) s P) : Ends (Prog.read wrap f >>= k) s P := by
  refine Ends.bind (P := fun r s' => s' = s ∧ ∀ a, r = .ok a → f s = .ok a) ?_ ?_ ?_ ?_
  · refine .read (fun a ha => ⟨rfl, fun a' ha' => ?_⟩) (fun e => ⟨rfl, nofun⟩) ⟨rfl, nofun⟩
    rw [ha, Outcome.ok.inj ha']
  · rintro a _ ⟨rfl, ha⟩
    exact h a (ha a rfl)
  · rintro e _ ⟨rfl, -⟩
    exact hfail e
  · rintro _ ⟨rfl, -⟩
    exact hkill

/-- A program that starts by reading its state. -/
theorem Ends.state_bind {k : σ → Prog σ φ ε α} (h : Ends (k s) s P) :
    Ends (Prog.state >>= k) s P := h

/-- A retried program: what an error leaves must be enough to start over. -/
theorem Ends.retry {retryable : ε → Bool} {m : Prog σ φ ε α} {I : σ → Prop}
    (hm : ∀ s, I s → Ends m s P) (hagain : ∀ e s', P (.err e) s' → I s') (n : Nat) :
    ∀ s, I s → Ends (Prog.retry retryable m n) s P := by
  induction n with
  | zero => exact hm
  | succ n ih =>
      intro s hs fs
      have h := hm s hs fs
      unfold Prog.retry
      rcases hr : m s fs with ⟨a | e | -, s', fs'⟩ <;> rw [hr] at h
      · exact h
      · dsimp only
        split
        · exact ih s' (hagain e s' h) fs'
        · exact h
      · exact h

/-- A loop over a list whose turns leave the state as it is. -/
theorem Ends.foldEach {f : α → β → Prog σ φ ε α} {I : α → Prop} {bs : List β}
    (h : ∀ b ∈ bs, ∀ a, I a → Ends (f a b) s fun r s' => s' = s ∧ ∀ a', r = .ok a' → I a') :
    ∀ {a : α}, I a → Ends (Prog.foldEach f a bs) s fun r s' => s' = s ∧ ∀ a', r = .ok a' → I a' := by
  induction bs with
  | nil => exact fun ha => .pure ⟨rfl, fun _ h => by injection h with h; exact h ▸ ha⟩
  | cons b bs ih =>
      intro a ha
      refine .bind (h b (by simp) a ha) ?_ (fun e s' hs' => ⟨hs'.1, nofun⟩)
        fun s' hs' => ⟨hs'.1, nofun⟩
      rintro a' s' ⟨rfl, ha'⟩
      exact ih (fun b' hb' => h b' (by simp [hb'])) (ha' a' rfl)

/-! ### What is left in any case

Where it does not matter how a run ended: `m` from `s` leaves what `I` says. -/

/-- Whatever the faults and the outcome, the run of `m` from `s` leaves a state with `I`. -/
abbrev Keeps (m : Prog σ φ ε α) (s : σ) (I : σ → Prop) : Prop := Ends m s fun _ s' => I s'

section Keeps

variable {I J : σ → Prop}

theorem Keeps.bind {m : Prog σ φ ε α} {k : α → Prog σ φ ε β} (hm : Keeps m s I)
    (hk : ∀ a s', I s' → Keeps (k a) s' I) : Keeps (m >>= k) s I :=
  Ends.bind hm hk (fun _ _ h => h) fun _ h => h

theorem Keeps.fail {e : ε} (h : I s) : Keeps (Prog.fail e : Prog σ φ ε α) s I := fun _ => h

theorem Keeps.update {f : σ → σ} (h : I (f s)) : Keeps (Prog.update f : Prog σ φ ε Unit) s I :=
  fun _ => h

/-- A program that starts by updating its state. -/
theorem Keeps.update_bind {f : σ → σ} {k : Unit → Prog σ φ ε α} (h : Keeps (k ()) (f s) I) :
    Keeps (Prog.update f >>= k) s I := h

/-- A program that starts with a call that only reads. -/
theorem Keeps.read_bind {wrap : φ → ε} {f : σ → Except ε α} {k : α → Prog σ φ ε β} (hs : I s)
    (h : ∀ a, f s = .ok a → Keeps (k a) s I) : Keeps (Prog.read wrap f >>= k) s I := by
  exact Ends.read_bind (fun _ => hs) hs h

theorem Keeps.forEach {f : β → Prog σ φ ε Unit} : ∀ {bs : List β},
    (∀ b ∈ bs, ∀ s, I s → Keeps (f b) s I) → ∀ {s : σ}, I s → Keeps (Prog.forEach f bs) s I
  | [], _, _, hs => fun _ => hs
  | b :: _, h, s, hs =>
      (h b List.mem_cons_self s hs).bind fun _ _ hs' =>
        Keeps.forEach (fun b' hb' => h b' (List.mem_cons_of_mem b hb')) hs'

theorem Keeps.foldEach {f : α → β → Prog σ φ ε α} : ∀ {bs : List β},
    (∀ b ∈ bs, ∀ a s, I s → Keeps (f a b) s I) → ∀ {a : α} {s : σ}, I s →
      Keeps (Prog.foldEach f a bs) s I
  | [], _, _, _, hs => fun _ => hs
  | b :: _, h, a, s, hs =>
      (h b List.mem_cons_self a s hs).bind fun _ _ hs' =>
        Keeps.foldEach (fun b' hb' => h b' (List.mem_cons_of_mem b hb')) hs'

/-- What is left in any case is left by a run that returns. -/
theorem Keeps.runs {m : Prog σ φ ε α} (h : Keeps m s I) :
    Runs (fun _ _ => True) m s (fun _ s' => I s') fun _ s' => I s' :=
  Ends.runs h

end Keeps

/-! ### The run in which nothing fails

`Runs` is about every list of faults, so it cannot say that a program succeeds. `Goes` is about
the one run without faults: it ends, and as said. -/

/-- From `s`, where no call fails, `m` returns as `Q` says or gives up as `E` says. -/
def Goes (m : Prog σ φ ε α) (s : σ) (Q : α → σ → Prop) (E : ε → σ → Prop) : Prop :=
  (∃ a s', m s [] = (.ok a, s', []) ∧ Q a s') ∨ ∃ e s', m s [] = (.err e, s', []) ∧ E e s'

section Goes

variable {E E' : ε → σ → Prop} {Q Q' : α → σ → Prop}

theorem Goes.mono {m : Prog σ φ ε α} (h : Goes m s Q E) (hQ : ∀ a s', Q a s' → Q' a s')
    (hE : ∀ e s', E e s' → E' e s') : Goes m s Q' E' := by
  rcases h with ⟨a, s', hr, h⟩ | ⟨e, s', hr, h⟩
  · exact .inl ⟨a, s', hr, hQ a s' h⟩
  · exact .inr ⟨e, s', hr, hE e s' h⟩

theorem Goes.pure {a : α} (h : Q a s) : Goes (Pure.pure a : Prog σ φ ε α) s Q E :=
  .inl ⟨a, s, rfl, h⟩

theorem Goes.fail {e : ε} (h : E e s) : Goes (Prog.fail e : Prog σ φ ε α) s Q E :=
  .inr ⟨e, s, rfl, h⟩

theorem Goes.lift {x : Except ε α} (hok : ∀ a, x = .ok a → Q a s)
    (herr : ∀ e, x = .error e → E e s) : Goes (Prog.lift x : Prog σ φ ε α) s Q E := by
  cases x with
  | ok a => exact .pure (hok a rfl)
  | error e => exact .fail (herr e rfl)

theorem Goes.state {Q : σ → σ → Prop} (h : Q s s) : Goes (Prog.state : Prog σ φ ε σ) s Q E :=
  .inl ⟨s, s, rfl, h⟩

theorem Goes.update {f : σ → σ} {Q : Unit → σ → Prop} (h : Q () (f s)) :
    Goes (Prog.update f : Prog σ φ ε Unit) s Q E :=
  .inl ⟨(), f s, rfl, h⟩

theorem Goes.bind {m : Prog σ φ ε α} {k : α → Prog σ φ ε β} {Q' : β → σ → Prop}
    (hm : Goes m s Q E) (hk : ∀ a s', Q a s' → Goes (k a) s' Q' E) : Goes (m >>= k) s Q' E := by
  rcases hm with ⟨a, s', hr, h⟩ | ⟨e, s', hr, h⟩
  · have hrest := hk a s' h
    unfold Goes at hrest ⊢
    rwa [run_bind_ok hr]
  · exact .inr ⟨e, s', by rw [run_bind, hr], h⟩

theorem Goes.call {wrap : φ → ε} {f : σ → Except ε α × σ}
    (hok : ∀ a s', f s = (.ok a, s') → Q a s') (herr : ∀ e s', f s = (.error e, s') → E e s') :
    Goes (Prog.call wrap f) s Q E := by
  rcases hf : f s with ⟨e | a, s'⟩
  · exact .inr ⟨e, s', by rw [run_call_nil, hf], herr e s' hf⟩
  · exact .inl ⟨a, s', by rw [run_call_nil, hf], hok a s' hf⟩

theorem Goes.read {wrap : φ → ε} {f : σ → Except ε α} (hok : ∀ a, f s = .ok a → Q a s)
    (herr : ∀ e, f s = .error e → E e s) : Goes (Prog.read wrap f) s Q E := by
  refine .call (fun a s' h => ?_) fun e s' h => ?_
  · obtain ⟨hf, rfl⟩ := Prod.mk.inj h
    exact hok a hf
  · obtain ⟨hf, rfl⟩ := Prod.mk.inj h
    exact herr e hf

theorem Goes.attempt {m : Prog σ φ ε α} {Q' : Except ε α → σ → Prop} (hm : Goes m s Q E)
    (hok : ∀ a s', Q a s' → Q' (.ok a) s') (herr : ∀ e s', E e s' → Q' (.error e) s') :
    Goes (Prog.attempt m) s Q' E' := by
  rcases hm with ⟨a, s', hr, h⟩ | ⟨e, s', hr, h⟩
  · exact .inl ⟨.ok a, s', by rw [Prog.attempt, hr], hok a s' h⟩
  · exact .inl ⟨.error e, s', by rw [Prog.attempt, hr], herr e s' h⟩

/-- A retried program whose errors are not retryable runs once. -/
theorem Goes.retry {retryable : ε → Bool} {m : Prog σ φ ε α} (hm : Goes m s Q E)
    (hE : ∀ e s', E e s' → retryable e = false) (n : Nat) : Goes (Prog.retry retryable m n) s Q E := by
  rcases hm with ⟨a, s', hr, h⟩ | ⟨e, s', hr, h⟩
  · exact .inl ⟨a, s', run_retry_ok hr n, h⟩
  · exact .inr ⟨e, s', run_retry_err hr (hE e s' h) n, h⟩

/-- What is known of a value that was returned, whatever the faults, is known of it here. -/
theorem Runs.goes {E' : ε → σ → Prop} {m : Prog σ φ ε α} (h : Runs R m s Q E)
    (hgoes : Goes m s (fun _ _ => True) E') : Goes m s Q E' := by
  rcases hgoes with ⟨a, s', hr, -⟩ | ⟨e, s', hr, he⟩
  · exact .inl ⟨a, s', hr, (h.returned hr).2⟩
  · exact .inr ⟨e, s', hr, he⟩

/-- `I` is told what is still to do. -/
theorem Goes.foldEach {f : α → β → Prog σ φ ε α} {I : List β → α → σ → Prop}
    (h : ∀ a b bs s, I (b :: bs) a s → Goes (f a b) s (I bs) E) : ∀ {bs : List β} {a : α} {s : σ},
      I bs a s → Goes (Prog.foldEach f a bs) s (I []) E
  | [], _, _, hs => .pure hs
  | b :: bs, a, s, hs => (h a b bs s hs).bind fun _ _ hs' => Goes.foldEach h hs'

/-- Runs that only compute are a fold. -/
theorem Goes.foldEach_foldl {f : α → β → Prog σ φ ε α} {g : α → β → α}
    (h : ∀ a b, Goes (f a b) s (fun a' s' => a' = g a b ∧ s = s') E) : ∀ (bs : List β) (a : α),
      Goes (Prog.foldEach f a bs) s (fun a' s' => a' = bs.foldl g a ∧ s = s') E
  | [], _ => .pure ⟨rfl, rfl⟩
  | b :: bs, a => (h a b).bind fun _ _ h' => by
      obtain ⟨rfl, rfl⟩ := h'
      exact Goes.foldEach_foldl h bs _

/-- `I` is told what is still to do. -/
theorem Goes.forEach {f : β → Prog σ φ ε Unit} {I : List β → σ → Prop}
    (h : ∀ b bs s, I (b :: bs) s → Goes (f b) s (fun _ => I bs) E) : ∀ {bs : List β} {s : σ},
      I bs s → Goes (Prog.forEach f bs) s (fun _ => I []) E
  | [], _, hs => .pure hs
  | b :: bs, s, hs => (h b bs s hs).bind fun _ _ hs' => Goes.forEach h hs'

end Goes

/-! ### Programs that follow a computation

Where nothing fails, such a program returns exactly if a computation over values does, and gives
up with the same error. -/

/-- From `s`, where no call fails, `m` gives up as `x` does, or returns as `Q` says of what `x`
computes. -/
def Follows {γ : Type} (m : Prog σ φ ε α) (s : σ) (x : Except ε γ) (Q : γ → α → σ → Prop) : Prop :=
  Goes m s (fun a s' => ∃ c, x = .ok c ∧ Q c a s') fun e _ => x = .error e

section Follows

variable {γ δ : Type} {m : Prog σ φ ε α} {x : Except ε γ} {Q : γ → α → σ → Prop}

theorem Follows.mono {Q' : γ → α → σ → Prop} (h : Follows m s x Q)
    (hQ : ∀ c a s', x = .ok c → Q c a s' → Q' c a s') : Follows m s x Q' :=
  Goes.mono h (fun a s' ⟨c, hc, hq⟩ => ⟨c, hc, hQ c a s' hc hq⟩) fun _ _ he => he

theorem Follows.pure {a : α} {c : γ} (h : Q c a s) :
    Follows (Pure.pure a : Prog σ φ ε α) s (Pure.pure c) Q :=
  Goes.pure ⟨c, rfl, h⟩

theorem Follows.bind {k : α → Prog σ φ ε β} {g : γ → Except ε δ} {Q' : δ → β → σ → Prop}
    (hm : Follows m s x Q) (hk : ∀ c a s', x = .ok c → Q c a s' → Follows (k a) s' (g c) Q') :
    Follows (m >>= k) s (x >>= g) Q' := by
  refine Goes.bind (Goes.mono hm (fun _ _ h => h) fun e _ he => ?_) ?_
  · rw [he]
    rfl
  · rintro a s' ⟨c, hc, hq⟩
    have hrest := hk c a s' hc hq
    unfold Follows at hrest
    rw [hc]
    exact hrest

/-- A computation that goes on, to a value, where the program is done. -/
theorem Follows.value {f : γ → δ} {Q : δ → α → σ → Prop}
    (h : Follows m s x fun c a s' => Q (f c) a s') :
    Follows m s (x >>= fun c => Pure.pure (f c)) Q := by
  refine Goes.mono h ?_ fun e s' he => ?_
  · rintro a s' ⟨c, hc, hq⟩
    exact ⟨f c, by rw [hc]; rfl, hq⟩
  · rw [he]
    rfl

/-- A program that starts with what the computation starts with. -/
theorem Follows.lift_bind {y : Except ε β} {k : β → Prog σ φ ε α} {g : β → Except ε γ}
    (h : ∀ b, y = .ok b → Follows (k b) s (g b) Q) : Follows (Prog.lift y >>= k) s (y >>= g) Q := by
  cases y with
  | ok b => exact h b rfl
  | error e => exact .inr ⟨e, s, rfl, rfl⟩

/-- A step of the program that the computation has no part in. -/
theorem Follows.run_step {n : Prog σ φ ε β} {k : β → Prog σ φ ε α} {b : β} {s' : σ}
    (hn : n s [] = (.ok b, s', [])) (h : Follows (k b) s' x Q) : Follows (n >>= k) s x Q := by
  unfold Follows Goes at h ⊢
  rwa [run_bind_ok hn]

/-- The same of a step that may be several. -/
theorem Follows.step {n : Prog σ φ ε β} {k : β → Prog σ φ ε α} {P : β → σ → Prop}
    (hn : Goes n s P fun _ _ => False) (h : ∀ b s', P b s' → Follows (k b) s' x Q) :
    Follows (n >>= k) s x Q := by
  rcases hn with ⟨b, s', hrun, hp⟩ | ⟨_, _, _, hfalse⟩
  · exact .run_step hrun (h b s' hp)
  · exact hfalse.elim

theorem Follows.ite {p : Prop} [Decidable p] {n : Prog σ φ ε α} {y : Except ε γ}
    (hm : p → Follows m s x Q) (hn : ¬p → Follows n s y Q) :
    Follows (if p then m else n) s (if p then x else y) Q := by
  by_cases hp : p
  · rw [if_pos hp, if_pos hp]
    exact hm hp
  · rw [if_neg hp, if_neg hp]
    exact hn hp

/-- What is known of every run that returns is known beside what is computed. -/
theorem Follows.and {R : σ → σ → Prop} {P : α → σ → Prop} {E : ε → σ → Prop}
    (h : Follows m s x Q) (hruns : Runs R m s P E) :
    Follows m s x fun c a s' => Q c a s' ∧ P a s' := by
  rcases h with ⟨a, s', hr, c, hc, hq⟩ | ⟨e, s', hr, he⟩
  · exact .inl ⟨a, s', hr, c, hc, hq, (hruns.returned hr).2⟩
  · exact .inr ⟨e, s', hr, he⟩

/-- A loop whose turns follow a computation, element by element, follows it over the whole list.
`I` is told what is done, and what was computed of it. -/
theorem Follows.foldEach {f : α → β → Prog σ φ ε α} {g : β → Except ε γ}
    {I : List β → List γ → α → σ → Prop} {bs : List β}
    (h : ∀ done b rest cs a s, bs = done ++ b :: rest → I done cs a s →
      Follows (f a b) s (g b) fun c a' s' => I (done ++ [b]) (cs ++ [c]) a' s')
    {a : α} (hs : I [] [] a s) : Follows (Prog.foldEach f a bs) s (bs.mapM g) (I bs) := by
  suffices ∀ rest done cs a s, bs = done ++ rest → I done cs a s →
      Follows (Prog.foldEach f a rest) s (rest.mapM g) fun cs' a' s' => I bs (cs ++ cs') a' s' from
    this bs [] [] a s rfl hs
  intro rest
  induction rest with
  | nil =>
      intro done cs a s hbs hI
      rw [List.append_nil] at hbs
      subst hbs
      exact Follows.pure (by simpa using hI)
  | cons b rest ih =>
      intro done cs a s hbs hI
      rw [List.mapM_cons]
      refine Follows.bind (h done b rest cs a s hbs hI) fun c a' s' _ hI' => ?_
      have hrest := ih (done ++ [b]) (cs ++ [c]) a' s' (by simp [hbs]) hI'
      exact Follows.value (hrest.mono fun cs' a'' s'' _ hI'' => by simpa using hI'')

/-- The same for a loop that threads no value. -/
theorem Follows.forEach {f : β → Prog σ φ ε Unit} {g : β → Except ε γ}
    {I : List β → List γ → σ → Prop} {bs : List β}
    (h : ∀ done b rest cs s, bs = done ++ b :: rest → I done cs s →
      Follows (f b) s (g b) fun c _ s' => I (done ++ [b]) (cs ++ [c]) s')
    (hs : I [] [] s) : Follows (Prog.forEach f bs) s (bs.mapM g) fun cs _ s' => I bs cs s' := by
  have hfold : ∀ bs : List β, Prog.forEach f bs = Prog.foldEach (fun _ b => f b) () bs := by
    intro bs
    induction bs with
    | nil => rfl
    | cons b bs ih => exact congrArg (f b >>= ·) (funext fun _ => ih)
  rw [hfold]
  exact Follows.foldEach (I := fun done cs _ s => I done cs s)
    (fun done b rest cs _ s hbs hI => h done b rest cs s hbs hI) hs

end Follows

/-! ### Programs that give up at the first failure

Such a program attempts and retries nothing, so a run of it that returns has met no fault. -/

/-- A run that returns is the run in which nothing fails. -/
def Strict (m : Prog σ φ ε α) : Prop :=
  ∀ s fs a s' fs', m s fs = (.ok a, s', fs') → m s [] = (.ok a, s', [])

section Strict

theorem Strict.pure (a : α) : Strict (Pure.pure a : Prog σ φ ε α) := by
  intro s fs a' s' fs' h
  obtain ⟨ha, h⟩ := Prod.mk.inj h
  obtain ⟨rfl, -⟩ := Prod.mk.inj h
  rw [← ha]
  rfl

theorem Strict.fail (e : ε) : Strict (Prog.fail e : Prog σ φ ε α) := by
  intro s fs a s' fs' h
  exact absurd (Prod.mk.inj h).1 (by simp)

theorem Strict.lift (x : Except ε α) : Strict (Prog.lift x : Prog σ φ ε α) := by
  cases x with
  | ok a => exact .pure a
  | error e => exact .fail e

theorem Strict.call {wrap : φ → ε} {f : σ → Except ε α × σ} : Strict (Prog.call wrap f) := by
  intro s fs a s' fs' h
  rw [run_call] at h
  split at h
  · rw [run_call_nil]
    rcases hf : f s with ⟨e | b, t⟩ <;> rw [hf] at h
    · exact absurd (Prod.mk.inj h).1 (by simp)
    · obtain ⟨hb, h⟩ := Prod.mk.inj h
      rw [← Outcome.ok.inj hb, (Prod.mk.inj h).1]
  · exact absurd (Prod.mk.inj h).1 (by simp)
  · exact absurd (Prod.mk.inj h).1 (by simp)

theorem Strict.read {wrap : φ → ε} {f : σ → Except ε α} : Strict (Prog.read wrap f) := .call

theorem Strict.bind {m : Prog σ φ ε α} {k : α → Prog σ φ ε β} (hm : Strict m)
    (hk : ∀ a, Strict (k a)) : Strict (m >>= k) := by
  intro s fs b s' fs' h
  obtain ⟨a, t, fs'', hr, h⟩ := run_bind_eq_ok h
  rw [run_bind_ok (hm s fs a t fs'' hr)]
  exact hk a t fs'' b s' fs' h

theorem Strict.foldEach {f : α → β → Prog σ φ ε α} (h : ∀ a b, Strict (f a b)) :
    ∀ (bs : List β) (a : α), Strict (Prog.foldEach f a bs)
  | [], a => .pure a
  | b :: bs, a => (h a b).bind fun a' => Strict.foldEach h bs a'

theorem Strict.forEach {f : β → Prog σ φ ε Unit} (h : ∀ b, Strict (f b)) :
    ∀ bs : List β, Strict (Prog.forEach f bs)
  | [] => .pure ()
  | b :: bs => (h b).bind fun _ => Strict.forEach h bs

/-- What is known of the run in which nothing fails is known of every run that returns. -/
theorem Strict.returned {m : Prog σ φ ε α} (hm : Strict m) (h : Goes m s Q E) {a : α} {s' : σ}
    {fs fs' : List (Fault φ)} (hr : m s fs = (.ok a, s', fs')) : Q a s' := by
  have hnil := hm s fs a s' fs' hr
  rcases h with ⟨b, t, hgoes, hq⟩ | ⟨e, t, hgoes, -⟩ <;> rw [hgoes] at hnil
  · obtain ⟨hb, ht⟩ := Prod.mk.inj hnil
    obtain rfl := Outcome.ok.inj hb
    obtain rfl := (Prod.mk.inj ht).1
    exact hq
  · exact absurd (Prod.mk.inj hnil).1 (by simp)

/-- The same of a program that follows a computation. -/
theorem Strict.followed {γ : Type} {m : Prog σ φ ε α} (hm : Strict m) {x : Except ε γ}
    {Q : γ → α → σ → Prop} (h : Follows m s x Q) {a : α} {s' : σ} {fs fs' : List (Fault φ)}
    (hr : m s fs = (.ok a, s', fs')) : ∃ c, x = .ok c ∧ Q c a s' :=
  hm.returned h hr

end Strict

/-! ### Two presentations of one state

Where a state can be stored in several ways, `f` says what a stored state stands for. A
program that only asks what the state stands for does the same over either. -/

section Commutes

variable {f : σ → τ}

/-- `n` does over `f s` what `m` does over `s`, whatever the faults. -/
def Commutes (f : σ → τ) (m : Prog σ φ ε α) (n : Prog τ φ ε α) : Prop :=
  ∀ s fs, n (f s) fs = ((m s fs).1, f (m s fs).2.1, (m s fs).2.2)

theorem Commutes.pure (a : α) : Commutes f (Pure.pure a : Prog σ φ ε α) (Pure.pure a) :=
  fun _ _ => rfl

theorem Commutes.fail (e : ε) : Commutes f (Prog.fail e : Prog σ φ ε α) (Prog.fail e) :=
  fun _ _ => rfl

theorem Commutes.abort : Commutes f (Prog.abort : Prog σ φ ε α) Prog.abort := fun _ _ => rfl

theorem Commutes.lift (x : Except ε α) : Commutes f (Prog.lift x : Prog σ φ ε α) (Prog.lift x) := by
  cases x with
  | ok a => exact .pure a
  | error e => exact .fail e

theorem Commutes.bind {m : Prog σ φ ε α} {n : Prog τ φ ε α} {k : α → Prog σ φ ε β}
    {l : α → Prog τ φ ε β} (hm : Commutes f m n) (hk : ∀ a, Commutes f (k a) (l a)) :
    Commutes f (m >>= k) (n >>= l) := by
  intro s fs
  rw [run_bind, run_bind, hm s fs]
  rcases m s fs with ⟨a | e | -, s', fs'⟩
  · exact hk a s' fs'
  · rfl
  · rfl

/-- A call on the presentation, and the call on what is presented. -/
theorem Commutes.call {wrap : φ → ε} {g : σ → Except ε α × σ} {h : τ → Except ε α × τ}
    (hgh : ∀ s, h (f s) = ((g s).1, f (g s).2)) :
    Commutes f (Prog.call wrap g) (Prog.call wrap h) := by
  intro s fs
  have hgo : ∀ fs' : List (Fault φ), (match h (f s) with
      | (.ok a, s') => (Outcome.ok a, s', fs')
      | (.error e, s') => (.err e, s', fs')) = ((match g s with
      | (.ok a, s') => (Outcome.ok a, s', fs')
      | (.error e, s') => (.err e, s', fs')).1, f (match g s with
      | (.ok a, s') => (Outcome.ok a, s', fs')
      | (.error e, s') => (.err e, s', fs')).2.1, (match g s with
      | (.ok a, s') => (Outcome.ok a, s', fs')
      | (.error e, s') => (.err e, s', fs')).2.2) := by
    intro fs'
    rw [hgh s]
    rcases g s with ⟨e | a, s'⟩
    · rfl
    · rfl
  cases fs with
  | nil => exact hgo []
  | cons x fs =>
      cases x with
      | none => exact hgo fs
      | fails x => rfl
      | kill => rfl

theorem Commutes.read {wrap : φ → ε} {g : σ → Except ε α} {h : τ → Except ε α}
    (hgh : ∀ s, h (f s) = g s) : Commutes f (Prog.read wrap g) (Prog.read wrap h) :=
  .call fun s => by rw [hgh s]

end Commutes

/-! ### Parts of the state -/

/-- A program over a part makes the part's steps, as the whole sees them. -/
theorem Runs.zoom {get : σ → τ} {set : τ → σ → σ} {m : Prog τ φ ε α} {U : τ → τ → Prop}
    {P : α → τ → Prop} {F : ε → τ → Prop} (hm : Runs U m (get s) P F)
    (hstep : ∀ t, ReflTransGen U (get s) t → ReflTransGen R s (set t s))
    (hQ : ∀ a t, P a t → Q a (set t s)) (hE : ∀ e t, F e t → E e (set t s)) :
    Runs R (Prog.zoom get set m) s Q E := by
  intro fs
  have h := hm fs
  unfold Prog.zoom
  rcases hr : m (get s) fs with ⟨a | e | -, t, fs'⟩ <;> rw [hr] at h
  · exact ⟨hstep t h.1, hQ a t h.2⟩
  · exact ⟨hstep t h.1, hE e t h.2⟩
  · exact hstep t h

theorem Runs.withValue {t : τ} {m : Prog (τ × σ) φ ε α} {U : τ × σ → τ × σ → Prop}
    {Q : τ → σ → Prop} {P : α → τ × σ → Prop} {F : ε → τ × σ → Prop}
    (hm : Runs U m (t, s) P F)
    (hstep : ∀ x, ReflTransGen U (t, s) x → ReflTransGen R s x.2)
    (hQ : ∀ a x, P a x → Q x.1 x.2) (hE : ∀ e x, F e x → E e x.2) :
    Runs R (Prog.withValue t m) s Q E := by
  intro fs
  have h := hm fs
  unfold Prog.withValue
  rcases hr : m (t, s) fs with ⟨a | e | -, x, fs'⟩ <;> rw [hr] at h
  · exact ⟨hstep x h.1, hQ a x h.2⟩
  · exact ⟨hstep x h.1, hE e x h.2⟩
  · exact hstep x h

theorem Goes.zoom {get : σ → τ} {set : τ → σ → σ} {m : Prog τ φ ε α} {P : α → τ → Prop}
    {F : ε → τ → Prop} (hm : Goes m (get s) P F) (hQ : ∀ a t, P a t → Q a (set t s))
    (hE : ∀ e t, F e t → E e (set t s)) : Goes (Prog.zoom get set m) s Q E := by
  rcases hm with ⟨a, t, hr, h⟩ | ⟨e, t, hr, h⟩
  · exact .inl ⟨a, set t s, by rw [Prog.zoom, hr], hQ a t h⟩
  · exact .inr ⟨e, set t s, by rw [Prog.zoom, hr], hE e t h⟩

theorem Ends.zoom {get : σ → τ} {set : τ → σ → σ} {m : Prog τ φ ε α}
    {P : Outcome ε α → τ → Prop} {P' : Outcome ε α → σ → Prop} (hm : Ends m (get s) P)
    (h : ∀ r t, P r t → P' r (set t s)) : Ends (Prog.zoom get set m) s P' :=
  fun fs => h _ _ (hm fs)

theorem Ends.withValue {t : τ} {m : Prog (τ × σ) φ ε α} {P : Outcome ε α → τ × σ → Prop}
    {P' : Outcome ε τ → σ → Prop} (hm : Ends m (t, s) P) (hok : ∀ a x, P (.ok a) x → P' (.ok x.1) x.2)
    (herr : ∀ e x, P (.err e) x → P' (.err e) x.2) (hkill : ∀ x, P .killed x → P' .killed x.2) :
    Ends (Prog.withValue t m) s P' := by
  intro fs
  have h := hm fs
  unfold Prog.withValue
  rcases hr : m (t, s) fs with ⟨a | e | -, x, fs'⟩ <;> rw [hr] at h
  · exact hok a x h
  · exact herr e x h
  · exact hkill x h

/-- A loop over a list keeps what each turn keeps of its element and of the rest. -/
theorem Keeps.onEach {m : Prog (τ × σ) φ ε Unit} {I : τ → Prop} {J : σ → Prop}
    (hm : ∀ t s, I t → J s → Keeps m (t, s) fun x => I x.1 ∧ J x.2) (ts : List τ) (s : σ)
    (hts : ∀ t ∈ ts, I t) (hs : J s) :
    Keeps (Prog.onEach m) (ts, s) fun x => (∀ t ∈ x.1, I t) ∧ J x.2 ∧ x.1.length = ts.length := by
  intro fs
  show (∀ t ∈ (onEach.go m ts s fs).2.1.1, I t) ∧ J (onEach.go m ts s fs).2.1.2 ∧
    (onEach.go m ts s fs).2.1.1.length = ts.length
  induction ts generalizing s fs with
  | nil => exact ⟨hts, hs, rfl⟩
  | cons t ts ih =>
      obtain ⟨ht, hrest⟩ := List.forall_mem_cons.mp hts
      have h := hm t s ht hs fs
      unfold onEach.go
      rcases hr : m (t, s) fs with ⟨a | e | -, x, fs'⟩ <;> rw [hr] at h
      · have hgo := ih x.2 hrest h.2 fs'
        dsimp only
        rcases hgo' : onEach.go m ts x.2 fs' with ⟨r, y, fs''⟩
        rw [hgo'] at hgo
        exact ⟨List.forall_mem_cons.mpr ⟨h.1, hgo.1⟩, hgo.2.1, congrArg Nat.succ hgo.2.2⟩
      · exact ⟨List.forall_mem_cons.mpr ⟨h.1, hrest⟩, h.2, rfl⟩
      · exact ⟨List.forall_mem_cons.mpr ⟨h.1, hrest⟩, h.2, rfl⟩

/-- What a turn did to each element of a list, and to the state from turn to turn. -/
inductive Each (D : τ → σ → τ → σ → Prop) : List τ → σ → List τ → σ → Prop where
  | nil {s : σ} : Each D [] s [] s
  | cons {t t' : τ} {ts ts' : List τ} {s s' s'' : σ} : D t s t' s' → Each D ts s' ts' s'' →
      Each D (t :: ts) s (t' :: ts') s''

/-- A loop over a list that gives up has run its turns before one element, and given up in
the turn of that one. -/
structure GaveUp (D : τ → σ → τ → σ → Prop) (F : τ → σ → τ → σ → Prop) (ts : List τ) (s : σ)
    (ts' : List τ) (s' : σ) : Prop where
  split : ∃ before t after before' t' s₁, ts = before ++ t :: after ∧
    Each D before s before' s₁ ∧ F t s₁ t' s' ∧ ts' = before' ++ t' :: after

theorem Runs.onEach {m : Prog (τ × σ) φ ε Unit} {U : τ × σ → τ × σ → Prop}
    {R : List τ × σ → List τ × σ → Prop} {D : τ → σ → τ → σ → Prop}
    {F : ε → τ → σ → τ → σ → Prop}
    (hm : ∀ t s, Runs U m (t, s) (fun _ x => D t s x.1 x.2) fun e x => F e t s x.1 x.2)
    (hstep : ∀ before t after s x, ReflTransGen U (t, s) x →
      ReflTransGen R (before ++ t :: after, s) (before ++ x.1 :: after, x.2))
    (ts : List τ) (s : σ) : Runs R (Prog.onEach m) (ts, s)
      (fun _ x => Each D ts s x.1 x.2) fun e x => GaveUp D (F e) ts s x.1 x.2 := by
  -- the turns already made are carried along in front, so that each step is one of the whole
  suffices ∀ (ts before : List τ) (s : σ) (fs : List (Fault φ)),
      match onEach.go m ts s fs with
      | (.ok _, x, _) => ReflTransGen R (before ++ ts, s) (before ++ x.1, x.2) ∧
          Each D ts s x.1 x.2
      | (.err e, x, _) => ReflTransGen R (before ++ ts, s) (before ++ x.1, x.2) ∧
          GaveUp D (F e) ts s x.1 x.2
      | (.killed, x, _) => ReflTransGen R (before ++ ts, s) (before ++ x.1, x.2) by
    intro fs
    have h := this ts [] s fs
    show Meets R _ _ _ (onEach.go m ts s fs)
    rcases hr : onEach.go m ts s fs with ⟨a | e | -, x, fs'⟩ <;> rw [hr] at h <;> exact h
  intro ts
  induction ts with
  | nil => exact fun before s fs => ⟨.refl, .nil⟩
  | cons t ts ih =>
      intro before s fs
      have h := hm t s fs
      unfold onEach.go
      rcases hr : m (t, s) fs with ⟨a | e | -, x, fs'⟩ <;> rw [hr] at h
      · have hfirst := hstep before t ts s x h.1
        have hrest := ih (before ++ [x.1]) x.2 fs'
        dsimp only
        rcases hgo : onEach.go m ts x.2 fs' with ⟨a | e | -, y, fs''⟩ <;> rw [hgo] at hrest <;>
          simp only [List.append_assoc, List.singleton_append] at hrest
        · exact ⟨hfirst.trans hrest.1, .cons h.2 hrest.2⟩
        · obtain ⟨front, t₁, after, front', t₁', s₁, rfl, heach, hf, hy⟩ := hrest.2.split
          exact ⟨hfirst.trans hrest.1, ⟨t :: front, t₁, after, x.1 :: front', t₁', s₁, rfl,
            .cons h.2 heach, hf, by rw [hy]; rfl⟩⟩
        · exact hfirst.trans hrest
      · exact ⟨hstep before t ts s x h.1, ⟨[], t, ts, [], x.1, s, rfl, .nil, h.2, rfl⟩⟩
      · exact hstep before t ts s x h

end Prog
