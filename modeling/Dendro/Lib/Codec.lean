import Mathlib.Tactic.Ring
import Mathlib.Data.List.Basic

/-!
# Byte encoders and decoders that agree

An **encoder** (`Put`) appends to a buffer and may give up half way; what it wrote
before giving up stays in the buffer. A **decoder** (`Get`) consumes the front of a byte
string or fails.

`RoundTrips put get v` is the one notion every layer above uses: whenever `put`
succeeds, what it appended is read back by `get` as exactly `v`, and `get` stops exactly
where `put` stopped. It is closed under sequencing and under counted repetition, so a
codec is proved by following its two programs side by side.
-/

/-- A byte string. -/
abbrev Bytes := List UInt8

namespace Codec

/-! ## Little-endian words -/

/-- The `w` low bytes of `n`, least significant first. -/
def leBytes : Nat → Nat → Bytes
  | 0, _ => []
  | w + 1, n => UInt8.ofNat n :: leBytes w (n / 256)

/-- The number a little-endian byte string denotes. -/
def ofLeBytes : Bytes → Nat
  | [] => 0
  | b :: bs => b.toNat + 256 * ofLeBytes bs

@[simp] theorem length_leBytes (w n : Nat) : (leBytes w n).length = w := by
  induction w generalizing n with
  | zero => rfl
  | succ w ih => simp [leBytes, ih]

theorem ofLeBytes_leBytes (w n : Nat) : ofLeBytes (leBytes w n) = n % 256 ^ w := by
  induction w generalizing n with
  | zero => simp [leBytes, ofLeBytes, Nat.mod_one]
  | succ w ih =>
      have hb : (UInt8.ofNat n).toNat = n % 256 := by simp
      rw [leBytes, ofLeBytes, ih, hb, Nat.pow_succ', Nat.mod_mul]

/-- A word that fits its width is read back unchanged. -/
theorem ofLeBytes_leBytes_of_lt {w n : Nat} (h : n < 256 ^ w) :
    ofLeBytes (leBytes w n) = n := by
  rw [ofLeBytes_leBytes, Nat.mod_eq_of_lt h]

theorem ofLeBytes_lt : ∀ bs : Bytes, ofLeBytes bs < 256 ^ bs.length
  | [] => by decide
  | b :: bs => by
      have ih := ofLeBytes_lt bs
      have hb : b.toNat < 256 := b.toNat_lt
      rw [ofLeBytes, List.length_cons, Nat.pow_succ']
      omega

/-- Bytes are the word they denote, in their width. -/
theorem leBytes_ofLeBytes : ∀ bs : Bytes, leBytes bs.length (ofLeBytes bs) = bs
  | [] => rfl
  | b :: bs => by
      have hb : b.toNat < 256 := b.toNat_lt
      have hlow : UInt8.ofNat (b.toNat + 256 * ofLeBytes bs) = b := by
        apply UInt8.toNat.inj
        rw [UInt8.toNat_ofNat']
        omega
      have hhigh : (b.toNat + 256 * ofLeBytes bs) / 256 = ofLeBytes bs := by omega
      rw [List.length_cons, ofLeBytes, leBytes, hlow, hhigh, leBytes_ofLeBytes bs]

/-! ## Encoders -/

/-- An encoder appends to a buffer and may fail, leaving what it wrote. -/
abbrev Put (ε : Type) (α : Type) := ExceptT ε (StateM Bytes) α

variable {ε α β : Type}

/-- Run an encoder on the buffer `out`. -/
def Put.on (p : Put ε α) (out : Bytes) : Except ε α × Bytes := p out

/-- Append `bs`. -/
def Put.extend (bs : Bytes) : Put ε Unit := modify (· ++ bs)

@[simp] theorem Put.on_pure (a : α) (out : Bytes) :
    Put.on (pure a : Put ε α) out = (.ok a, out) := rfl

@[simp] theorem Put.on_extend (bs out : Bytes) :
    Put.on (Put.extend bs : Put ε Unit) out = (.ok (), out ++ bs) := rfl

@[simp] theorem Put.on_throw (e : ε) (out : Bytes) :
    Put.on (throw e : Put ε α) out = (.error e, out) := rfl

@[simp] theorem Put.on_get (out : Bytes) :
    Put.on (get : Put ε Bytes) out = (.ok out, out) := rfl

@[simp] theorem Put.on_modify (f : Bytes → Bytes) (out : Bytes) :
    Put.on (modify f : Put ε Unit) out = (.ok (), f out) := rfl

/-- Sequencing: the second encoder runs on the buffer the first one left. -/
theorem Put.on_bind (p : Put ε α) (q : α → Put ε β) (out : Bytes) :
    Put.on (p >>= q) out =
      match Put.on p out with
      | (.ok a, mid) => Put.on (q a) mid
      | (.error e, mid) => (.error e, mid) := by
  change (p >>= q) out = _
  simp only [Put.on, bind, ExceptT.bind, ExceptT.mk, StateT.bind, ExceptT.bindCont]
  rcases p out with ⟨_ | _, _⟩ <;> rfl

/-- A sequence succeeds exactly when both of its parts do. -/
theorem Put.on_bind_eq_ok {p : Put ε α} {q : α → Put ε β} {out out' : Bytes} {b : β} :
    Put.on (p >>= q) out = (.ok b, out') ↔
      ∃ a mid, Put.on p out = (.ok a, mid) ∧ Put.on (q a) mid = (.ok b, out') := by
  rw [Put.on_bind]
  constructor
  · intro h
    rcases hp : Put.on p out with ⟨_ | a, mid⟩
    · simp [hp] at h
    · exact ⟨a, mid, rfl, by simpa [hp] using h⟩
  · rintro ⟨a, mid, hp, hq⟩
    simp [hp, hq]

/-! ## Decoders -/

/-- A decoder consumes the front of a byte string. -/
abbrev Get (ε : Type) (α : Type) := StateT Bytes (Except ε) α

/-- Run a decoder on the unread bytes `bs`. -/
def Get.on (g : Get ε α) (bs : Bytes) : Except ε (α × Bytes) := g bs

/-- The next `n` bytes; `short n left` is the error when only `left` remain. -/
def Get.take (short : Nat → Nat → ε) (n : Nat) : Get ε Bytes := fun bs =>
  if n > bs.length then .error (short n bs.length) else .ok (bs.take n, bs.drop n)

/-- `n` reads in a row. -/
def Get.times (g : Get ε α) : Nat → Get ε (List α)
  | 0 => return []
  | n + 1 => do
      let a ← g
      let as ← Get.times g n
      return a :: as

@[simp] theorem Get.on_pure (a : α) (bs : Bytes) :
    Get.on (pure a : Get ε α) bs = .ok (a, bs) := rfl

@[simp] theorem Get.on_throw (e : ε) (bs : Bytes) :
    Get.on (throw e : Get ε α) bs = .error e := rfl

theorem Get.on_bind (g : Get ε α) (k : α → Get ε β) (bs : Bytes) :
    Get.on (g >>= k) bs = (Get.on g bs).bind fun (a, rest) => Get.on (k a) rest := rfl

theorem Get.on_take (short : Nat → Nat → ε) (n : Nat) (bs : Bytes) :
    Get.on (Get.take short n) bs =
      if n > bs.length then .error (short n bs.length) else .ok (bs.take n, bs.drop n) := rfl

/-- A sequence of reads succeeds exactly when both of its parts do. -/
theorem Get.on_bind_eq_ok {g : Get ε α} {k : α → Get ε β} {bs rest : Bytes} {b : β} :
    Get.on (g >>= k) bs = .ok (b, rest) ↔
      ∃ a mid, Get.on g bs = .ok (a, mid) ∧ Get.on (k a) mid = .ok (b, rest) := by
  rw [Get.on_bind]
  constructor
  · intro h
    rcases hg : Get.on g bs with _ | ⟨a, mid⟩
    · simp [hg, Except.bind] at h
    · exact ⟨a, mid, rfl, by simpa [hg, Except.bind] using h⟩
  · rintro ⟨a, mid, hg, hk⟩
    simp [hg, Except.bind, hk]

/-! ## What one decoder reads of one byte string -/

/-- `get` reads `enc` as `v` and leaves whatever follows. -/
def Reads (g : Get ε α) (enc : Bytes) (v : α) : Prop :=
  ∀ rest, Get.on g (enc ++ rest) = .ok (v, rest)

theorem Reads.pure (a : α) : Reads (Pure.pure a : Get ε α) [] a := fun _ => rfl

theorem Reads.bind {g : Get ε α} {k : α → Get ε β} {e₁ e₂ : Bytes} {a : α} {b : β}
    (hg : Reads g e₁ a) (hk : Reads (k a) e₂ b) : Reads (g >>= k) (e₁ ++ e₂) b := by
  intro rest
  rw [Get.on_bind_eq_ok]
  exact ⟨a, e₂ ++ rest, by rw [List.append_assoc]; exact hg _, hk rest⟩

theorem Reads.take (short : Nat → Nat → ε) (enc : Bytes) :
    Reads (Get.take short enc.length) enc enc := by
  intro rest
  rw [Get.on_take, if_neg (by simp)]
  simp

/-! ## Encoder and decoder side by side -/

/--
**Whatever `put` appends when it succeeds, `get` reads back as `v`**, on every buffer
and in front of every continuation.
-/
def RoundTrips (p : Put ε Unit) (g : Get ε α) (v : α) : Prop :=
  ∀ out out', Put.on p out = (.ok (), out') → ∃ enc, out' = out ++ enc ∧ Reads g enc v

theorem RoundTrips.pure (a : α) : RoundTrips (Pure.pure () : Put ε Unit) (Pure.pure a) a := by
  intro out out' h
  obtain rfl : out = out' := by simpa using h
  exact ⟨[], by simp, Reads.pure a⟩

/-- Codecs compose: write one then the other, read one then the other. -/
theorem RoundTrips.bind {p : Put ε Unit} {q : Unit → Put ε Unit} {g : Get ε α}
    {k : α → Get ε β} {a : α} {b : β} (hp : RoundTrips p g a)
    (hq : RoundTrips (q ()) (k a) b) : RoundTrips (p >>= q) (g >>= k) b := by
  intro out out' h
  obtain ⟨u, mid, h₁, h₂⟩ := Put.on_bind_eq_ok.mp h
  obtain ⟨e₁, rfl, hr₁⟩ := hp out mid h₁
  obtain ⟨e₂, rfl, hr₂⟩ := hq _ out' h₂
  exact ⟨e₁ ++ e₂, by rw [List.append_assoc], hr₁.bind hr₂⟩

/-- The last read of a decoder, followed by work on what was read. -/
theorem RoundTrips.andThen {p : Put ε Unit} {g : Get ε α} {k : α → Get ε β} {a : α} {b : β}
    (hp : RoundTrips p g a) (hk : Reads (k a) [] b) : RoundTrips p (g >>= k) b := by
  intro out out' h
  obtain ⟨enc, rfl, hr⟩ := hp out out' h
  refine ⟨enc, rfl, ?_⟩
  have := hr.bind hk
  rwa [List.append_nil] at this

/-- The last read of a decoder, put into a constructor. -/
theorem RoundTrips.map {p : Put ε Unit} {g : Get ε α} {a : α} (f : α → β)
    (hp : RoundTrips p g a) : RoundTrips p (g >>= fun x => Pure.pure (f x)) (f a) :=
  hp.andThen (Reads.pure (f a))

/-- Fixed bytes, read by anything that reads those bytes. -/
theorem RoundTrips.extend {g : Get ε α} {enc : Bytes} {a : α} (h : Reads g enc a) :
    RoundTrips (Put.extend enc) g a := by
  intro out out' ho
  obtain rfl : out ++ enc = out' := by simpa using ho
  exact ⟨enc, rfl, h⟩

/-- A counted list: one write per element, as many reads as there were elements. -/
theorem RoundTrips.forM {p : β → Put ε Unit} {g : Get ε α} {v : β → α} {xs : List β}
    (h : ∀ x ∈ xs, RoundTrips (p x) g (v x)) :
    RoundTrips (xs.forM p) (Get.times g xs.length) (xs.map v) := by
  induction xs with
  | nil => exact RoundTrips.pure []
  | cons x xs ih =>
      refine RoundTrips.bind (h x (by simp)) ?_
      exact RoundTrips.map (v x :: ·) (ih fun y hy => h y (by simp [hy]))

/-! ## Decoders that look no further than they read -/

/-- More bytes behind what a decoder reads change nothing. -/
def Get.Local (g : Get ε α) : Prop :=
  ∀ bs v rest more, Get.on g bs = .ok (v, rest) → Get.on g (bs ++ more) = .ok (v, rest ++ more)

theorem Get.Local.pure (a : α) : Get.Local (Pure.pure a : Get ε α) := by
  intro bs v rest more h
  obtain ⟨rfl, rfl⟩ := Prod.mk.inj (Except.ok.inj h)
  rfl

theorem Get.Local.throw (e : ε) : Get.Local (throw e : Get ε α) := by
  intro bs v rest more h
  simp at h

theorem Get.Local.bind {g : Get ε α} {k : α → Get ε β} (hg : Get.Local g)
    (hk : ∀ a, Get.Local (k a)) : Get.Local (g >>= k) := by
  intro bs v rest more h
  obtain ⟨a, mid, h₁, h₂⟩ := Get.on_bind_eq_ok.mp h
  exact Get.on_bind_eq_ok.mpr ⟨a, mid ++ more, hg bs a mid more h₁, hk a mid v rest more h₂⟩

theorem Get.Local.take (short : Nat → Nat → ε) (n : Nat) : Get.Local (Get.take short n) := by
  intro bs v rest more h
  rw [Get.on_take] at h ⊢
  split at h
  · simp at h
  · rename_i hn
    obtain ⟨rfl, rfl⟩ := Prod.mk.inj (Except.ok.inj h)
    have hlen : n ≤ bs.length := Nat.not_lt.mp hn
    have hmore : ¬ n > (bs ++ more).length := by
      rw [List.length_append]
      omega
    rw [if_neg hmore, List.take_append_of_le_length hlen, List.drop_append_of_le_length hlen]

theorem Get.Local.times {g : Get ε α} (hg : Get.Local g) : ∀ n, Get.Local (Get.times g n)
  | 0 => .pure []
  | n + 1 => hg.bind fun _ => (Get.Local.times hg n).bind fun _ => .pure _

/-- **A decoder that reads all of a byte string does not read all of a shorter one.** -/
theorem Reads.proper_prefix {g : Get ε α} {enc cut : Bytes} {v w : α} (h : Reads g enc v)
    (hlocal : Get.Local g) (hcut : cut <+: enc) (hg : Get.on g cut = .ok (w, [])) : cut = enc := by
  obtain ⟨more, rfl⟩ := hcut
  have hall : Get.on g (cut ++ more) = .ok (v, []) := by simpa using h []
  have hfront : Get.on g (cut ++ more) = .ok (w, more) := hlocal cut w [] more hg
  rw [hfront] at hall
  rw [(Prod.mk.inj (Except.ok.inj hall)).2, List.append_nil]

/-! ## Encoders that write what was read -/

/-- `p` writes what stands at the front of `bs`, before `rest`. -/
def Put.Spells (p : Put ε Unit) (bs rest : Bytes) : Prop :=
  ∃ enc, bs = enc ++ rest ∧ ∀ out, Put.on p out = (.ok (), out ++ enc)

theorem Put.Spells.pure (bs : Bytes) : Put.Spells (Pure.pure () : Put ε Unit) bs bs :=
  ⟨[], rfl, fun out => by simp⟩

theorem Put.Spells.extend (enc rest : Bytes) :
    Put.Spells (Put.extend enc : Put ε Unit) (enc ++ rest) rest :=
  ⟨enc, rfl, fun _ => rfl⟩

theorem Put.Spells.bind {p : Put ε Unit} {q : Unit → Put ε Unit} {bs mid rest : Bytes}
    (hp : Put.Spells p bs mid) (hq : Put.Spells (q ()) mid rest) :
    Put.Spells (p >>= q) bs rest := by
  obtain ⟨e₁, rfl, h₁⟩ := hp
  obtain ⟨e₂, rfl, h₂⟩ := hq
  refine ⟨e₁ ++ e₂, (List.append_assoc _ _ _).symm, fun out => ?_⟩
  rw [← List.append_assoc]
  exact Put.on_bind_eq_ok.mpr ⟨(), out ++ e₁, h₁ out, h₂ _⟩

/-- A counted list that was read is written as it stood. -/
theorem Put.Spells.forM {p : α → Put ε Unit} {g : Get ε α}
    (h : ∀ bs v rest, Get.on g bs = .ok (v, rest) → Put.Spells (p v) bs rest) :
    ∀ {n : Nat} {bs rest : Bytes} {vs : List α}, Get.on (Get.times g n) bs = .ok (vs, rest) →
      vs.length = n ∧ Put.Spells (vs.forM p) bs rest
  | 0, bs, rest, vs, hg => by
      obtain ⟨rfl, rfl⟩ := Prod.mk.inj (Except.ok.inj hg)
      exact ⟨rfl, .pure bs⟩
  | n + 1, bs, rest, vs, hg => by
      obtain ⟨a, mid, ha, hg⟩ := Get.on_bind_eq_ok.mp hg
      obtain ⟨as, mid', has, hg⟩ := Get.on_bind_eq_ok.mp hg
      obtain ⟨rfl, rfl⟩ := Prod.mk.inj (Except.ok.inj hg)
      obtain ⟨hlen, hrest⟩ := Put.Spells.forM h has
      exact ⟨congrArg Nat.succ hlen, (h bs a mid ha).bind hrest⟩

/-! ## Encoders that are refused -/

/-- Whether or not an encoder gives up, the buffer keeps what it held. -/
def Put.Appends (p : Put ε α) : Prop := ∀ out, ∃ enc, (Put.on p out).2 = out ++ enc

theorem Put.Appends.pure (a : α) : Put.Appends (Pure.pure a : Put ε α) :=
  fun out => ⟨[], by simp⟩

theorem Put.Appends.throw (e : ε) : Put.Appends (throw e : Put ε α) := fun out => ⟨[], by simp⟩

theorem Put.Appends.extend (bs : Bytes) : Put.Appends (Put.extend bs : Put ε Unit) :=
  fun _ => ⟨bs, rfl⟩

theorem Put.Appends.bind {p : Put ε α} {q : α → Put ε β} (hp : Put.Appends p)
    (hq : ∀ a, Put.Appends (q a)) : Put.Appends (p >>= q) := by
  intro out
  obtain ⟨e₁, h₁⟩ := hp out
  rw [Put.on_bind]
  rcases hr : Put.on p out with ⟨e | a, mid⟩
  · exact ⟨e₁, by rw [← h₁, hr]⟩
  · obtain ⟨e₂, h₂⟩ := hq a mid
    rw [hr] at h₁
    refine ⟨e₁ ++ e₂, ?_⟩
    dsimp only at h₁ ⊢
    rw [h₂, h₁, List.append_assoc]

theorem Put.Appends.forM {p : α → Put ε Unit} (h : ∀ a, Put.Appends (p a)) :
    ∀ xs : List α, Put.Appends (xs.forM p)
  | [] => .pure ()
  | x :: xs => (h x).bind fun _ => Put.Appends.forM h xs

/-- What `put` writes starts with something that `get` reads as `v`. -/
def Starts (p : Put ε Unit) (g : Get ε α) (v : α) : Prop :=
  ∀ out out', Put.on p out = (.ok (), out') →
    ∃ enc rest, out' = out ++ enc ∧ Get.on g enc = .ok (v, rest)

theorem RoundTrips.starts {p : Put ε Unit} {g : Get ε α} {v : α} (h : RoundTrips p g v) :
    Starts p g v := by
  intro out out' ho
  obtain ⟨enc, hout, hr⟩ := h out out' ho
  exact ⟨enc, [], hout, by simpa using hr []⟩

theorem RoundTrips.bind_starts {p : Put ε Unit} {q : Unit → Put ε Unit} {g : Get ε α}
    {k : α → Get ε β} {a : α} {b : β} (hp : RoundTrips p g a) (hq : Starts (q ()) (k a) b) :
    Starts (p >>= q) (g >>= k) b := by
  intro out out' h
  obtain ⟨_, mid, h₁, h₂⟩ := Put.on_bind_eq_ok.mp h
  obtain ⟨e₁, rfl, hr₁⟩ := hp out mid h₁
  obtain ⟨e₂, rest, rfl, hr₂⟩ := hq _ out' h₂
  exact ⟨e₁ ++ e₂, rest, by rw [List.append_assoc], Get.on_bind_eq_ok.mpr ⟨a, e₂, hr₁ e₂, hr₂⟩⟩

/-- Nothing more is read. -/
theorem Put.Appends.starts {p : Put ε Unit} (h : Put.Appends p) (v : α) :
    Starts p (Pure.pure v : Get ε α) v := by
  intro out out' ho
  obtain ⟨enc, henc⟩ := h out
  rw [ho] at henc
  exact ⟨enc, enc, henc, rfl⟩

/-- An encoder gives up unless `P`. -/
def Put.Needs (p : Put ε Unit) (P : Prop) : Prop :=
  ∀ out, (∃ out', Put.on p out = (.ok (), out')) ↔ P

theorem Put.Needs.extend (bs : Bytes) : Put.Needs (Put.extend bs : Put ε Unit) True :=
  fun out => ⟨fun _ => trivial, fun _ => ⟨out ++ bs, rfl⟩⟩

theorem Put.Needs.bind {p : Put ε Unit} {q : Unit → Put ε Unit} {P Q : Prop}
    (hp : Put.Needs p P) (hq : Put.Needs (q ()) Q) : Put.Needs (p >>= q) (P ∧ Q) := by
  intro out
  constructor
  · rintro ⟨out', h⟩
    obtain ⟨_, mid, h₁, h₂⟩ := Put.on_bind_eq_ok.mp h
    exact ⟨(hp out).mp ⟨mid, h₁⟩, (hq mid).mp ⟨out', h₂⟩⟩
  · rintro ⟨hP, hQ⟩
    obtain ⟨mid, h₁⟩ := (hp out).mpr hP
    obtain ⟨out', h₂⟩ := (hq mid).mpr hQ
    exact ⟨out', Put.on_bind_eq_ok.mpr ⟨(), mid, h₁, h₂⟩⟩

/-- A part that is never refused adds nothing to what is needed. -/
theorem Put.Needs.first {p : Put ε Unit} {q : Unit → Put ε Unit} {Q : Prop}
    (hp : Put.Needs p True) (hq : Put.Needs (q ()) Q) : Put.Needs (p >>= q) Q := by
  have h := hp.bind hq
  rwa [true_and] at h

theorem Put.Needs.last {p : Put ε Unit} {q : Unit → Put ε Unit} {P : Prop}
    (hp : Put.Needs p P) (hq : Put.Needs (q ()) True) : Put.Needs (p >>= q) P := by
  have h := hp.bind hq
  rwa [and_true] at h

theorem Put.Needs.forM {p : α → Put ε Unit} {P : α → Prop} (h : ∀ a, Put.Needs (p a) (P a)) :
    ∀ xs : List α, Put.Needs (xs.forM p) (∀ x ∈ xs, P x)
  | [] => fun out => ⟨fun _ _ hx => absurd hx List.not_mem_nil, fun _ => ⟨out, rfl⟩⟩
  | x :: xs => by
      have hrest := (h x).bind (q := fun _ => xs.forM p) (Put.Needs.forM h xs)
      intro out
      rw [List.forall_mem_cons]
      exact hrest out

end Codec
