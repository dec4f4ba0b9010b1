import Dendro.Lib.Residues
import Dendro.Seal.Stagger
import Mathlib.Tactic.IntervalCases
import Mathlib.Tactic.Ring

/-!
# The checksum of a source's key

What a key does to the low bits of the hash depends on the order of its bytes. Their exclusive or
does not, and all of it but bit 5 is read off what the key does (`checksum_of_sameAction`). Bits
2, 3 and 4 turn the sign of what a family of states with one in each class carries
(`lowAbsorb_carried`); bits 0, 1, 6 and 7 are in what becomes of the states 0, 1 and 2.

So the shortcut's answer is right about two keys whose checksums differ outside bit 5, and about
two keys that differ nowhere outside bit 5 (`staggersIdentically_exact`). It goes wrong among the
others alone; of one length, these differ outside bit 5 in at least two places. A flip of bit 1 in a
digit stays in the state and adds to its high bits twice, after this byte and after the next; the
next digit turns the sign of the first addition, so that the two cancel, and the same flip in the
digit after takes bit 1 back (`staggersIdentically_misses`).
-/

namespace Dendro

open Residues

/-- The exclusive or of a key's bytes. -/
def checksum (bs : Bytes) : UInt8 := bs.foldr (· ^^^ ·) 0

/-- A byte without its bit 5, the case of a letter. -/
def besidesBit5 (b : UInt8) : UInt8 := b &&& 0xdf

theorem checksum_testBit (b : UInt8) (bs : Bytes) (k : Nat) :
    (checksum (b :: bs)).toNat.testBit k =
      xor (b.toNat.testBit k) ((checksum bs).toNat.testBit k) := by
  have hcons : checksum (b :: bs) = b ^^^ checksum bs := rfl
  rw [hcons, UInt8.toNat_xor, Nat.testBit_xor]

/-! ## Bits 2, 3 and 4 -/

/-- The prime is `-1` modulo 4, and what it makes the classes carry is `-1` too. -/
theorem lowMul_carried {k : Nat} (hk : 2 ≤ k) (hk' : k ≤ 4) {g : Fin (2 ^ k) → Nat}
    (h : Spread k g) :
    Spread k (fun r => g r * 51 % 64) ∧
      carried k (fun r => g r * 51 % 64) = -carried k g - 1 := by
  have hcop : Nat.Coprime (2 ^ k) 51 := Nat.Coprime.pow_left k (by decide)
  have hsum : ∑ r : Fin (2 ^ k), ((r * 51 / 2 ^ k : Nat) : ZMod 4) = -1 := by
    interval_cases k <;> decide
  have hprime : ((51 : Nat) : ZMod 4) = -1 := by decide
  have hmod : carried k (fun r => g r * 51 % 64) = carried k (fun r => g r * 51) :=
    carried_mod (w := 6) (by omega)
  refine ⟨(h.mul hcop).mod (w := 6) (by omega), ?_⟩
  rw [hmod, h.carried_mul, hsum, hprime]
  ring

/-- **A byte turns the sign of what the states carry, where its bit `k` is set.** -/
theorem lowAbsorb_carried {k : Nat} (hk : 2 ≤ k) (hk' : k ≤ 4) {g : Fin (2 ^ k) → Nat}
    (h : Spread k g) (b : UInt8) :
    Spread k (fun r => lowAbsorb (g r) b) ∧
      carried k (fun r => lowAbsorb (g r) b) = signed (b.toNat.testBit k) (carried k g) := by
  have hpow : (64 : Nat) = 2 ^ 6 := rfl
  have hlow : (b.toNat % 64).testBit k = b.toNat.testBit k := by
    have hlt : k < 6 := by omega
    rw [hpow, Nat.testBit_mod_two_pow]
    simp [hlt]
  have hhigh : (b.toNat / 64).testBit k = false := by
    have hb : b.toNat < 256 := b.toNat_lt
    have hfour : 2 ^ 2 ≤ 2 ^ k := Nat.pow_le_pow_right (by decide) hk
    exact Nat.testBit_lt_two_pow (by omega)
  obtain ⟨hspread₁, hcarried₁⟩ := lowMul_carried hk hk' (h.xor (b.toNat % 64))
  obtain ⟨hspread₂, hcarried₂⟩ := lowMul_carried hk hk' (hspread₁.xor (b.toNat / 64))
  refine ⟨hspread₂, ?_⟩
  have hfirst := carried_xor (g := g) hk (b.toNat % 64)
  have hsecond := carried_xor (g := fun r => (g r ^^^ b.toNat % 64) * 51 % 64) hk (b.toNat / 64)
  rw [hlow] at hfirst
  rw [hhigh, signed_false] at hsecond
  -- the second multiplication undoes the first, and the two high bits are below bit `k`
  calc carried k (fun r => lowAbsorb (g r) b)
      = -carried k (fun r => (g r ^^^ b.toNat % 64) * 51 % 64 ^^^ b.toNat / 64) - 1 := hcarried₂
    _ = -(-carried k (fun r => g r ^^^ b.toNat % 64) - 1) - 1 := by rw [hsecond, hcarried₁]
    _ = signed (b.toNat.testBit k) (carried k g) := by rw [hfirst]; ring

/-- So does a key, by the bit of its checksum. -/
theorem lowAbsorbBytes_carried {k : Nat} (hk : 2 ≤ k) (hk' : k ≤ 4) :
    ∀ (bs : Bytes) {g : Fin (2 ^ k) → Nat}, Spread k g →
      carried k (fun r => lowAbsorbBytes (g r) bs) =
        signed ((checksum bs).toNat.testBit k) (carried k g)
  | [], g, _ => by
      have hzero : (checksum []).toNat.testBit k = false := Nat.zero_testBit k
      rw [hzero]
      rfl
  | b :: bs, g, h => by
      obtain ⟨hspread, hcarried⟩ := lowAbsorb_carried hk hk' h b
      have ih := lowAbsorbBytes_carried hk hk' bs hspread
      rw [hcarried, signed_signed, Bool.xor_comm, ← checksum_testBit] at ih
      exact ih

/-- One state in each class, and one carry between them. -/
def oneCarry (k : Nat) (r : Fin (2 ^ k)) : Nat := if r.val = 0 then 2 ^ k else r

/-- Keys that act alike have these bits of their checksums in common. -/
theorem checksum_middle {a b : Bytes} (h : ∀ x < 64, lowAbsorbBytes x a = lowAbsorbBytes x b)
    {k : Nat} (hk : 2 ≤ k) (hk' : k ≤ 4) :
    (checksum a).toNat.testBit k = (checksum b).toNat.testBit k := by
  have hspread : Spread k (oneCarry k) := by
    intro r s hrs
    have hclass : ∀ r : Fin (2 ^ k), oneCarry k r % 2 ^ k = r := fun r => by
      unfold oneCarry
      split
      · rename_i hr
        rw [Nat.mod_self, hr]
      · exact Nat.mod_eq_of_lt r.isLt
    exact Fin.ext ((hclass r).symm.trans (hrs.trans (hclass s)))
  have hone : carried k (oneCarry k) = 1 := by
    interval_cases k <;> decide
  have hlt : ∀ r, oneCarry k r < 64 := fun r => by
    have hr := r.isLt
    have hpow : 2 ^ k ≤ 2 ^ 4 := Nat.pow_le_pow_right (by decide) hk'
    unfold oneCarry
    split <;> omega
  have ha := lowAbsorbBytes_carried hk hk' a hspread
  have hb := lowAbsorbBytes_carried hk hk' b hspread
  have hsame : carried k (fun r => lowAbsorbBytes (oneCarry k r) a) =
      carried k (fun r => lowAbsorbBytes (oneCarry k r) b) := by
    congr 1
    funext r
    exact h _ (hlt r)
  -- the sign of what carries one is the bit
  rw [ha, hb, hone] at hsame
  exact signed_one_inj hsame

/-! ## Bits 0, 1, 6 and 7 -/

/-- Modulo 8 a byte acts by its three low bits and its two high ones. -/
theorem lowAbsorb_mod_eight (x : Nat) (b : UInt8) :
    lowAbsorb x b % 8 = ((x % 8 ^^^ b.toNat % 8) * 3 ^^^ b.toNat / 64) * 3 % 8 := by
  have hxor : ∀ p q : Nat, (p ^^^ q) % 8 = p % 8 ^^^ q % 8 := fun p q =>
    Nat.xor_mod_two_pow (n := 3)
  have hmul : ∀ p : Nat, p * 51 % 64 % 8 = p % 8 * 3 % 8 := fun p => by omega
  have hthree : ∀ p : Nat, p * 3 % 8 = p % 8 * 3 % 8 := fun p => by omega
  have hlow : b.toNat % 64 % 8 = b.toNat % 8 := by omega
  rw [lowAbsorb, hmul, hxor, hmul, hxor, hlow, hthree (_ ^^^ b.toNat / 64), hxor]

/-- What a byte does to the three low bits. It adds to the first two, and what it adds to the third
depends on these through its two high bits. -/
theorem mod_eight_bits : ∀ (x l : Fin 8) (h : Fin 4),
    (((x.val ^^^ l.val) * 3 ^^^ h.val) * 3 % 8).testBit 0 =
        xor (x.val.testBit 0) (xor (l.val.testBit 0) (h.val.testBit 0)) ∧
      (((x.val ^^^ l.val) * 3 ^^^ h.val) * 3 % 8).testBit 1 =
        xor (x.val.testBit 1) (xor (l.val.testBit 1) (xor (h.val.testBit 0) (h.val.testBit 1))) ∧
      (((x.val ^^^ l.val) * 3 ^^^ h.val) * 3 % 8).testBit 2 =
        xor (xor (x.val.testBit 2) (((l.val * 3 ^^^ h.val) * 3 % 8).testBit 2))
          (xor (x.val.testBit 0 && xor (h.val.testBit 0) (h.val.testBit 1))
            (x.val.testBit 1 && h.val.testBit 0)) := by
  decide +kernel

theorem testBit_mod_eight (x : Nat) {k : Nat} (hk : k < 3) : (x % 8).testBit k = x.testBit k := by
  have hpow : (8 : Nat) = 2 ^ 3 := rfl
  rw [hpow, Nat.testBit_mod_two_pow]
  simp [hk]

theorem testBit_div_sixtyfour (x k : Nat) : (x / 64).testBit k = x.testBit (6 + k) := by
  have hpow : (64 : Nat) = 2 ^ 6 := rfl
  rw [hpow, ← Nat.shiftRight_eq_div_pow, Nat.testBit_shiftRight]

/-- The three low bits after a byte. -/
theorem lowAbsorb_bits (x : Nat) (b : UInt8) :
    (lowAbsorb x b).testBit 0 =
        xor (x.testBit 0) (xor (b.toNat.testBit 0) (b.toNat.testBit 6)) ∧
      (lowAbsorb x b).testBit 1 =
        xor (x.testBit 1)
          (xor (b.toNat.testBit 1) (xor (b.toNat.testBit 6) (b.toNat.testBit 7))) ∧
      (lowAbsorb x b).testBit 2 =
        xor (xor (x.testBit 2) ((lowAbsorb 0 b).testBit 2))
          (xor (x.testBit 0 && xor (b.toNat.testBit 6) (b.toNat.testBit 7))
            (x.testBit 1 && b.toNat.testBit 6)) := by
  have hhigh : b.toNat / 64 < 4 := by
    have hb : b.toNat < 256 := b.toNat_lt
    omega
  have htable := mod_eight_bits ⟨x % 8, Nat.mod_lt _ (by decide)⟩
    ⟨b.toNat % 8, Nat.mod_lt _ (by decide)⟩ ⟨b.toNat / 64, hhigh⟩
  have hzero : lowAbsorb 0 b % 8 = ((b.toNat % 8) * 3 ^^^ b.toNat / 64) * 3 % 8 := by
    rw [lowAbsorb_mod_eight, Nat.zero_mod, Nat.zero_xor]
  simpa only [← lowAbsorb_mod_eight, ← hzero, testBit_div_sixtyfour,
    testBit_mod_eight _ (by decide : 0 < 3), testBit_mod_eight _ (by decide : 1 < 3),
    testBit_mod_eight _ (by decide : 2 < 3)] using htable

/-- The two low bits after a key. -/
theorem lowAbsorbBytes_bits : ∀ (bs : Bytes) (x : Nat),
    (lowAbsorbBytes x bs).testBit 0 =
        xor (x.testBit 0)
          (xor ((checksum bs).toNat.testBit 0) ((checksum bs).toNat.testBit 6)) ∧
      (lowAbsorbBytes x bs).testBit 1 =
        xor (x.testBit 1) (xor ((checksum bs).toNat.testBit 1)
          (xor ((checksum bs).toNat.testBit 6) ((checksum bs).toNat.testBit 7)))
  | [], x => by simp [checksum, lowAbsorbBytes]
  | b :: bs, x => by
      obtain ⟨h₀, h₁, -⟩ := lowAbsorb_bits x b
      obtain ⟨ih₀, ih₁⟩ := lowAbsorbBytes_bits bs (lowAbsorb x b)
      have hcons : lowAbsorbBytes x (b :: bs) = lowAbsorbBytes (lowAbsorb x b) bs := rfl
      -- a byte adds to the two bits the same from any state, so the order does not matter
      rw [hcons, ih₀, ih₁, h₀, h₁]
      simp only [checksum_testBit, Bool.xor_assoc, Bool.xor_left_comm, and_self]

/-- **What a byte makes of the difference of two states.** -/
theorem lowAbsorb_third (x y : Nat) (b : UInt8) :
    xor ((lowAbsorb x b).testBit 2) ((lowAbsorb y b).testBit 2) =
      xor (xor (x.testBit 2) (y.testBit 2))
        (xor (xor (x.testBit 0) (y.testBit 0) && xor (b.toNat.testBit 6) (b.toNat.testBit 7))
          (xor (x.testBit 1) (y.testBit 1) && b.toNat.testBit 6)) := by
  have hbool : ∀ p q c x₀ y₀ x₁ y₁ m n : Bool,
      xor (xor (xor p c) (xor (x₀ && m) (x₁ && n))) (xor (xor q c) (xor (y₀ && m) (y₁ && n))) =
        xor (xor p q) (xor (xor x₀ y₀ && m) (xor x₁ y₁ && n)) := by decide
  -- what the byte adds whatever the state is cancels
  rw [(lowAbsorb_bits x b).2.2, (lowAbsorb_bits y b).2.2]
  exact hbool ..

/-- The high bits of a key's checksum are in what becomes of the difference of two states. -/
theorem lowAbsorbBytes_third : ∀ (bs : Bytes) (x y : Nat),
    xor ((lowAbsorbBytes x bs).testBit 2) ((lowAbsorbBytes y bs).testBit 2) =
      xor (xor (x.testBit 2) (y.testBit 2))
        (xor (xor (x.testBit 0) (y.testBit 0) &&
            xor ((checksum bs).toNat.testBit 6) ((checksum bs).toNat.testBit 7))
          (xor (x.testBit 1) (y.testBit 1) && (checksum bs).toNat.testBit 6))
  | [], x, y => by simp [checksum, lowAbsorbBytes]
  | b :: bs, x, y => by
      have ih := lowAbsorbBytes_third bs (lowAbsorb x b) (lowAbsorb y b)
      -- the two states differ in their low two bits after the byte as they did before it
      have hsame : ∀ p q c : Bool, xor (xor p c) (xor q c) = xor p q := by decide
      have hbool : ∀ d d₀ d₁ m n m' n' : Bool,
          xor (xor d (xor (d₀ && xor m n) (d₁ && m))) (xor (d₀ && xor m' n') (d₁ && m')) =
            xor d (xor (d₀ && xor (xor m m') (xor n n')) (d₁ && xor m m')) := by decide
      rw [lowAbsorb_third, (lowAbsorb_bits x b).1, (lowAbsorb_bits y b).1, hsame,
        (lowAbsorb_bits x b).2.1, (lowAbsorb_bits y b).2.1, hsame, hbool, ← checksum_testBit,
        ← checksum_testBit] at ih
      exact ih

/-! ## The checksum is read off what a key does -/

/-- **Keys that act alike have their checksums in common, but for bit 5.** -/
theorem checksum_of_sameAction {a b : Bytes}
    (h : ∀ x < 64, lowAbsorbBytes x a = lowAbsorbBytes x b) :
    besidesBit5 (checksum a) = besidesBit5 (checksum b) := by
  have hthird : ∀ x < 64, ∀ y < 64,
      xor ((lowAbsorbBytes x a).testBit 2) ((lowAbsorbBytes y a).testBit 2) =
        xor ((lowAbsorbBytes x b).testBit 2) ((lowAbsorbBytes y b).testBit 2) :=
    fun x hx y hy => by rw [h x hx, h y hy]
  -- the states 0 and 2 differ in their second bit, the states 0 and 1 in their first
  have h₆ : (checksum a).toNat.testBit 6 = (checksum b).toNat.testBit 6 := by
    have hpair := hthird 0 (by decide) 2 (by decide)
    rw [lowAbsorbBytes_third, lowAbsorbBytes_third] at hpair
    simpa [Nat.testBit] using hpair
  have h₇ : (checksum a).toNat.testBit 7 = (checksum b).toNat.testBit 7 := by
    have hpair := hthird 0 (by decide) 1 (by decide)
    rw [lowAbsorbBytes_third, lowAbsorbBytes_third, h₆] at hpair
    simpa [Nat.testBit] using hpair
  have hzero := h 0 (by decide)
  have h₀ : (checksum a).toNat.testBit 0 = (checksum b).toNat.testBit 0 := by
    have hbit := congrArg (Nat.testBit · 0) hzero
    simp only [(lowAbsorbBytes_bits a 0).1, (lowAbsorbBytes_bits b 0).1, h₆] at hbit
    simpa using hbit
  have h₁ : (checksum a).toNat.testBit 1 = (checksum b).toNat.testBit 1 := by
    have hbit := congrArg (Nat.testBit · 1) hzero
    simp only [(lowAbsorbBytes_bits a 0).2, (lowAbsorbBytes_bits b 0).2, h₆, h₇] at hbit
    simpa using hbit
  have hmiddle : ∀ k, 2 ≤ k → k ≤ 4 →
      (checksum a).toNat.testBit k = (checksum b).toNat.testBit k :=
    fun k => checksum_middle h
  apply UInt8.toNat_inj.mp
  apply Nat.eq_of_testBit_eq
  intro k
  have hmask : (0xdf : UInt8).toNat = 0xdf := rfl
  rw [besidesBit5, besidesBit5, UInt8.toNat_and, UInt8.toNat_and, Nat.testBit_and,
    Nat.testBit_and, hmask]
  rcases Nat.lt_or_ge k 8 with hk | hk
  · interval_cases k
    · rw [h₀]
    · rw [h₁]
    · rw [hmiddle 2 (by decide) (by decide)]
    · rw [hmiddle 3 (by decide) (by decide)]
    · rw [hmiddle 4 (by decide) (by decide)]
    · simp [Nat.testBit]
    · rw [h₆]
    · rw [h₇]
  · have hpow : 2 ^ 8 ≤ 2 ^ k := Nat.pow_le_pow_right (by decide) hk
    have hhigh : Nat.testBit 0xdf k = false := Nat.testBit_lt_two_pow (by omega)
    rw [hhigh, Bool.and_false, Bool.and_false]

/-! ## Keys that differ in bit 5 alone -/

/-- Two bytes that agree outside bit 5 are one byte, flipped in it or not. -/
theorem eq_or_flip {x y : UInt8} (h : besidesBit5 x = besidesBit5 y) :
    y = x ∨ y = x ^^^ 0x20 := by
  have hflip : ∀ z : Fin 256, UInt8.ofFin z &&& 0xdf = 0 →
      UInt8.ofFin z = 0 ∨ UInt8.ofFin z = 0x20 := by decide +kernel
  have hzero : (x ^^^ y) &&& 0xdf = 0 := by
    have hdistrib : (x ^^^ y) &&& 0xdf = besidesBit5 x ^^^ besidesBit5 y := by
      apply UInt8.toNat_inj.mp
      simp only [besidesBit5, UInt8.toNat_and, UInt8.toNat_xor, Nat.and_xor_distrib_right]
    rw [hdistrib, h, UInt8.xor_self]
  rcases hflip (x ^^^ y).toFin hzero with hx | hx
  · exact .inl (by simpa using xor_eq_iff.mp hx)
  · exact .inr (xor_eq_iff.mp hx)

theorem twins_of_besidesBit5 : ∀ {as bs : Bytes}, as.map besidesBit5 = bs.map besidesBit5 →
    ∃ odd, Twins odd as bs
  | [], [], _ => ⟨false, .nil⟩
  | [], _ :: _, h => absurd h (by simp)
  | _ :: _, [], h => absurd h (by simp)
  | x :: as, y :: bs, h => by
      obtain ⟨hbyte, hrest⟩ := List.cons_eq_cons.mp h
      obtain ⟨odd, htwins⟩ := twins_of_besidesBit5 hrest
      rcases eq_or_flip hbyte with rfl | rfl
      · exact ⟨odd, .same htwins⟩
      · exact ⟨!odd, .flip htwins⟩

/-- The parity of the flips is the keys'. -/
theorem Twins.parity {p q : Bool} {as bs : Bytes} (h : Twins p as bs) (h' : Twins q as bs) :
    p = q := by
  obtain ⟨-, n, hn, rfl⟩ := h.bit5Flips
  obtain ⟨-, m, hm, rfl⟩ := h'.bit5Flips
  rw [Option.some.inj (hn.symm.trans hm)]

/-- Twins act alike exactly where they differ in an even number of bytes. -/
theorem Twins.sameAction_iff {odd : Bool} {as bs : Bytes} (h : Twins odd as bs) :
    (∀ x < 64, lowAbsorbBytes x as = lowAbsorbBytes x bs) ↔ odd = false := by
  have hlow : ∀ x < 64, lowAbsorbBytes x bs = lowAbsorbBytes x as ^^^ bit5 odd := fun x hx => by
    simpa [bit5] using @Twins.low odd as bs h false x hx
  constructor
  · intro hsame
    cases odd with
    | false => rfl
    | true =>
        -- an odd number of flips leaves bit 5 flipped, from the state 0 as from any other
        have hzero := hlow 0 (by decide)
        rw [← hsame 0 (by decide)] at hzero
        have hbit : bit5 true = 0 := by
          have hcancel := congrArg (lowAbsorbBytes 0 as ^^^ ·) hzero
          simpa [← Nat.xor_assoc] using hcancel.symm
        exact absurd hbit (by decide)
  · rintro rfl x hx
    rw [hlow x hx]
    exact (Nat.xor_zero _).symm

/-! ## The shortcut -/

/-- **The shortcut is right about two keys that differ nowhere outside bit 5, and about two keys
whose checksums differ outside bit 5.** The first are answered by the parity of the flips, and each
flip does run through the whole hash; the second are answered with a no, and some stream tells
them apart. -/
theorem staggersIdentically_exact (a b : String)
    (h : (asBytes a).map besidesBit5 = (asBytes b).map besidesBit5 ∨
      besidesBit5 (checksum (asBytes a)) ≠ besidesBit5 (checksum (asBytes b))) :
    staggersIdentically a b = true ↔ ∀ s, staggerBucket s a = staggerBucket s b := by
  rw [staggersIdentically_iff, sameBuckets_iff]
  rcases h with hflips | hsum
  · obtain ⟨odd, htwins⟩ := twins_of_besidesBit5 hflips
    rw [htwins.sameAction_iff]
    constructor
    · intro heven
      exact htwins.parity heven
    · rintro rfl
      exact htwins
  · constructor
    · intro heven
      exact heven.sameAction_iff.mpr rfl
    · intro hsame
      exact absurd (checksum_of_sameAction hsame) hsum

/-- Two keys of each kind: a name in the other case, and two hosts that differ in one digit. -/
theorem staggersIdentically_exact_hosts :
    (staggersIdentically "arm=valkey" "arm=VALKEY" = true ↔
        ∀ s, staggerBucket s "arm=valkey" = staggerBucket s "arm=VALKEY") ∧
      (staggersIdentically "host=web-01" "host=web-02" = true ↔
        ∀ s, staggerBucket s "host=web-01" = staggerBucket s "host=web-02") :=
  ⟨staggersIdentically_exact _ _ (.inl (by decide +kernel)),
    staggersIdentically_exact _ _ (.inr (by decide +kernel))⟩

/-- Two hosts of one rack: every stream of the one draws the bucket of its namesake of the other,
and the shortcut says that they do not. -/
theorem staggersIdentically_misses :
    staggersIdentically "host=web-001" "host=web-203" = false ∧
      ∀ s, staggerBucket s "host=web-001" = staggerBucket s "host=web-203" :=
  ⟨by decide +kernel, sameBuckets_iff.mpr (by decide +kernel)⟩

end Dendro
