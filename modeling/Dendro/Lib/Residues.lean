import Mathlib.Algebra.BigOperators.Fin
import Mathlib.Data.Fintype.EquivFin
import Mathlib.Data.Nat.Bitwise
import Mathlib.Data.ZMod.Basic

/-!
# One number in each residue class

A family of `2 ^ k` numbers with one in each class modulo `2 ^ k` keeps that form under a xor with a
constant and under a multiplication by an odd one: either permutes the classes. What the family
carries above its `k` low bits, summed modulo 4, then changes by the constant alone. A xor turns
the sign of the sum where bit `k` of the constant is set (`carried_xor`); a multiplication
multiplies the sum and adds what the classes themselves carry (`Spread.carried_mul`).
-/

/-- A sum with its sign turned or not. -/
def signed (odd : Bool) (t : ZMod 4) : ZMod 4 := if odd then -t else t

@[simp] theorem signed_false (t : ZMod 4) : signed false t = t := rfl

theorem signed_signed (p q : Bool) (t : ZMod 4) : signed p (signed q t) = signed (xor p q) t := by
  revert t
  cases p <;> cases q <;> decide

/-- The sign of one is read off it. -/
theorem signed_one_inj {p q : Bool} (h : signed p 1 = signed q 1) : p = q := by
  revert h
  cases p <;> cases q <;> decide

theorem signed_sum {ι : Type} (s : Finset ι) (odd : Bool) (t : ι → ZMod 4) :
    ∑ r ∈ s, signed odd (t r) = signed odd (∑ r ∈ s, t r) := by
  cases odd
  · rfl
  · exact Finset.sum_neg_distrib t

/-- A xor turns the sign of a number modulo 4 by its low bit, and adds itself. -/
theorem cast_xor (d e : Nat) :
    ((d ^^^ e : Nat) : ZMod 4) = (e : ZMod 4) + signed (e.testBit 0) (d : ZMod 4) := by
  -- modulo 4 only the two low bits of each matter
  have hsmall : ∀ d e : Fin 4, ((d.val ^^^ e.val : Nat) : ZMod 4) =
      (e.val : ZMod 4) + signed (e.val.testBit 0) (d.val : ZMod 4) := by decide
  have hpow : (4 : Nat) = 2 ^ 2 := rfl
  have hlow : (e % 4).testBit 0 = e.testBit 0 := by
    rw [hpow, Nat.testBit_mod_two_pow]
    simp
  have hmod := hsmall ⟨d % 4, Nat.mod_lt _ (by decide)⟩ ⟨e % 4, Nat.mod_lt _ (by decide)⟩
  simp only [ZMod.natCast_mod, hlow] at hmod
  rw [← hmod, ← ZMod.natCast_mod (d ^^^ e) 4, hpow, Nat.xor_mod_two_pow]

namespace Residues

variable {k : Nat} {g : Fin (2 ^ k) → Nat}

/-- One number in each class modulo `2 ^ k`. -/
def Spread (k : Nat) (g : Fin (2 ^ k) → Nat) : Prop :=
  Function.Injective fun r => g r % 2 ^ k

/-- What the numbers carry above their `k` low bits. -/
def carried (k : Nat) (g : Fin (2 ^ k) → Nat) : ZMod 4 := ∑ r, ((g r / 2 ^ k : Nat) : ZMod 4)

/-! ## Reduction -/

theorem Spread.mod {w : Nat} (hw : k ≤ w) (h : Spread k g) : Spread k fun r => g r % 2 ^ w := by
  intro r s hrs
  have hdvd : 2 ^ k ∣ 2 ^ w := Nat.pow_dvd_pow 2 hw
  simp only [Nat.mod_mod_of_dvd _ hdvd] at hrs
  exact h hrs

theorem carried_mod {w : Nat} (hw : k + 2 ≤ w) :
    carried k (fun r => g r % 2 ^ w) = carried k g := by
  have hsplit : 2 ^ w = 2 ^ k * (4 * 2 ^ (w - (k + 2))) := by
    have hfour : (4 : Nat) = 2 ^ 2 := rfl
    rw [hfour, ← Nat.pow_add, ← Nat.pow_add]
    congr 1
    omega
  refine Finset.sum_congr rfl fun r _ => ?_
  rw [hsplit, Nat.mod_mul_right_div_self, ← ZMod.natCast_mod, Nat.mod_mul_right_mod,
    ZMod.natCast_mod]

/-! ## Xor -/

theorem Spread.xor (c : Nat) (h : Spread k g) : Spread k fun r => g r ^^^ c := by
  intro r s hrs
  simp only [Nat.xor_mod_two_pow] at hrs
  exact h (Nat.xor_left_injective hrs)

/-- All of the numbers get the same added, and how many they are is a multiple of 4. -/
theorem carried_xor (hk : 2 ≤ k) (c : Nat) :
    carried k (fun r => g r ^^^ c) = signed (c.testBit k) (carried k g) := by
  have hbit : (c / 2 ^ k).testBit 0 = c.testBit k := by
    rw [← Nat.shiftRight_eq_div_pow, Nat.testBit_shiftRight, Nat.add_zero]
  have hzero : ((2 ^ k : Nat) : ZMod 4) = 0 := by
    rw [ZMod.natCast_eq_zero_iff]
    exact Nat.pow_dvd_pow 2 hk
  calc carried k (fun r => g r ^^^ c)
      = ∑ r, (((c / 2 ^ k : Nat) : ZMod 4) +
          signed (c.testBit k) ((g r / 2 ^ k : Nat) : ZMod 4)) := by
        refine Finset.sum_congr rfl fun r _ => ?_
        rw [Nat.xor_div_two_pow, cast_xor, hbit]
    _ = signed (c.testBit k) (carried k g) := by
        rw [Finset.sum_add_distrib, Finset.sum_const, Finset.card_univ, Fintype.card_fin,
          nsmul_eq_mul, hzero, zero_mul, zero_add, signed_sum, carried]

/-! ## Multiplication -/

theorem Spread.mul {m : Nat} (hm : Nat.Coprime (2 ^ k) m) (h : Spread k g) :
    Spread k fun r => g r * m := by
  intro r s hrs
  exact h (Nat.ModEq.cancel_right_of_coprime hm hrs)

/-- The numbers of a spread family run through the classes. -/
theorem Spread.sum_classes (h : Spread k g) (f : Nat → ZMod 4) :
    ∑ r, f (g r % 2 ^ k) = ∑ r : Fin (2 ^ k), f r := by
  have hpos : 0 < 2 ^ k := Nat.two_pow_pos k
  have hinj : Function.Injective
      fun r => (⟨g r % 2 ^ k, Nat.mod_lt _ hpos⟩ : Fin (2 ^ k)) := fun r s hrs =>
    h (congrArg Fin.val hrs)
  -- as many numbers as there are classes, so none is left out
  exact (Finite.injective_iff_bijective.mp hinj).sum_comp fun r => f r

theorem Spread.carried_mul (m : Nat) (h : Spread k g) :
    carried k (fun r => g r * m) =
      carried k g * m + ∑ r : Fin (2 ^ k), ((r * m / 2 ^ k : Nat) : ZMod 4) := by
  have hpos : 0 < 2 ^ k := Nat.two_pow_pos k
  -- what one number carries: its own carry, times `m`, and what its class carries
  have hone : ∀ x : Nat, x * m / 2 ^ k = x / 2 ^ k * m + x % 2 ^ k * m / 2 ^ k := fun x => by
    have hx : x * m = x % 2 ^ k * m + 2 ^ k * (x / 2 ^ k * m) := by
      conv_lhs => rw [← Nat.mod_add_div x (2 ^ k)]
      rw [Nat.add_mul, Nat.mul_assoc]
    rw [hx, Nat.add_mul_div_left _ _ hpos, Nat.add_comm]
  rw [carried, carried, Finset.sum_mul, ← h.sum_classes fun x => ((x * m / 2 ^ k : Nat) : ZMod 4),
    ← Finset.sum_add_distrib]
  refine Finset.sum_congr rfl fun r _ => ?_
  rw [hone, Nat.cast_add, Nat.cast_mul]

end Residues
