import Mathlib.Data.UInt
import Dendro.Archive.Types

/-!
# The stagger of first seals

`stagger_bucket` is a hash of the stream's name and then of the source's key, of which the low six
bits are kept. Every byte acts on these six bits alone (`low_absorb`), and one byte of a stream's
name leads to any of the 64 states (`exists_stream`), so two keys draw the same buckets for every
stream exactly where their bytes act alike on all 64 states (`sameBuckets_iff`).

`staggers_identically` admits the pairs that differ in bit 5 of an even number of bytes: such a
flip runs through the whole hash and a second one undoes it (`Twins.low`).
-/

namespace Dendro

/-- How many buckets the stagger has. -/
def STAGGER_BUCKETS : UInt64 := 64

/-- The FNV-1a prime. -/
def PRIME : UInt64 := 0x100000001b3

/-- The FNV-1a offset basis. -/
def OFFSET_BASIS : UInt64 := 0xcbf29ce484222325

/-- `as_bytes` of a string. -/
def asBytes (s : String) : Bytes := s.toByteArray.data.toList

/-- Absorb one byte, and then the two bits of it that the reduction would discard. -/
def absorb (h b : UInt64) : UInt64 := (((h ^^^ b) * PRIME) ^^^ (b >>> 6)) * PRIME

def absorbBytes (h : UInt64) (bs : Bytes) : UInt64 := bs.foldl (fun h b => absorb h b.toUInt64) h

/-- The bucket that a stream of a source draws. -/
def staggerBucket (stream source_key : String) : UInt64 :=
  let h := absorbBytes OFFSET_BASIS (asBytes stream)
  -- a separator that no label byte can supply
  let h := absorb h 0xff
  absorbBytes h (asBytes source_key) % STAGGER_BUCKETS

/-- How many pairs of bytes differ in bit 5; nothing where a pair differs in another. -/
def bit5Flips : List (UInt8 × UInt8) → Option Nat
  | [] => some 0
  | (x, y) :: rest =>
    if x ^^^ y = 0 then bit5Flips rest
    else if x ^^^ y = 0x20 then (bit5Flips rest).map (· + 1)
    else none

/-- Whether two source keys draw the same bucket for every stream, as the source has it. -/
def staggersIdentically (a b : String) : Bool :=
  if (asBytes a).length ≠ (asBytes b).length then false
  else match bit5Flips ((asBytes a).zip (asBytes b)) with
    | some bit5_flips => bit5_flips % 2 = 0
    | none => false

/-- A source's labels, canonically rendered. -/
def sourceStaggerKey (labels : StringMap) : String :=
  labels.entries.foldl (fun out e =>
    (if out.isEmpty then out else out.push '\x01') ++ e.1 ++ "=" ++ e.2) ""

/-! ## Keys that differ in bit 5 -/

/-- Two keys of one length that differ in bit 5 alone: in an odd number of bytes or an even one. -/
inductive Twins : Bool → Bytes → Bytes → Prop where
  | nil : Twins false [] []
  | same {odd : Bool} {x : UInt8} {as bs : Bytes} :
      Twins odd as bs → Twins odd (x :: as) (x :: bs)
  | flip {odd : Bool} {x : UInt8} {as bs : Bytes} :
      Twins odd as bs → Twins (!odd) (x :: as) ((x ^^^ 0x20) :: bs)

theorem xor_eq_iff {x y c : UInt8} : x ^^^ y = c ↔ y = x ^^^ c := by
  constructor
  · rintro rfl
    rw [← UInt8.xor_assoc, UInt8.xor_self, UInt8.zero_xor]
  · rintro rfl
    rw [← UInt8.xor_assoc, UInt8.xor_self, UInt8.zero_xor]

/-- The flips that are counted are those of twins. -/
theorem bit5Flips_iff : ∀ {as bs : Bytes} {n : Nat}, as.length = bs.length →
    bit5Flips (as.zip bs) = some n → Twins (n % 2 = 1) as bs
  | [], [], n, _, h => by
      obtain rfl := Option.some.inj h
      exact .nil
  | [], _ :: _, _, hlen, _ => absurd hlen (by simp)
  | _ :: _, [], _, hlen, _ => absurd hlen (by simp)
  | x :: as, y :: bs, n, hlen, h => by
      have hrest : as.length = bs.length := Nat.succ.inj hlen
      rw [List.zip_cons_cons, bit5Flips] at h
      split at h
      · rename_i heq
        obtain rfl : y = x := by simpa using xor_eq_iff.mp heq
        exact .same (bit5Flips_iff hrest h)
      · split at h
        · rename_i heq
          obtain rfl := xor_eq_iff.mp heq
          obtain ⟨m, hm, rfl⟩ := Option.map_eq_some_iff.mp h
          have hparity : decide ((m + 1) % 2 = 1) = !decide (m % 2 = 1) := by
            rcases Nat.mod_two_eq_zero_or_one m with h | h <;> simp [Nat.add_mod, h]
          exact hparity ▸ .flip (bit5Flips_iff hrest hm)
        · simp at h

theorem Twins.bit5Flips {odd : Bool} {as bs : Bytes} (h : Twins odd as bs) :
    as.length = bs.length ∧ ∃ n, bit5Flips (as.zip bs) = some n ∧ odd = decide (n % 2 = 1) := by
  induction h with
  | nil => exact ⟨rfl, 0, rfl, rfl⟩
  | same _ ih =>
      obtain ⟨hlen, n, hn, hodd⟩ := ih
      refine ⟨congrArg Nat.succ hlen, n, ?_, hodd⟩
      rw [List.zip_cons_cons, Dendro.bit5Flips, if_pos (by simp), hn]
  | @flip odd x as bs _ ih =>
      obtain ⟨hlen, n, hn, rfl⟩ := ih
      have hflip : x ^^^ (x ^^^ 0x20) = 0x20 := xor_eq_iff.mpr rfl
      refine ⟨congrArg Nat.succ hlen, n + 1, ?_, ?_⟩
      · rw [List.zip_cons_cons, Dendro.bit5Flips, hflip, if_neg (by decide), if_pos rfl, hn]
        rfl
      · rcases Nat.mod_two_eq_zero_or_one n with h | h <;> simp [Nat.add_mod, h]

/-- What the shortcut computes. -/
theorem staggersIdentically_iff {a b : String} :
    staggersIdentically a b = true ↔ Twins false (asBytes a) (asBytes b) := by
  unfold staggersIdentically
  split
  · rename_i hlen
    refine ⟨fun h => absurd h (by simp), fun h => absurd h.bit5Flips.1 hlen⟩
  · rename_i hlen
    rw [not_not] at hlen
    constructor
    · intro h
      split at h
      · rename_i n hn
        have heven : n % 2 = 0 := by simpa using h
        have htwins := bit5Flips_iff hlen hn
        simpa [heven] using htwins
      · simp at h
    · intro h
      obtain ⟨-, n, hn, hodd⟩ := h.bit5Flips
      rw [hn]
      have heven : ¬ n % 2 = 1 := by simpa using hodd
      simp only [decide_eq_true_eq]
      omega

/-! ## The low six bits -/

/-- The bits of a hash that the reduction keeps. -/
def low (h : UInt64) : Nat := h.toNat % 64

/-- What a byte does to the low bits: `51` is the prime modulo 64. -/
def lowAbsorb (x : Nat) (b : UInt8) : Nat :=
  ((((x ^^^ (b.toNat % 64)) * 51) % 64 ^^^ (b.toNat / 64)) * 51) % 64

theorem low_xor (h b : UInt64) : low (h ^^^ b) = low h ^^^ low b := by
  have hpow : (64 : Nat) = 2 ^ 6 := rfl
  rw [low, low, low, UInt64.toNat_xor, hpow, Nat.xor_mod_two_pow]

theorem low_mul (h : UInt64) : low (h * PRIME) = (low h * 51) % 64 := by
  have hprime : PRIME.toNat = 0x100000001b3 := rfl
  rw [low, low, UInt64.toNat_mul, hprime]
  omega

theorem low_byte (b : UInt8) : low b.toUInt64 = b.toNat % 64 := by
  rw [low, UInt8.toNat_toUInt64]

theorem low_high (b : UInt8) : low (b.toUInt64 >>> 6) = b.toNat / 64 := by
  have hb : b.toNat < 256 := b.toNat_lt
  have hshift : (b.toUInt64 >>> 6).toNat = b.toNat / 64 := by
    rw [UInt64.toNat_shiftRight, UInt8.toNat_toUInt64, Nat.shiftRight_eq_div_pow]
    rfl
  rw [low, hshift]
  omega

/-- **A byte acts on the low bits alone.** -/
theorem low_absorb (h : UInt64) (b : UInt8) :
    low (absorb h b.toUInt64) = lowAbsorb (low h) b := by
  rw [absorb, low_mul, low_xor, low_mul, low_xor, low_byte, low_high, lowAbsorb]

/-- What the bytes of a key do to the low bits. -/
def lowAbsorbBytes (x : Nat) (bs : Bytes) : Nat := bs.foldl lowAbsorb x

theorem low_absorbBytes : ∀ (bs : Bytes) (h : UInt64),
    low (absorbBytes h bs) = lowAbsorbBytes (low h) bs
  | [], _ => rfl
  | b :: bs, h => by
      have ih := low_absorbBytes bs (absorb h b.toUInt64)
      rw [low_absorb] at ih
      exact ih

/-! ## Twins act alike -/

/-- Bit 5, flipped or not. -/
def bit5 (odd : Bool) : Nat := if odd then 32 else 0

/-- A flip of bit 5 runs through a byte. -/
theorem lowAbsorb_bit5 (odd : Bool) {x : Nat} (hx : x < 64) (b : UInt8) :
    lowAbsorb (x ^^^ bit5 odd) b = lowAbsorb x b ^^^ bit5 odd := by
  have hmul : ∀ y < 64, ((y ^^^ bit5 odd) * 51) % 64 = (y * 51) % 64 ^^^ bit5 odd := by
    cases odd <;> decide
  have hxor : ∀ y c : Nat, y ^^^ bit5 odd ^^^ c = (y ^^^ c) ^^^ bit5 odd := fun y c => by
    rw [Nat.xor_assoc, Nat.xor_comm (bit5 odd), ← Nat.xor_assoc]
  have hlow : x ^^^ (b.toNat % 64) < 64 := Nat.xor_lt_two_pow (n := 6) hx (Nat.mod_lt _ (by decide))
  have hhigh : b.toNat / 64 < 64 := by
    have hb : b.toNat < 256 := b.toNat_lt
    omega
  have hmid : (x ^^^ (b.toNat % 64)) * 51 % 64 ^^^ (b.toNat / 64) < 64 :=
    Nat.xor_lt_two_pow (n := 6) (Nat.mod_lt _ (by decide)) hhigh
  rw [lowAbsorb, hxor, hmul _ hlow, hxor, hmul _ hmid, lowAbsorb]

/-- A byte with bit 5 flipped does the same and flips bit 5. -/
theorem lowAbsorb_flip {x : Nat} (hx : x < 64) (b : UInt8) :
    lowAbsorb x (b ^^^ 0x20) = lowAbsorb x b ^^^ bit5 true := by
  have hsame : lowAbsorb x (b ^^^ 0x20) = lowAbsorb (x ^^^ bit5 true) b := by
    have hlow : (b ^^^ 0x20).toNat % 64 = b.toNat % 64 ^^^ 32 := by
      have hpow : (64 : Nat) = 2 ^ 6 := rfl
      rw [UInt8.toNat_xor, hpow, Nat.xor_mod_two_pow]
      rfl
    have hhigh : (b ^^^ 0x20).toNat / 64 = b.toNat / 64 := by
      have hpow : (64 : Nat) = 2 ^ 6 := rfl
      rw [UInt8.toNat_xor, hpow, ← Nat.shiftRight_eq_div_pow, Nat.shiftRight_xor_distrib,
        Nat.shiftRight_eq_div_pow]
      exact Nat.xor_zero _
    rw [lowAbsorb, hlow, hhigh, lowAbsorb, Nat.xor_comm (b.toNat % 64), ← Nat.xor_assoc]
    rfl
  rw [hsame, lowAbsorb_bit5 true hx]

theorem lowAbsorb_lt (x : Nat) (b : UInt8) : lowAbsorb x b < 64 := Nat.mod_lt _ (by decide)

/-- **Twins lead to the same low bits, up to bit 5.** -/
theorem Twins.low {odd : Bool} {as bs : Bytes} (h : Twins odd as bs) :
    ∀ {flipped : Bool} {x : Nat}, x < 64 →
      lowAbsorbBytes (x ^^^ bit5 flipped) bs = lowAbsorbBytes x as ^^^ bit5 (xor flipped odd) := by
  induction h with
  | nil => intro flipped x _; rw [Bool.xor_false]; rfl
  | @same odd y as bs _ ih =>
      intro flipped x hx
      have hstep := lowAbsorb_bit5 flipped hx y
      calc lowAbsorbBytes (x ^^^ bit5 flipped) (y :: bs)
          = lowAbsorbBytes (lowAbsorb x y ^^^ bit5 flipped) bs := by rw [← hstep]; rfl
        _ = lowAbsorbBytes x (y :: as) ^^^ bit5 (xor flipped odd) := ih (lowAbsorb_lt x y)
  | @flip odd y as bs _ ih =>
      intro flipped x hx
      have hlt : x ^^^ bit5 flipped < 64 :=
        Nat.xor_lt_two_pow (n := 6) hx (by cases flipped <;> decide)
      have htwice : bit5 flipped ^^^ bit5 true = bit5 (!flipped) := by cases flipped <;> rfl
      have hstep : lowAbsorb (x ^^^ bit5 flipped) (y ^^^ 0x20) =
          lowAbsorb x y ^^^ bit5 (!flipped) := by
        rw [lowAbsorb_flip hlt, lowAbsorb_bit5 flipped hx, Nat.xor_assoc, htwice]
      have hodd : xor (!flipped) odd = xor flipped (!odd) := by cases flipped <;> cases odd <;> rfl
      calc lowAbsorbBytes (x ^^^ bit5 flipped) ((y ^^^ 0x20) :: bs)
          = lowAbsorbBytes (lowAbsorb x y ^^^ bit5 (!flipped)) bs := by rw [← hstep]; rfl
        _ = lowAbsorbBytes x (y :: as) ^^^ bit5 (xor flipped (!odd)) := by
            rw [ih (lowAbsorb_lt x y), hodd]
            rfl

/-! ## Every state is a stream's -/

/-- The low bits that a key of a stream starts from. -/
def startOf (stream : String) : Nat :=
  lowAbsorb (lowAbsorbBytes (low OFFSET_BASIS) (asBytes stream)) 0xff

theorem staggerBucket_toNat (stream source_key : String) :
    (staggerBucket stream source_key).toNat =
      lowAbsorbBytes (startOf stream) (asBytes source_key) := by
  have hstart : low (absorb (absorbBytes OFFSET_BASIS (asBytes stream)) 0xff) = startOf stream := by
    have hsep : (0xff : UInt64) = (0xff : UInt8).toUInt64 := rfl
    rw [hsep, low_absorb, low_absorbBytes, startOf]
  rw [staggerBucket, UInt64.toNat_mod, ← hstart, ← low_absorbBytes]
  rfl

/-- **A stream with a name of one byte starts a key from any state.** -/
theorem exists_stream : ∀ x : Fin 64, ∃ n : Fin 64,
    startOf (String.singleton (Char.ofNat n)) = x := by
  decide +kernel

theorem startOf_lt (stream : String) : startOf stream < 64 := lowAbsorb_lt _ _

/-- **Two keys draw the same bucket for every stream exactly where their bytes act alike on the
low bits.** -/
theorem sameBuckets_iff {a b : String} :
    (∀ s, staggerBucket s a = staggerBucket s b) ↔
      ∀ x < 64, lowAbsorbBytes x (asBytes a) = lowAbsorbBytes x (asBytes b) := by
  constructor
  · intro h x hx
    obtain ⟨n, hn⟩ := exists_stream ⟨x, hx⟩
    have hbucket := congrArg UInt64.toNat (h (String.singleton (Char.ofNat n)))
    rwa [staggerBucket_toNat, staggerBucket_toNat, hn] at hbucket
  · intro h s
    apply UInt64.toNat.inj
    rw [staggerBucket_toNat, staggerBucket_toNat]
    exact h _ (startOf_lt s)

end Dendro
