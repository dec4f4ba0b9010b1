import Mathlib.Order.Defs.LinearOrder
import Dendro.Lib.Codec

/-!
# Machine words

Signed 64-bit and unsigned 32-bit integers as linear orders, so that they can key an ordered
map, and the little-endian byte strings of the fixed-width words with their round trips.
-/

instance instLinearOrderInt64 : LinearOrder Int64 where
  le_refl := Int64.le_refl
  le_trans _ _ _ := Int64.le_trans
  le_antisymm _ _ := Int64.le_antisymm
  le_total := Int64.le_total
  lt_iff_le_not_ge a b := by rw [Int64.not_le, Int64.lt_iff_le_and_ne]; grind
  toDecidableLE := inferInstance
  toDecidableEq := inferInstance
  toDecidableLT := inferInstance

instance instLinearOrderUInt32 : LinearOrder UInt32 where
  le_refl := UInt32.le_refl
  le_trans _ _ _ := UInt32.le_trans
  le_antisymm _ _ := UInt32.le_antisymm
  le_total := UInt32.le_total
  lt_iff_le_not_ge a b := by rw [UInt32.not_le, UInt32.lt_iff_le_and_ne]; grind
  toDecidableLE := inferInstance
  toDecidableEq := inferInstance
  toDecidableLT := inferInstance

namespace Codec

/-- `to_le_bytes` of an unsigned 16-bit word. -/
def u16Bytes (v : UInt16) : Bytes := leBytes 2 v.toNat

/-- `to_le_bytes` of an unsigned 32-bit word. -/
def u32Bytes (v : UInt32) : Bytes := leBytes 4 v.toNat

/-- `to_le_bytes` of an unsigned 64-bit word. -/
def u64Bytes (v : UInt64) : Bytes := leBytes 8 v.toNat

/-- `to_le_bytes` of a signed 64-bit word: its two's complement. -/
def i64Bytes (v : Int64) : Bytes := u64Bytes v.toUInt64

/-- `from_le_bytes` of an unsigned 16-bit word. -/
def u16OfBytes (bs : Bytes) : UInt16 := UInt16.ofNat (ofLeBytes bs)

/-- `from_le_bytes` of an unsigned 32-bit word. -/
def u32OfBytes (bs : Bytes) : UInt32 := UInt32.ofNat (ofLeBytes bs)

/-- `from_le_bytes` of an unsigned 64-bit word. -/
def u64OfBytes (bs : Bytes) : UInt64 := UInt64.ofNat (ofLeBytes bs)

/-- `from_le_bytes` of a signed 64-bit word. -/
def i64OfBytes (bs : Bytes) : Int64 := (u64OfBytes bs).toInt64

@[simp] theorem length_u32Bytes (v : UInt32) : (u32Bytes v).length = 4 := length_leBytes _ _

@[simp] theorem length_u64Bytes (v : UInt64) : (u64Bytes v).length = 8 := length_leBytes _ _

@[simp] theorem length_i64Bytes (v : Int64) : (i64Bytes v).length = 8 := length_leBytes _ _

@[simp] theorem u16OfBytes_u16Bytes (v : UInt16) : u16OfBytes (u16Bytes v) = v := by
  rw [u16OfBytes, u16Bytes, ofLeBytes_leBytes_of_lt (by simpa using v.toNat_lt), UInt16.ofNat_toNat]

@[simp] theorem u32OfBytes_u32Bytes (v : UInt32) : u32OfBytes (u32Bytes v) = v := by
  rw [u32OfBytes, u32Bytes, ofLeBytes_leBytes_of_lt (by simpa using v.toNat_lt), UInt32.ofNat_toNat]

@[simp] theorem u64OfBytes_u64Bytes (v : UInt64) : u64OfBytes (u64Bytes v) = v := by
  rw [u64OfBytes, u64Bytes, ofLeBytes_leBytes_of_lt (by simpa using v.toNat_lt), UInt64.ofNat_toNat]

@[simp] theorem i64OfBytes_i64Bytes (v : Int64) : i64OfBytes (i64Bytes v) = v := by
  rw [i64OfBytes, i64Bytes, u64OfBytes_u64Bytes, Int64.toInt64_toUInt64]

/-! ## Bytes of a word's width -/

theorem u32Bytes_u32OfBytes {bs : Bytes} (h : bs.length = 4) : u32Bytes (u32OfBytes bs) = bs := by
  have hlt : ofLeBytes bs < UInt32.size := by simpa [h] using ofLeBytes_lt bs
  rw [u32Bytes, u32OfBytes, UInt32.toNat_ofNat_of_lt' hlt, ← h, leBytes_ofLeBytes]

theorem u64Bytes_u64OfBytes {bs : Bytes} (h : bs.length = 8) : u64Bytes (u64OfBytes bs) = bs := by
  have hlt : ofLeBytes bs < UInt64.size := by simpa [h] using ofLeBytes_lt bs
  rw [u64Bytes, u64OfBytes, UInt64.toNat_ofNat_of_lt' hlt, ← h, leBytes_ofLeBytes]

theorem i64Bytes_i64OfBytes {bs : Bytes} (h : bs.length = 8) : i64Bytes (i64OfBytes bs) = bs := by
  rw [i64Bytes, i64OfBytes, UInt64.toUInt64_toInt64, u64Bytes_u64OfBytes h]

end Codec
