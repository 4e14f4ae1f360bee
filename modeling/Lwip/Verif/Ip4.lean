import Mathlib.Data.Nat.Bitwise
import Lwip.Core.Ip4

/-!
# Reading back header fields

Fields of the IPv4 header are independent of each other, and the offset field splits into the
flag `IP_MF` and the offset.
-/

namespace Lwip

open List

variable {bytes : List UInt8} {i v : Nat}

/-- Setting a field keeps the length. -/
@[simp] theorem length_setNetU16 (bytes : List UInt8) (i v : Nat) :
    (setNetU16 bytes i v).length = bytes.length := by
  simp [setNetU16]

/-- Setting a field in host order keeps the length of the header. -/
@[simp] theorem length_setHostU16 (bytes : List UInt8) (i : Nat) (v : UInt16) :
    (setHostU16 bytes i v).length = bytes.length := by
  simp [setHostU16]

/-- A field that is set is read back. -/
theorem netU16_setNetU16 (inside : i + 1 < bytes.length) (word : v < 65536) :
    netU16 (setNetU16 bytes i v) i = v := by
  have low : i < bytes.length := by omega
  have high : ((bytes.set i (UInt8.ofNat (v / 256))).set (i + 1) (UInt8.ofNat v)).getD i 0 =
      UInt8.ofNat (v / 256) := by
    simp [getD_eq_getElem?_getD, low]
  have second : ((bytes.set i (UInt8.ofNat (v / 256))).set (i + 1) (UInt8.ofNat v)).getD (i + 1) 0 =
      UInt8.ofNat v := by
    simp [getD_eq_getElem?_getD, inside]
  rw [netU16, setNetU16, high, second]
  simp only [UInt8.toNat_ofNat']
  omega

/-- A field is not changed by writing other bytes. -/
theorem netU16_set_set_ne {j : Nat} (high low : UInt8) (apart : j + 1 < i ∨ i + 1 < j) :
    netU16 ((bytes.set i high).set (i + 1) low) j = netU16 bytes j := by
  have first : i ≠ j := by omega
  have second : i + 1 ≠ j := by omega
  have third : i ≠ j + 1 := by omega
  have fourth : i + 1 ≠ j + 1 := by omega
  simp only [netU16, getD_eq_getElem?_getD, getElem?_set, first, second, third, fourth, ↓reduceIte]

/-- A field is not changed by setting another one. -/
theorem netU16_setNetU16_ne {j : Nat} (apart : j + 1 < i ∨ i + 1 < j) :
    netU16 (setNetU16 bytes i v) j = netU16 bytes j := netU16_set_set_ne _ _ apart

/-- A field is not changed by setting another one in host order. -/
theorem netU16_setHostU16_ne {j : Nat} {v : UInt16} (apart : j + 1 < i ∨ i + 1 < j) :
    netU16 (setHostU16 bytes i v) j = netU16 bytes j := netU16_set_set_ne _ _ apart

/-- A field is not changed by bytes behind it. -/
theorem netU16_append {left right : List UInt8} (inside : i + 1 < left.length) :
    netU16 (left ++ right) i = netU16 left i := by
  simp only [netU16, getD_eq_getElem?_getD]
  rw [getElem?_append_left (by omega), getElem?_append_left inside]

/-- A field has 16 bits. -/
theorem netU16_lt (bytes : List UInt8) (i : Nat) : netU16 bytes i < 65536 := by
  have high := (bytes.getD i 0).toNat_lt
  have low := (bytes.getD (i + 1) 0).toNat_lt
  rw [netU16]
  omega

/-- The offset is in the low 13 bits. -/
theorem and_offmask (v : Nat) : v &&& ipOffmask = v % 8192 := Nat.and_two_pow_sub_one_eq_mod v 13

/-- `IP_MF` is the bit above the offset. -/
theorem and_mf_eq_zero_iff (v : Nat) : v &&& ipMf = 0 ↔ v / 8192 % 2 = 0 := by
  have bit : v &&& ipMf = (v.testBit 13).toNat * 8192 := Nat.and_two_pow v 13
  rw [bit, Nat.testBit_eq_decide_div_mod_eq]
  rcases Nat.mod_two_eq_zero_or_one (v / 8192) with zero | one
  · simp [zero]
  · simp [one]

/-- `IP_MF` is added to the offset. -/
theorem or_mf (offset : v < 8192) : v ||| ipMf = v + 8192 := by
  have := Nat.two_pow_add_eq_or_of_lt (i := 13) offset 1
  rw [Nat.or_comm, show ipMf = 2 ^ 13 * 1 from rfl]
  omega

end Lwip
