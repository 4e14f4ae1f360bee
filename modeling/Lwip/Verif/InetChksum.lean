import Lwip.Base.OnesSum
import Lwip.Core.InetChksum
import Lwip.Core.Ip4
import Lwip.Verif.Pbuf

/-!
# Checksums over chains

The checksum of a chain is the Internet checksum of its bytes, whatever the buffers, their
lengths and their addresses are. The accumulator is kept in the byte order of the machine and is
swapped once more behind every buffer of odd length, so that after `n` bytes it stands for the sum
of them moved by `n + 1` places. Stored into a field that was zero, the checksum completes the sum
to the other zero, and the function then returns zero.
-/

namespace Lwip

open OnesSum
open List hiding swap

variable {n k : Nat} {acc : UInt32} {data : List UInt8} {chain : AddressedChain}

/-- The byte string as digits. -/
def digits (data : List UInt8) : List Nat := data.map UInt8.toNat

/-- The Internet checksum: complement of the ones' complement sum of the 16-bit words of a string,
high byte first and padded with a zero byte. -/
def internetChecksum (data : List UInt8) : Nat := 65535 - onesSum 65535 (words 256 (digits data))

/-- The four bytes of an address in the order of the memory. -/
def addrBytes (addr : UInt32) : List UInt8 :=
  [addr.toUInt8, (addr >>> 8).toUInt8, (addr >>> 16).toUInt8, (addr >>> 24).toUInt8]

/-- The IPv4 pseudo header of TCP and UDP. -/
def pseudoHeader (proto : UInt8) (protoLen : UInt16) (src dest : UInt32) : List UInt8 :=
  addrBytes src ++ addrBytes dest ++ [0, proto, (protoLen >>> 8).toUInt8, protoLen.toUInt8]

/-- The chain holds the string: every payload lies inside its memory, and its length is a
`u16_t`. -/
structure Spells (c : AddressedChain) (data : List UInt8) : Prop where
  inMemory : ∀ q ∈ c, q.2.payload + q.2.len ≤ q.2.mem.length
  fits : ∀ q ∈ c, q.2.len < 65536
  bytes : c.bytes = data

theorem radix256 : 256 * 256 = 65535 + 1 := rfl

/-! ## Machine operations -/

theorem foldU32_exact (sum : UInt32) : (foldU32 sum).toNat = fold 65536 sum.toNat := by
  have small := sum.toNat_lt
  have low : (sum &&& 0xffff).toNat = sum.toNat % 65536 := by
    rw [UInt32.toNat_and]
    exact Nat.and_two_pow_sub_one_eq_mod sum.toNat 16
  have high : (sum >>> 16).toNat = sum.toNat / 65536 := by
    rw [UInt32.toNat_shiftRight, Nat.shiftRight_eq_div_pow]
    rfl
  rw [foldU32, UInt32.toNat_add, low, high, fold]
  omega

theorem low_byte (w : Nat) : w &&& 0xff = w % 256 := Nat.and_two_pow_sub_one_eq_mod w 8

theorem high_byte {w : Nat} (small : w ≤ 65535) : (w &&& 0xff00) >>> 8 = w / 256 := by
  have masked : w / 256 &&& 0xff = w / 256 := by
    rw [low_byte, Nat.mod_eq_of_lt (by omega)]
  rw [Nat.shiftRight_and_distrib, Nat.shiftRight_eq_div_pow]
  exact masked

theorem bytes_or (high : Nat) {low : Nat} (small : low < 256) :
    high * 256 ||| low = high * 256 + low := by
  rw [Nat.mul_comm]
  exact (Nat.two_pow_add_eq_or_of_lt (i := 8) small high).symm

/-- `SWAP_BYTES_IN_WORD` swaps the bytes of a 16-bit value. -/
theorem swapBytesInWord_exact {w : UInt32} (small : w.toNat ≤ 65535) :
    (swapBytesInWord w).toNat = swap 256 w.toNat := by
  have low : ((w &&& 0xff) <<< 8).toNat = w.toNat % 256 * 256 := by
    rw [UInt32.toNat_shiftLeft, UInt32.toNat_and, Nat.shiftLeft_eq]
    change (w.toNat &&& 0xff) * 256 % 4294967296 = _
    rw [low_byte]
    omega
  have high : ((w &&& 0xff00) >>> 8).toNat = w.toNat / 256 := by
    rw [UInt32.toNat_shiftRight, UInt32.toNat_and]
    exact high_byte small
  rw [swapBytesInWord, UInt32.toNat_or, low, high, swap]
  exact bytes_or _ (by omega)

theorem lwipHtons_exact (n : UInt16) : (lwipHtons n).toNat = swap 256 n.toNat := by
  have small := n.toNat_lt
  have low : ((n &&& 0xff) <<< 8).toNat = n.toNat % 256 * 256 := by
    rw [UInt16.toNat_shiftLeft, UInt16.toNat_and, Nat.shiftLeft_eq]
    change (n.toNat &&& 0xff) * 256 % 65536 = _
    rw [low_byte]
    omega
  have high : ((n &&& 0xff00) >>> 8).toNat = n.toNat / 256 := by
    rw [UInt16.toNat_shiftRight, UInt16.toNat_and]
    exact high_byte (by omega)
  rw [lwipHtons, UInt16.toNat_or, low, high, swap]
  exact bytes_or _ (by omega)

theorem lwipHtons_injective {n k : UInt16} (same : lwipHtons n = lwipHtons k) : n = k := by
  have swapped := congrArg UInt16.toNat same
  have left := n.toNat_lt
  have right := k.toNat_lt
  rw [lwipHtons_exact, lwipHtons_exact] at swapped
  apply UInt16.toNat_inj.1
  unfold swap at swapped
  omega

/-- The value that is returned for an accumulator of 16 bits. -/
theorem complement_exact (small : acc.toNat ≤ 65535) :
    (~~~(acc &&& 0xffff)).toUInt16.toNat = 65535 - acc.toNat := by
  have masked : (acc &&& 0xffff).toNat = acc.toNat := by
    rw [UInt32.toNat_and]
    exact (Nat.and_two_pow_sub_one_eq_mod acc.toNat 16).trans (Nat.mod_eq_of_lt (by omega))
  rw [UInt32.toNat_toUInt16, UInt32.toNat_not, masked]
  change (4294967296 - 1 - acc.toNat) % 65536 = _
  omega

/-! ## One buffer -/

/-- The value stands for a sum in the byte order of the machine. -/
structure Stands (acc : UInt32) (n : Nat) : Prop where
  small : acc.toNat ≤ 65535
  same : Same 65535 acc.toNat n

theorem stands_foldU32_foldU32 (sum : UInt32) : Stands (foldU32 (foldU32 sum)) sum.toNat := by
  constructor
  · rw [foldU32_exact, foldU32_exact]
    exact fold_le (fold_le_two sum.toNat_lt)
  · rw [foldU32_exact, foldU32_exact]
    exact (same_fold 65535 _).trans (same_fold 65535 _)

/-- A 16-bit value is added with one fold. -/
theorem Stands.add {value : UInt32} (stands : Stands acc n) (other : Stands value k) :
    Stands (foldU32 (acc + value)) (n + k) := by
  have left := stands.small
  have right := other.small
  have sum : (acc + value).toNat = acc.toNat + value.toNat := by
    rw [UInt32.toNat_add]
    omega
  constructor
  · rw [foldU32_exact, sum]
    exact fold_le (by omega)
  · rw [foldU32_exact, sum]
    exact (same_fold 65535 _).trans (stands.same.add other.same)

theorem Stands.swapped (stands : Stands acc n) : Stands (swapBytesInWord acc) (256 * n) := by
  constructor
  · rw [swapBytesInWord_exact stands.small]
    exact swap_le radix256 stands.small
  · rw [swapBytesInWord_exact stands.small]
    exact (same_swap radix256 _).trans (stands.same.mul_left 256)

/-- A value stands for every number that a sum cannot tell from its own. -/
theorem Stands.of_same (stands : Stands acc n) (same : Same 65535 n k) :
    Stands acc k := ⟨stands.small, stands.same.trans same⟩

theorem digits_lt (data : List UInt8) : ∀ digit ∈ digits data, digit < 256 := by
  intro digit member
  obtain ⟨byte, _, rfl⟩ := mem_map.1 member
  exact byte.toNat_lt

@[simp] theorem length_digits (data : List UInt8) : (digits data).length = data.length :=
  length_map UInt8.toNat

theorem digits_append (front back : List UInt8) :
    digits (front ++ back) = digits front ++ digits back := map_append

/-- The loop over words adds them up, without a carry out of 32 bits. -/
theorem chksumWords_exact (sum : UInt32) (data : List UInt8)
    (small : sum.toNat + 65536 * data.length < 4294967296) :
    (chksumWords sum data).1.toNat + ((chksumWords sum data).2.map UInt8.toNat).getD 0 =
      sum.toNat + pairSum 256 (digits data) := by
  induction sum, data using chksumWords.induct with
  | case1 sum => rfl
  | case2 sum last => rfl
  | case3 sum low high rest ih =>
    have lowByte := low.toNat_lt
    have highByte := high.toNat_lt
    have word : (sum + (low.toUInt32 + high.toUInt32 <<< 8)).toNat =
        sum.toNat + (low.toNat + 256 * high.toNat) := by
      rw [UInt32.toNat_add, UInt32.toNat_add, UInt32.toNat_shiftLeft, Nat.shiftLeft_eq]
      change (sum.toNat + (low.toNat + high.toNat * 256 % 4294967296) % 4294967296) %
        4294967296 = _
      simp only [length_cons] at small
      omega
    have step := ih (by
      simp only [length_cons] at small
      omega)
    rw [chksumWords, step, word]
    simp only [digits, map_cons, pairSum]
    omega

/-- The sum before the last folds, whatever the alignment is. -/
theorem chksumSum_exact (sum first : UInt32) (data : List UInt8) (byte : first.toNat ≤ 65280)
    (small : sum.toNat + 65536 * data.length ≤ 4294901760) :
    ((chksumWords sum data).1 +
        (first + ((chksumWords sum data).2.map UInt8.toUInt32).getD 0)).toNat =
      first.toNat + (sum.toNat + pairSum 256 (digits data)) := by
  have exactly := chksumWords_exact sum data (by omega)
  have bound := pairSum_le (digits_lt data)
  rw [length_digits] at bound
  have leftOver : (((chksumWords sum data).2.map UInt8.toUInt32).getD 0).toNat =
      ((chksumWords sum data).2.map UInt8.toNat).getD 0 := by
    cases (chksumWords sum data).2 <;> rfl
  have last : ((chksumWords sum data).2.map UInt8.toNat).getD 0 < 256 := by
    cases (chksumWords sum data).2 with
    | none => decide
    | some byte => exact byte.toNat_lt
  rw [UInt32.toNat_add, UInt32.toNat_add, leftOver]
  omega

theorem firstByte_exact (byte : UInt8) : (byte.toUInt32 <<< 8).toNat = 256 * byte.toNat := by
  have bound := byte.toNat_lt
  rw [UInt32.toNat_shiftLeft, Nat.shiftLeft_eq]
  change byte.toNat * 256 % 4294967296 = _
  omega

/-- A 16-bit value is the one that is returned. -/
theorem Stands.back (stands : Stands acc n) : Stands acc.toUInt16.toUInt32 n := by
  have keep : acc.toUInt16.toUInt32 = acc := by
    apply UInt32.toNat_inj.1
    have word := stands.small
    rw [UInt16.toNat_toUInt32, UInt32.toNat_toUInt16]
    omega
  rwa [keep]

theorem stands_even {sum : UInt32} (same : Same 65535 sum.toNat (pairSum 256 (digits data))) :
    Stands (foldU32 (foldU32 sum)).toUInt16.toUInt32 (256 * wordSum 256 (digits data)) :=
  ((stands_foldU32_foldU32 sum).of_same (same.trans (same_pairSum radix256 _))).back

/-- A sum from an odd address on: the first byte is the high byte of a word, the others are one
place behind it. -/
theorem stands_odd {sum : UInt32} {byte : UInt8}
    (same : Same 65535 sum.toNat (256 * byte.toNat + pairSum 256 (digits data))) :
    Stands (swapBytesInWord (foldU32 (foldU32 sum))).toUInt16.toUInt32
      (256 * wordSum 256 (digits (byte :: data))) := by
  have moved : Same 65535 (256 * byte.toNat + pairSum 256 (digits data))
      (wordSum 256 (digits (byte :: data))) :=
    ((Same.refl _ _).add (same_pairSum radix256 _)).trans (same_wordSum_cons radix256 _ _).symm
  exact ((stands_foldU32_foldU32 sum).of_same (same.trans moved)).swapped.back

/-- `lwip_standard_chksum` sums the words in the byte order of the machine, from even and from
odd addresses. -/
theorem lwipStandardChksum_stands (odd : Bool) (data : List UInt8) (small : data.length < 65536) :
    Stands (lwipStandardChksum odd data).toUInt32 (256 * wordSum 256 (digits data)) := by
  have none : (0 : UInt32).toNat = 0 := rfl
  cases odd with
  | false =>
    have sum := chksumSum_exact 0 0 data (by decide) (by omega)
    rw [none, Nat.zero_add, Nat.zero_add] at sum
    exact stands_even (by rw [sum]; exact Same.refl _ _)
  | true =>
    cases data with
    | nil => exact ⟨by decide, Same.refl _ _⟩
    | cons byte rest =>
      have bound := byte.toNat_lt
      have first := firstByte_exact byte
      rw [length_cons] at small
      have sum := chksumSum_exact 0 (byte.toUInt32 <<< 8) rest (by omega) (by omega)
      rw [first, none, Nat.zero_add] at sum
      exact stands_odd (by rw [sum]; exact Same.refl _ _)

/-! ## The other versions -/

theorem addOctets_exact (high low : UInt8) (room : acc.toNat < 4294901760) :
    (acc + (high.toUInt16 <<< 8 ||| low.toUInt16).toUInt32).toNat =
      acc.toNat + (256 * high.toNat + low.toNat) := by
  have first := high.toNat_lt
  have second := low.toNat_lt
  have shifted : (high.toUInt16 <<< 8).toNat = high.toNat * 256 := by
    rw [UInt16.toNat_shiftLeft, Nat.shiftLeft_eq]
    change high.toNat * 256 % 65536 = _
    omega
  have word : (high.toUInt16 <<< 8 ||| low.toUInt16).toNat = high.toNat * 256 + low.toNat := by
    rw [UInt16.toNat_or, shifted]
    exact bytes_or _ second
  rw [UInt32.toNat_add, UInt16.toNat_toUInt32, word]
  omega

/-- The first version adds up the words in network order. -/
theorem chksumOctets_exact (acc : UInt32) (data : List UInt8)
    (small : acc.toNat + 65536 * data.length < 4294967296) :
    (chksumOctets acc data).toNat = acc.toNat + wordSum 256 (digits data) := by
  induction acc, data using chksumOctets.induct with
  | case1 acc => rfl
  | case2 acc last =>
    rw [length_singleton] at small
    have padded : last.toUInt16 <<< 8 = last.toUInt16 <<< 8 ||| (0 : UInt8).toUInt16 :=
      UInt16.or_zero.symm
    rw [chksumOctets, padded, addOctets_exact last 0 (by omega)]
    rfl
  | case3 acc high low rest ih =>
    rw [length_cons, length_cons] at small
    have added := addOctets_exact high low (show acc.toNat < 4294901760 by omega)
    have first := high.toNat_lt
    have second := low.toNat_lt
    rw [chksumOctets, ih (by omega), added]
    simp only [digits, wordSum, map_cons, words, sum_cons]
    omega

/-- The second fold of the first version is made if it is needed. -/
theorem foldU32_if (acc : UInt32) :
    (if acc &&& 0xffff0000 ≠ 0 then foldU32 acc else acc) = foldU32 acc := by
  split
  · rfl
  rename_i masked
  have zero : (acc.toNat &&& 0xffff0000) >>> 16 = 0 := by
    have none := congrArg UInt32.toNat (not_not.mp masked)
    rw [UInt32.toNat_and] at none
    rw [show acc.toNat &&& 0xffff0000 = 0 from none]
    rfl
  rw [Nat.shiftRight_and_distrib, Nat.shiftRight_eq_div_pow] at zero
  have high : acc.toNat / 65536 % 65536 = 0 :=
    (Nat.and_two_pow_sub_one_eq_mod (acc.toNat / 65536) 16).symm.trans zero
  apply UInt32.toNat_inj.1
  have bound := acc.toNat_lt
  rw [foldU32_exact, fold]
  omega

/-- The first version returns the sum in the byte order of the machine. -/
theorem lwipStandardChksum1_stands (small : data.length < 65536) :
    Stands (lwipStandardChksum1 data).toUInt32 (256 * wordSum 256 (digits data)) := by
  have sum := chksumOctets_exact 0 data (by
    change 0 + 65536 * data.length < 4294967296
    omega)
  have stands := stands_foldU32_foldU32 (chksumOctets 0 data)
  rw [sum, show (0 : UInt32).toNat = 0 from rfl, Nat.zero_add] at stands
  have swapped := stands.swapped
  rw [lwipStandardChksum1, foldU32_if]
  have same : (lwipHtons (foldU32 (foldU32 (chksumOctets 0 data))).toUInt16).toUInt32 =
      swapBytesInWord (foldU32 (foldU32 (chksumOctets 0 data))) := by
    apply UInt32.toNat_inj.1
    have word := stands.small
    rw [UInt16.toNat_toUInt32, lwipHtons_exact, swapBytesInWord_exact word, UInt32.toNat_toUInt16,
      Nat.mod_eq_of_lt (by omega)]
  rw [same]
  exact swapped

/-- A 32-bit word is added like its two halves. -/
theorem addLong_same (sum : UInt32) (b0 b1 b2 b3 : UInt8) :
    Same 65535 (addLong sum b0 b1 b2 b3).toNat
      (sum.toNat + pairSum 256 (digits [b0, b1, b2, b3])) := by
  have small := sum.toNat_lt
  have d0 := b0.toNat_lt
  have d1 := b1.toNat_lt
  have d2 := b2.toNat_lt
  have d3 := b3.toNat_lt
  have word : (b0.toUInt32 + b1.toUInt32 <<< 8 + b2.toUInt32 <<< 16 + b3.toUInt32 <<< 24).toNat =
      b0.toNat + b1.toNat * 256 + b2.toNat * 65536 + b3.toNat * 16777216 := by
    simp only [UInt32.toNat_add, UInt32.toNat_shiftLeft, Nat.shiftLeft_eq, UInt8.toNat_toUInt32]
    change ((((b0.toNat + b1.toNat * 256 % 4294967296) % 4294967296 +
      b2.toNat * 65536 % 4294967296) % 4294967296 + b3.toNat * 16777216 % 4294967296) %
        4294967296) = _
    omega
  have pairs : pairSum 256 (digits [b0, b1, b2, b3]) =
      b0.toNat + 256 * b1.toNat + (b2.toNat + 256 * b3.toNat + 0) := rfl
  rw [addLong, pairs]
  generalize b0.toUInt32 + b1.toUInt32 <<< 8 + b2.toUInt32 <<< 16 + b3.toUInt32 <<< 24 = long
    at word
  have total : (sum + long).toNat = (sum.toNat + long.toNat) % 4294967296 := UInt32.toNat_add _ _
  have halves := same_add_mul (m := 65535)
    (n := sum.toNat + (b0.toNat + 256 * b1.toNat + (b2.toNat + 256 * b3.toNat + 0)))
    (b2.toNat + 256 * b3.toNat) (by omega)
  rw [show _ + 65535 * (b2.toNat + 256 * b3.toNat) = sum.toNat + long.toNat by omega] at halves
  split
  · rename_i wraps
    have carry := UInt32.lt_iff_toNat_lt.mp wraps
    have next : (sum + long + 1).toNat = sum.toNat + long.toNat - 4294967295 := by
      rw [UInt32.toNat_add]
      change ((sum + long).toNat + 1) % 4294967296 = _
      omega
    have back := same_add_mul (m := 65535) (n := sum.toNat + long.toNat - 4294967295) 65537
      (by omega)
    rw [show sum.toNat + long.toNat - 4294967295 + 65535 * 65537 = sum.toNat + long.toNat by
      omega] at back
    rw [next]
    exact back.symm.trans halves
  · rename_i fits
    have noCarry : ¬(sum + long).toNat < sum.toNat := fun wraps =>
      fits (UInt32.lt_iff_toNat_lt.mpr wraps)
    rw [show (sum + long).toNat = sum.toNat + long.toNat by omega]
    exact halves

/-- The unrolled loop keeps the sum and leaves less than eight bytes. -/
theorem chksumLongs_same (sum : UInt32) (data : List UInt8) :
    Same 65535 ((chksumLongs sum data).1.toNat + pairSum 256 (digits (chksumLongs sum data).2))
        (sum.toNat + pairSum 256 (digits data)) ∧ (chksumLongs sum data).2.length < 8 := by
  induction sum, data using chksumLongs.induct with
  | case1 sum b0 b1 b2 b3 b4 b5 b6 b7 rest ih =>
    have first := addLong_same sum b0 b1 b2 b3
    have second := addLong_same (addLong sum b0 b1 b2 b3) b4 b5 b6 b7
    rw [chksumLongs]
    refine ⟨ih.1.trans ?_, ih.2⟩
    have both := (second.trans (first.add (Same.refl _ _))).add
      (Same.refl 65535 (pairSum 256 (digits rest)))
    simpa [digits, pairSum, Nat.add_assoc] using both
  | case2 sum left short =>
    have whole : chksumLongs sum left = (sum, left) := by
      unfold chksumLongs
      split
      · exact absurd rfl (short _ _ _ _ _ _ _ _ _)
      · rfl
    rw [whole]
    refine ⟨Same.refl _ _, ?_⟩
    rcases left with _ | ⟨_, _ | ⟨_, _ | ⟨_, _ | ⟨_, _ | ⟨_, _ | ⟨_, _ | ⟨_, _ | ⟨_, _⟩⟩⟩⟩⟩⟩⟩⟩
    all_goals first | exact absurd rfl (short _ _ _ _ _ _ _ _ _) | simp

/-- What the third version has summed before its last loop. -/
theorem chksumBulk_same (ps : Nat) (data : List UInt8) :
    Same 65535 ((chksumBulk ps data).1.toNat + pairSum 256 (digits (chksumBulk ps data).2))
        (pairSum 256 (digits data)) ∧
      (chksumBulk ps data).1.toNat ≤ 131070 ∧ (chksumBulk ps data).2.length < 8 := by
  unfold chksumBulk
  split
  rename_i sum bulk aligned
  have whole : sum.toNat + pairSum 256 (digits bulk) = pairSum 256 (digits data) := by
    split at aligned
    · rename_i low high rest
      split at aligned
      · cases aligned
        have first := low.toNat_lt
        have second := high.toNat_lt
        have word : (low.toUInt32 + high.toUInt32 <<< 8).toNat = low.toNat + 256 * high.toNat := by
          rw [UInt32.toNat_add, firstByte_exact]
          exact Nat.mod_eq_of_lt (by rw [UInt8.toNat_toUInt32]; omega)
        rw [word]
        rfl
      · cases aligned
        exact Nat.zero_add _
    · cases aligned
      exact Nat.zero_add _
  have kept := chksumLongs_same sum bulk
  rw [whole] at kept
  dsimp only
  rw [foldU32_exact]
  exact ⟨((same_fold 65535 _).add (Same.refl _ _)).trans kept.1,
    fold_le_two (chksumLongs sum bulk).1.toNat_lt, kept.2⟩

/-- The third version returns the same sum. -/
theorem lwipStandardChksum3_stands (address : Nat) (data : List UInt8) :
    Stands (lwipStandardChksum3 address data).toUInt32 (256 * wordSum 256 (digits data)) := by
  have total (ps : Nat) (first : UInt32) (bulk : List UInt8) (byte : first.toNat ≤ 65280) :
      let sum := chksumBulk ps bulk
      let words := chksumWords sum.1 sum.2
      Same 65535 (words.1 + (first + (words.2.map UInt8.toUInt32).getD 0)).toNat
        (first.toNat + pairSum 256 (digits bulk)) := by
    have kept := chksumBulk_same ps bulk
    dsimp only
    rw [chksumSum_exact _ first _ byte (by omega)]
    exact (Same.refl _ _).add kept.1
  unfold lwipStandardChksum3
  cases parity : decide (address % 2 = 1) with
  | false =>
    have same := total address 0 data (by decide)
    rw [show (0 : UInt32).toNat = 0 from rfl, Nat.zero_add] at same
    exact stands_even same
  | true =>
    cases data with
    | nil => exact ⟨Nat.zero_le 65535, Same.refl 65535 0⟩
    | cons b rest =>
      have bound := b.toNat_lt
      have first := firstByte_exact b
      have same := total (address + 1) (b.toUInt32 <<< 8) rest (by omega)
      rw [first] at same
      exact stands_odd same

/-- The three versions of `lwip_standard_chksum` return the same value. -/
theorem lwipStandardChksum_versions (address : Nat) (data : List UInt8)
    (small : data.length < 65536) :
    lwipStandardChksum1 data = lwipStandardChksum (address % 2 = 1) data ∧
      lwipStandardChksum3 address data = lwipStandardChksum (address % 2 = 1) data := by
  have second := lwipStandardChksum_stands (address % 2 = 1) data small
  have same {value : UInt16} (stands : Stands value.toUInt32 (256 * wordSum 256 (digits data))) :
      value = lwipStandardChksum (address % 2 = 1) data :=
    UInt16.toNat_inj.1
      ((stands.same.trans second.same.symm).unique stands.small second.small)
  exact ⟨same (lwipStandardChksum1_stands small), same (lwipStandardChksum3_stands address data)⟩

/-- The versions on three bytes at an odd address. -/
theorem lwipStandardChksum_versions_three :
    lwipStandardChksum1 [1, 2, 3] = lwipStandardChksum true [1, 2, 3] ∧
      lwipStandardChksum3 5 [1, 2, 3] = lwipStandardChksum true [1, 2, 3] :=
  lwipStandardChksum_versions 5 [1, 2, 3] (by decide)

/-! ## Chains -/

/-- The part of a string behind the first buffer is held by the rest of the chain. -/
theorem Spells.tail {odd : Bool} {q : Pbuf} {next : AddressedChain} {data : List UInt8}
    (spells : Spells ((odd, q) :: next) data) :
    Spells next next.bytes ∧ q.bytes.length = q.len ∧ q.len < 65536 ∧
      data = q.bytes ++ next.bytes := by
  have rest : Spells next next.bytes :=
    { inMemory := fun other member => spells.inMemory other (mem_cons_of_mem _ member)
      fits := fun other member => spells.fits other (mem_cons_of_mem _ member)
      bytes := rfl }
  have both : AddressedChain.bytes ((odd, q) :: next) = q.bytes ++ next.bytes := flatMap_cons
  have inside := spells.inMemory (odd, q) mem_cons_self
  exact ⟨rest, Pbuf.length_bytes inside, spells.fits (odd, q) mem_cons_self,
    spells.bytes.symm.trans both⟩

/-- The loop over the chain: the accumulator has moved by one place for every byte, and `swapped`
tells whether that is an odd number. -/
theorem chksumChain_stands (spells : Spells chain data) (swapped : Bool) (stands : Stands acc n) :
    Stands (chksumChain acc swapped chain).1
        (256 ^ data.length * (n + 256 * wordSum 256 (digits data))) ∧
      (chksumChain acc swapped chain).2 = (swapped ^^ decide (data.length % 2 = 1)) := by
  induction chain generalizing acc n swapped data with
  | nil =>
    have empty : data = [] := spells.bytes.symm
    subst empty
    constructor
    · simpa [chksumChain, digits, wordSum, words] using stands
    · simp [chksumChain]
  | cons head next ih =>
    cases head with
    | mk odd q =>
      have parts := spells.tail
      have length := parts.2.1
      have added := stands.add (lwipStandardChksum_stands odd q.bytes (by omega))
      generalize AddressedChain.bytes next = rest at parts
      rw [parts.2.2.2]
      -- the places of the bytes behind this buffer
      have whole := same_running_append radix256 n (digits q.bytes) (digits rest)
      rw [← digits_append, length_digits, length_digits, length_digits] at whole
      have place := same_pow radix256 q.bytes.length (n + 256 * wordSum 256 (digits q.bytes))
      rw [length_append, length] at *
      by_cases parity : q.len % 2 = 1
      · rw [if_pos parity] at place
        have run := ih parts.1 (!swapped) (added.swapped.of_same place.symm)
        rw [chksumChain, if_pos (by omega)]
        constructor
        · exact run.1.of_same whole
        · rw [run.2]
          by_cases tailOdd : rest.length % 2 = 1
          · simp [tailOdd, show (q.len + rest.length) % 2 = 0 by omega]
          · simp [show rest.length % 2 = 0 by omega,
              show (q.len + rest.length) % 2 = 1 by omega]
      · rw [if_neg parity] at place
        have run := ih parts.1 swapped (added.of_same place.symm)
        rw [chksumChain, if_neg (by omega)]
        constructor
        · exact run.1.of_same whole
        · rw [run.2]
          have same : (q.len + rest.length) % 2 = rest.length % 2 := by omega
          rw [same]

/-- The accumulator behind the loop, swapped back: the sum of all bytes in the byte order of the
machine. -/
theorem chksumChain_sum (spells : Spells chain data) (stands : Stands acc n) :
    Stands (if (chksumChain acc false chain).2 then swapBytesInWord (chksumChain acc false chain).1
        else (chksumChain acc false chain).1) (n + 256 * wordSum 256 (digits data)) := by
  have run := chksumChain_stands spells false stands
  have place := same_pow radix256 data.length (n + 256 * wordSum 256 (digits data))
  rw [run.2, Bool.false_xor]
  by_cases parity : data.length % 2 = 1
  · rw [if_pos parity] at place
    rw [if_pos (by simpa using parity)]
    exact run.1.swapped.of_same ((place.mul_left 256).trans (same_square radix256 _))
  · rw [if_neg parity] at place
    rw [if_neg (by simpa using parity)]
    exact run.1.of_same place

/-! ## The Internet checksum -/

/-- The complement of a sum in the byte order of the machine, read in network order, is the
Internet checksum of the summed bytes. -/
theorem lwipHtons_complement (stands : Stands acc (256 * wordSum 256 (digits data))) :
    (lwipHtons (~~~(acc &&& 0xffff)).toUInt16).toNat = internetChecksum data := by
  have small := stands.small
  have sum : swap 256 acc.toNat = onesSum 65535 (words 256 (digits data)) := by
    apply Same.unique _ (swap_le radix256 small)
      (onesSum_le (words_le radix256 (digits_lt data)))
    have network : Same 65535 (swap 256 acc.toNat) (wordSum 256 (digits data)) :=
      ((same_swap radix256 _).trans (stands.same.mul_left 256)).trans (same_square radix256 _)
    exact network.trans (same_onesSum 65535 _).symm
  rw [lwipHtons_exact, complement_exact small, internetChecksum, ← sum]
  unfold swap
  omega

/-- The accumulator of `inet_chksum_pbuf` before the complement. -/
theorem inetChksumPbuf_stands (spells : Spells chain data) :
    ∃ acc, Stands acc (256 * wordSum 256 (digits data)) ∧
      inetChksumPbuf chain = (~~~(acc &&& 0xffff)).toUInt16 := by
  have zero : Stands 0 0 := ⟨by decide, Same.refl _ _⟩
  have sum := chksumChain_sum spells zero
  rw [Nat.zero_add] at sum
  exact ⟨_, sum, rfl⟩

/-- The addresses of the pseudo header, folded. -/
theorem addresses_stand (src dest : UInt32) :
    Stands (foldU32 (foldU32 ((src &&& (0xffff : UInt32)) + (src >>> 16 &&& (0xffff : UInt32)) +
      (dest &&& (0xffff : UInt32)) + (dest >>> 16 &&& (0xffff : UInt32)))))
      (256 * wordSum 256 (digits (addrBytes src ++ addrBytes dest))) := by
  apply (stands_foldU32_foldU32 _).of_same
  have low (addr : UInt32) : (addr &&& 0xffff).toNat = addr.toNat % 65536 := by
    rw [UInt32.toNat_and]
    exact Nat.and_two_pow_sub_one_eq_mod addr.toNat 16
  have high (addr : UInt32) : ((addr >>> 16) &&& 0xffff).toNat = addr.toNat / 65536 := by
    have bound := addr.toNat_lt
    rw [low, UInt32.toNat_shiftRight, Nat.shiftRight_eq_div_pow]
    change addr.toNat / 65536 % 65536 = _
    omega
  have bytes (addr : UInt32) : digits (addrBytes addr) =
      [addr.toNat % 256, addr.toNat / 256 % 256, addr.toNat / 65536 % 256,
        addr.toNat / 16777216 % 256] := by
    simp [digits, addrBytes, Nat.shiftRight_eq_div_pow]
  have lowHalf (n : Nat) : n % 65536 = n % 256 + 256 * (n / 256 % 256) := by omega
  have highHalf (n : Nat) (bound : n < 4294967296) :
      n / 65536 = n / 65536 % 256 + 256 * (n / 16777216 % 256) := by omega
  have sum : ((src &&& (0xffff : UInt32)) + (src >>> 16 &&& (0xffff : UInt32)) +
      (dest &&& (0xffff : UInt32)) + (dest >>> 16 &&& (0xffff : UInt32))).toNat =
        pairSum 256 (digits (addrBytes src ++ addrBytes dest)) := by
    rw [digits_append, bytes, bytes, UInt32.toNat_add, UInt32.toNat_add, UInt32.toNat_add,
      high, high, low, low]
    have srcBound : src.toNat / 65536 < 65536 := by have := src.toNat_lt; omega
    have destBound : dest.toNat / 65536 < 65536 := by have := dest.toNat_lt; omega
    simp only [cons_append, nil_append, pairSum]
    rw [← Nat.add_assoc (_ + _), ← lowHalf, ← highHalf _ src.toNat_lt, ← lowHalf,
      ← highHalf _ dest.toNat_lt]
    omega
  rw [sum]
  exact same_pairSum radix256 _

/-- The end of `inet_cksum_pseudo_base`: protocol and length complete the pseudo header. -/
theorem Stands.pseudo {src dest : UInt32}
    (chainSum : Stands acc (256 * wordSum 256 (digits (addrBytes src ++ addrBytes dest)) + 256 *
      wordSum 256 (digits data)))
    (proto : UInt8) (protoLen : UInt16) :
    Stands (foldU32 (foldU32
        (acc + (lwipHtons proto.toUInt16).toUInt32 + (lwipHtons protoLen).toUInt32)))
      (256 * wordSum 256 (digits (pseudoHeader proto protoLen src dest ++ data))) := by
  have small := chainSum.small
  have protoBound := (lwipHtons proto.toUInt16).toNat_lt
  have lenBound := (lwipHtons protoLen).toNat_lt
  have sum : (acc + (lwipHtons proto.toUInt16).toUInt32 + (lwipHtons protoLen).toUInt32).toNat =
      acc.toNat + swap 256 proto.toNat + swap 256 protoLen.toNat := by
    have protoSwap := lwipHtons_exact proto.toUInt16
    rw [UInt8.toNat_toUInt16] at protoSwap
    rw [UInt32.toNat_add, UInt32.toNat_add, UInt16.toNat_toUInt32, UInt16.toNat_toUInt32,
      ← protoSwap, ← lwipHtons_exact protoLen]
    omega
  have stands := stands_foldU32_foldU32
    (acc + (lwipHtons proto.toUInt16).toUInt32 + (lwipHtons protoLen).toUInt32)
  rw [sum] at stands
  apply stands.of_same
  have header : 256 * wordSum 256 (digits (pseudoHeader proto protoLen src dest ++ data)) =
      256 * wordSum 256 (digits (addrBytes src ++ addrBytes dest)) +
        256 * wordSum 256 (digits data) + 256 * proto.toNat + 256 * protoLen.toNat := by
    have fields : wordSum 256 (digits [0, proto, (protoLen >>> 8).toUInt8, protoLen.toUInt8]) =
        proto.toNat + protoLen.toNat := by
      have bound := protoLen.toNat_lt
      simp [digits, wordSum, words, Nat.shiftRight_eq_div_pow]
      omega
    rw [pseudoHeader, append_assoc, digits_append (addrBytes src ++ addrBytes dest),
      digits_append _ data, wordSum_append_even 256 (by simp [addrBytes]),
      wordSum_append_even 256 (by simp), fields]
    omega
  rw [header]
  exact (chainSum.same.add (same_swap radix256 _)).add (same_swap radix256 _)

/-- The accumulator of `inet_chksum_pseudo` before the complement. -/
theorem inetChksumPseudo_stands (spells : Spells chain data) (proto : UInt8) (protoLen : UInt16)
    (src dest : UInt32) :
    ∃ acc,
      Stands acc (256 * wordSum 256 (digits (pseudoHeader proto protoLen src dest ++ data))) ∧
      inetChksumPseudo chain proto protoLen src dest = (~~~(acc &&& 0xffff)).toUInt16 :=
  ⟨_, (chksumChain_sum spells (addresses_stand src dest)).pseudo proto protoLen, rfl⟩

/-- A field inside a string, with the parts around it. -/
theorem split_at_field {i : Nat} {x y : UInt8} (first : data[i]? = some x)
    (second : data[i + 1]? = some y) :
    data = data.take i ++ [x, y] ++ data.drop (i + 2) ∧ (data.take i).length = i := by
  have bound := (List.getElem?_eq_some_iff.1 second).1
  constructor
  · have whole := (take_append_drop i data).symm
    rw [drop_eq_getElem_cons (by omega), drop_eq_getElem_cons bound] at whole
    rw [getElem?_eq_getElem (by omega), Option.some.injEq] at first second
    rw [first, second] at whole
    simpa using whole
  · rw [length_take]
    omega

/-- Storing a value into a field that was zero adds it to the sum, in network order. -/
theorem wordSum_setHostU16 {i : Nat} (even : i % 2 = 0) (first : data[i]? = some 0)
    (second : data[i + 1]? = some 0) (v : UInt16) :
    wordSum 256 (digits (setHostU16 data i v)) =
      wordSum 256 (digits data) + swap 256 v.toNat := by
  have parts := split_at_field first second
  generalize data.take i = front at parts
  generalize data.drop (i + 2) = back at parts
  have stored : setHostU16 data i v = front ++ [v.toUInt8, (v >>> 8).toUInt8] ++ back := by
    rw [parts.1, ← parts.2, setHostU16]
    simp
  have evenFront : (digits front).length % 2 = 0 := by rw [length_digits, parts.2, even]
  have bound := v.toNat_lt
  rw [stored, parts.1]
  simp only [digits_append, append_assoc]
  rw [wordSum_append_even 256 evenFront, wordSum_append_even 256 evenFront,
    wordSum_append_even 256 (by simp), wordSum_append_even 256 (by simp)]
  simp [digits, wordSum, words, Nat.shiftRight_eq_div_pow, swap]
  omega

/-- A sum with the stored checksum in it is complete: the complement of the completed sum is
zero. -/
theorem complement_of_stored {acc' : UInt32} (stands : Stands acc (256 * n))
    (stored : k = n + swap 256 (~~~(acc &&& 0xffff)).toUInt16.toNat)
    (stands' : Stands acc' (256 * k)) : (~~~(acc' &&& 0xffff)).toUInt16 = 0 := by
  have small := stands.small
  have total : Same 65535 (256 * k) 65535 := by
    rw [stored, complement_exact small, Nat.mul_add]
    have field := ((same_swap radix256 (65535 - acc.toNat)).mul_left 256).trans
      (same_square radix256 _)
    have sum := stands.same.symm.add field
    rwa [Nat.add_sub_cancel' small] at sum
  have full : acc'.toNat = 65535 := (stands'.same.trans total).unique stands'.small (Nat.le_refl _)
  apply UInt16.toNat_inj.1
  rw [complement_exact stands'.small, full]
  rfl

/-- `inet_chksum` of a string in one piece, at any address. -/
theorem inetChksum_stands (odd : Bool) (small : data.length < 65536) :
    ∃ acc, Stands acc (256 * wordSum 256 (digits data)) ∧
      inetChksum odd data = (~~~(acc &&& 0xffff)).toUInt16 := by
  have stands := lwipStandardChksum_stands odd data small
  refine ⟨_, stands, ?_⟩
  apply UInt16.toNat_inj.1
  rw [complement_exact stands.small, inetChksum, UInt16.toNat_not]
  rfl

/-- Over any chain, the functions return the Internet checksum of the bytes, with the pseudo
header in front of them for `inet_chksum_pseudo`, in network order; so does `inet_chksum` over
the bytes in one piece. If the value is stored into a field at an even offset that was zero, the
same function returns zero for every chain with the new bytes. -/
theorem inetChksum_chain {chain : AddressedChain} {data : List UInt8} (spells : Spells chain data)
    (proto : UInt8) (protoLen : UInt16) (src dest : UInt32) :
    (lwipHtons (inetChksumPbuf chain)).toNat = internetChecksum data ∧
    (lwipHtons (inetChksumPseudo chain proto protoLen src dest)).toNat =
      internetChecksum (pseudoHeader proto protoLen src dest ++ data) ∧
    (∀ odd, data.length < 65536 → inetChksum odd data = inetChksumPbuf chain) ∧
    (∀ i, i % 2 = 0 → data[i]? = some 0 → data[i + 1]? = some 0 → ∀ stored,
      (Spells stored (setHostU16 data i (inetChksumPbuf chain)) → inetChksumPbuf stored = 0) ∧
      (Spells stored (setHostU16 data i (inetChksumPseudo chain proto protoLen src dest)) →
        inetChksumPseudo stored proto protoLen src dest = 0)) := by
  obtain ⟨acc, stands, value⟩ := inetChksumPbuf_stands spells
  obtain ⟨pseudoAcc, pseudoStands, pseudoValue⟩ :=
    inetChksumPseudo_stands spells proto protoLen src dest
  have headerEven : (digits (pseudoHeader proto protoLen src dest)).length % 2 = 0 := by
    simp [pseudoHeader, addrBytes]
  constructor
  · rw [value, lwipHtons_complement stands]
  constructor
  · rw [pseudoValue, lwipHtons_complement pseudoStands]
  constructor
  · intro odd small
    obtain ⟨whole, wholeStands, wholeValue⟩ := inetChksum_stands odd small
    have same : lwipHtons (inetChksum odd data) = lwipHtons (inetChksumPbuf chain) := by
      apply UInt16.toNat_inj.1
      rw [wholeValue, value, lwipHtons_complement wholeStands, lwipHtons_complement stands]
    exact lwipHtons_injective same
  intro i even first second stored
  constructor
  · intro storedSpells
    obtain ⟨acc', stands', value'⟩ := inetChksumPbuf_stands storedSpells
    rw [value']
    apply complement_of_stored stands _ stands'
    rw [wordSum_setHostU16 even first second, value]
  · intro storedSpells
    obtain ⟨acc', stands', value'⟩ := inetChksumPseudo_stands storedSpells proto protoLen src dest
    rw [value']
    apply complement_of_stored pseudoStands _ stands'
    rw [digits_append, digits_append, wordSum_append_even 256 headerEven,
      wordSum_append_even 256 headerEven, wordSum_setHostU16 even first second, pseudoValue]
    omega

/-- Five bytes in three buffers, one of them empty and two of odd length. -/
def fiveBytes : AddressedChain :=
  [(true, pbufRam 1 [0x45]), (false, pbufRam 0 []), (true, pbufRam 3 [0, 0, 0, 7])]

/-- A data set for the theorem: the field at offset 2 lies behind the empty buffer, and the bytes
with the checksum in it are in one buffer. -/
theorem inetChksum_chain_fiveBytes :
    Spells fiveBytes [0x45, 0, 0, 0, 7] ∧
    (lwipHtons (inetChksumPbuf fiveBytes)).toNat = internetChecksum [0x45, 0, 0, 0, 7] ∧
    inetChksumPbuf
      [(false, pbufRam 0 (setHostU16 [0x45, 0, 0, 0, 7] 2 (inetChksumPbuf fiveBytes)))] = 0 := by
  have spells : Spells fiveBytes [0x45, 0, 0, 0, 7] :=
    { inMemory := by decide, fits := by decide, bytes := by decide }
  have result := inetChksum_chain spells 17 5 0x0100007f 0x0200007f
  have stored := (result.2.2.2 2 (by decide) (by decide) (by decide)
    [(false, pbufRam 0 (setHostU16 [0x45, 0, 0, 0, 7] 2 (inetChksumPbuf fiveBytes)))]).1
  exact ⟨spells, result.1, stored { inMemory := by decide, fits := by decide, bytes := by decide }⟩

/-! ## The front of a chain -/

/-- The front of a chain with at most `n` bytes. -/
def AddressedChain.clip (n : Nat) : AddressedChain → AddressedChain
  | [] => []
  | (odd, q) :: next =>
    if n = 0 then [] else (odd, { q with len := min q.len n }) :: clip (n - min q.len n) next

theorem clipped_bytes (q : Pbuf) (n : Nat) :
    Pbuf.bytes { q with len := min q.len n } = q.bytes.take (min q.len n) := by
  simp [Pbuf.bytes, take_take]

/-- The front of a chain holds the front of the string. -/
theorem Spells.clip (spells : Spells chain data) (n : Nat) :
    Spells (chain.clip n) (data.take n) := by
  induction chain generalizing data n with
  | nil =>
    have empty : data = [] := spells.bytes.symm
    rw [empty, take_nil]
    exact ⟨nofun, nofun, rfl⟩
  | cons head next ih =>
    cases head with
    | mk odd q =>
      have parts := spells.tail
      have inside := spells.inMemory (odd, q) mem_cons_self
      unfold AddressedChain.clip
      split
      · rename_i none'
        rw [none', take_zero]
        exact ⟨nofun, nofun, rfl⟩
      have rest := ih parts.1 (n - min q.len n)
      have behind : n - min q.len n = n - q.bytes.length := by omega
      constructor
      · exact forall_mem_cons.mpr ⟨by dsimp only at inside ⊢; omega, rest.inMemory⟩
      · exact forall_mem_cons.mpr ⟨by dsimp only; omega, rest.fits⟩
      · rw [parts.2.2.2, take_append, ← behind, ← rest.bytes, AddressedChain.bytes, flatMap_cons,
          clipped_bytes, Nat.min_comm,
          ← parts.2.1, ← take_eq_take_min]
        rfl

/-- The accumulator in the byte order of the machine. -/
def unswapped (result : UInt32 × Bool) : UInt32 :=
  if result.2 then swapBytesInWord result.1 else result.1

/-- A swap that `swapped` tells of makes no difference. -/
theorem unswapped_swap (small : acc.toNat ≤ 65535) (swapped : Bool) :
    unswapped (swapBytesInWord acc, !swapped) = unswapped (acc, swapped) := by
  have twice : swapBytesInWord (swapBytesInWord acc) = acc := by
    apply UInt32.toNat_inj.1
    have once := swapBytesInWord_exact small
    rw [swapBytesInWord_exact (by rw [once]; exact swap_le radix256 small), once]
    unfold swap
    omega
  cases swapped
  · exact twice
  · rfl

/-- The loop over the front of a chain. The last buffer may be swapped by the parity of a length
that it was not summed to, which `swapped` undoes. -/
theorem chksumChainPartial_clip (spells : Spells chain data) (swapped : Bool)
    (small : acc.toNat ≤ 65535) (short : ∀ q ∈ chain.head?, n < q.2.len + 0x7fff) :
    ∃ result, chksumChainPartial acc swapped n chain = .ok result ∧
      unswapped result = unswapped (chksumChain acc swapped (chain.clip n)) := by
  induction chain generalizing acc swapped n data with
  | nil => exact ⟨_, rfl, rfl⟩
  | cons head next ih =>
    cases head with
    | mk odd q =>
      have parts := spells.tail
      have first : n < q.len + 0x7fff := short (odd, q) rfl
      rw [chksumChainPartial, AddressedChain.clip]
      by_cases done : n = 0
      · rw [if_pos done, if_pos done]
        exact ⟨_, rfl, rfl⟩
      rw [if_neg done, if_neg done]
      dsimp only
      rw [lwipAssert_pos (by omega), ok_bind, chksumChain, clipped_bytes]
      have stands : Stands acc acc.toNat := ⟨small, Same.refl _ _⟩
      have added := stands.add
        (lwipStandardChksum_stands odd (q.bytes.take (min q.len n)) (by
          rw [length_take]
          omega))
      generalize foldU32 (acc + _) = sum at added
      by_cases whole : q.len ≤ n
      · rw [Nat.min_eq_left whole]
        have later (acc : UInt32) (swapped : Bool) (small : acc.toNat ≤ 65535) :=
          ih parts.1 swapped small (n := n - q.len) fun _ _ => by omega
        split
        · exact later _ _ added.swapped.small
        · exact later _ _ added.small
      · have last (acc : UInt32) (swapped : Bool) :
            chksumChainPartial acc swapped 0 next = .ok (acc, swapped) := by
          cases next <;> rfl
        have none' : AddressedChain.clip 0 next = [] := by
          cases next <;> rfl
        rw [Nat.min_eq_right (by omega), Nat.sub_self, last, last, none', chksumChain, chksumChain]
        have same := unswapped_swap added.small swapped
        refine ⟨_, (apply_ite Except.ok _ _ _).symm, ?_⟩
        split <;> split <;> simp only [same]

/-- `inet_chksum_pseudo_partial` returns the Internet checksum of the pseudo header and the front
of the chain exactly if at most 0x7ffe bytes are left behind the first buffer. -/
theorem inetChksumPseudoPartial_iff {chain : AddressedChain} {data : List UInt8}
    (spells : Spells chain data) (proto : UInt8) (protoLen : UInt16) (chksumLen : Nat)
    (src dest : UInt32) :
    (∃ value, inetChksumPseudoPartial chain proto protoLen chksumLen src dest = .ok value ∧
      (lwipHtons value).toNat =
        internetChecksum (pseudoHeader proto protoLen src dest ++ data.take chksumLen)) ↔
      ∀ q ∈ chain.head?, chksumLen < q.2.len + 0x7fff := by
  have stands := addresses_stand src dest
  constructor
  · intro given q first
    obtain ⟨value, returns, _⟩ := given
    by_contra long
    cases chain with
    | nil => cases first
    | cons head next =>
      cases first
      rw [inetChksumPseudoPartial, inetCksumPseudoPartialBase, chksumChainPartial,
        if_neg (by omega)] at returns
      dsimp only at returns
      rw [lwipAssert_neg (by omega)] at returns
      cases returns
  · intro short
    obtain ⟨result, returns, same⟩ := chksumChainPartial_clip spells false stands.small short
    have sum := chksumChain_sum (spells.clip chksumLen) stands
    change Stands (unswapped _) _ at sum
    rw [← same] at sum
    refine ⟨_, ?_, lwipHtons_complement (sum.pseudo proto protoLen)⟩
    rw [inetChksumPseudoPartial, inetCksumPseudoPartialBase, returns]
    rfl

/-- The first two bytes of five. -/
theorem inetChksumPseudoPartial_iff_two :
    ∃ value, inetChksumPseudoPartial fiveBytes 17 5 2 0x0100007f 0x0200007f = .ok value ∧
      (lwipHtons value).toNat =
        internetChecksum (pseudoHeader 17 5 0x0100007f 0x0200007f ++ [0x45, 0]) := by
  have spells : Spells fiveBytes [0x45, 0, 0, 0, 7] :=
    { inMemory := by decide, fits := by decide, bytes := by decide }
  exact (inetChksumPseudoPartial_iff spells 17 5 2 0x0100007f 0x0200007f).mpr
    (by simp [fiveBytes])

/-- The assertion fails behind an empty first buffer if 0x7fff bytes are to be summed. -/
theorem inetChksumPseudoPartial_asserts :
    inetChksumPseudoPartial [(false, pbufRam 0 []), (false, pbufRam 0 (List.replicate 0x7fff 0))]
      17 5 0x7fff 0 0 = .error "delete me" := by
  rfl

end Lwip
