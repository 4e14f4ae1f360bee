import Lwip.Base.Serial
import Lwip.Core.TcpApi
import Lwip.Verif.Assertions

/-!
# Sequence numbers as places

The comparisons of sequence numbers decide the order of places in the byte stream as long as
the places are less than `2 ^ 31` apart. The test for an interval also accepts one number
outside of it when the interval is empty: for the window test that is a segment `2 ^ 31 - 1`
ahead of an empty window, for the trimming of the left edge a segment of length one that lies
`2 ^ 31` behind.
-/

namespace Lwip

open Serial

/-! ## Signed differences -/

/-- The signed difference of two places is their distance. -/
theorem toS32_place_sub (base : UInt32) {m n : Nat} (behind : n ≤ m + 2147483648)
    (ahead : m < n + 2147483648) : toS32 (place base m - place base n) = (m : Int) - n := by
  rcases Nat.lt_or_ge m n with order | order
  · have difference := toNat_place_sub_of_lt base order (by omega)
    rw [toS32, if_neg (by omega), difference]
    omega
  · have difference := toNat_place_sub_of_le base order (by omega)
    rw [toS32, if_pos (by omega), difference]
    omega

section Compare

variable (base : UInt32) {m n : Nat}

section

variable (behind : n ≤ m + 2147483648) (ahead : m < n + 2147483648)

include behind ahead

theorem seqLt_place : seqLt (place base m) (place base n) = true ↔ m < n := by
  rw [seqLt, decide_eq_true_iff, toS32_place_sub base behind ahead]
  omega

theorem seqLeq_place : seqLeq (place base m) (place base n) = true ↔ m ≤ n := by
  rw [seqLeq, decide_eq_true_iff, toS32_place_sub base behind ahead]
  omega

theorem seqGt_place : seqGt (place base m) (place base n) = true ↔ n < m := by
  rw [seqGt, decide_eq_true_iff, toS32_place_sub base behind ahead]
  omega

theorem seqGeq_place : seqGeq (place base m) (place base n) = true ↔ n ≤ m := by
  rw [seqGeq, decide_eq_true_iff, toS32_place_sub base behind ahead]
  omega

end

end Compare

/-- The sign of a difference, in terms of its unsigned value. -/
theorem toS32_nonneg_iff (x : UInt32) : 0 ≤ toS32 x ↔ x.toNat < 2147483648 := by
  have bound := x.toNat_lt
  unfold toS32
  split <;> omega

/-- A difference that is not positive, in terms of its unsigned value. -/
theorem toS32_nonpos_iff (x : UInt32) : toS32 x ≤ 0 ↔ x.toNat = 0 ∨ 2147483648 ≤ x.toNat := by
  have bound := x.toNat_lt
  unfold toS32
  split <;> omega

/-- What the test for the receive window accepts. -/
theorem seqBetween_window_iff (seqno rcvNxt : UInt32) {rcvWnd : Nat} (small : rcvWnd < 65536) :
    seqBetween seqno rcvNxt (rcvNxt + UInt32.ofNat rcvWnd - 1) = true ↔
      (seqno - rcvNxt).toNat < rcvWnd ∨
        (rcvWnd = 0 ∧ (seqno - rcvNxt).toNat = 2147483647) := by
  have expected := rcvNxt.toNat_lt
  have width : (UInt32.ofNat rcvWnd).toNat = rcvWnd := UInt32.toNat_ofNat_of_lt'
    (Nat.lt_trans small (by decide))
  have one : (1 : UInt32).toNat = 1 := rfl
  simp only [seqBetween, seqGeq, seqLeq, Bool.and_eq_true, decide_eq_true_iff, ge_iff_le,
    toS32_nonneg_iff, toS32_nonpos_iff, UInt32.toNat_sub, UInt32.toNat_add, width, one]
  omega

/-- What the test for trimming the left edge accepts. -/
theorem seqBetween_left_iff (seqno rcvNxt : UInt32) {tcplen : Nat} (positive : 0 < tcplen)
    (small : tcplen < 65536) :
    seqBetween rcvNxt (seqno + 1) (seqno + UInt32.ofNat tcplen - 1) = true ↔
      (0 < (rcvNxt - seqno).toNat ∧ (rcvNxt - seqno).toNat < tcplen) ∨
        (tcplen = 1 ∧ (rcvNxt - seqno).toNat = 2147483648) := by
  have here := seqno.toNat_lt
  have width : (UInt32.ofNat tcplen).toNat = tcplen := UInt32.toNat_ofNat_of_lt'
    (Nat.lt_trans small (by decide))
  have one : (1 : UInt32).toNat = 1 := rfl
  simp only [seqBetween, seqGeq, seqLeq, Bool.and_eq_true, decide_eq_true_iff, ge_iff_le,
    toS32_nonneg_iff, toS32_nonpos_iff, UInt32.toNat_sub, UInt32.toNat_add, width, one]
  omega

end Lwip
