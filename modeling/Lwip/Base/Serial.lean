import Mathlib.Data.UInt

/-!
# Serial numbers

Numbers of 32 bits that count the places of an unbounded sequence. Two places less than
`2 ^ 32` apart have different numbers, and the difference of their numbers tells how far
apart they are.
-/

namespace Serial

/-- The number of the place `n` of a sequence that starts at `base`. -/
def place (base : UInt32) (n : Nat) : UInt32 := base + UInt32.ofNat n

/-- The first place has the number of the base. -/
@[simp] theorem place_zero (base : UInt32) : place base 0 = base := by
  simp [place]

/-- Numbers are added as places are. -/
@[simp] theorem place_add (base : UInt32) (n k : Nat) :
    place base n + UInt32.ofNat k = place base (n + k) := by
  rw [place, place, UInt32.ofNat_add, UInt32.add_assoc]

/-- The number of the next place. -/
@[simp] theorem place_add_one (base : UInt32) (n : Nat) : place base n + 1 = place base (n + 1) :=
  place_add base n 1

/-- The number of the place before. -/
theorem place_sub_one (base : UInt32) {n : Nat} (positive : 0 < n) :
    place base n - 1 = place base (n - 1) := by
  have forward := place_add_one base (n - 1)
  rw [Nat.sub_add_cancel positive] at forward
  rw [← forward, UInt32.add_sub_cancel]

/-- The difference of a later number from an earlier one. -/
theorem toNat_place_sub_of_le (base : UInt32) {m n : Nat} (order : m ≤ n)
    (near : n - m < 4294967296) : (place base n - place base m).toNat = n - m := by
  have split : place base n = place base m + UInt32.ofNat (n - m) := by
    rw [place_add, Nat.add_sub_cancel' order]
  rw [split, UInt32.add_comm, UInt32.add_sub_cancel]
  exact UInt32.toNat_ofNat_of_lt' near

/-- The difference of an earlier number from a later one wraps. -/
theorem toNat_place_sub_of_lt (base : UInt32) {m n : Nat} (order : n < m)
    (near : m - n < 4294967296) :
    (place base n - place base m).toNat = 4294967296 - (m - n) := by
  have forward := toNat_place_sub_of_le base (Nat.le_of_lt order) near
  rw [UInt32.toNat_sub] at forward ⊢
  have small := (place base n).toNat_lt
  have large := (place base m).toNat_lt
  omega

/-- Every number is the number of a place at most a given distance behind. -/
theorem exists_place (base x : UInt32) : ∃ n, n < 4294967296 ∧ x = place base n := by
  refine ⟨(x - base).toNat, (x - base).toNat_lt, ?_⟩
  rw [place, UInt32.ofNat_toNat, UInt32.add_comm, UInt32.sub_add_cancel]

/-- Places with the same number that are near to each other are the same. -/
theorem place_inj (base : UInt32) {m n : Nat} (same : place base m = place base n)
    (near : n - m < 4294967296) (far : m - n < 4294967296) : m = n := by
  have difference : (place base n - place base m).toNat = 0 := by simp [same]
  rcases Nat.lt_or_ge n m with order | order
  · rw [toNat_place_sub_of_lt base order far] at difference
    omega
  · rw [toNat_place_sub_of_le base order near] at difference
    omega

end Serial
