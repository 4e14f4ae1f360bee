import Mathlib.Data.List.Basic

/-!
# Slices of a sequence

The elements of a list from a place on, up to a number of them. Slices that adjoin make up a
longer slice, and cutting a slice on either side gives a slice again.
-/

namespace Slice

open List

variable {α : Type}

/-- The `len` elements from place `n` on. -/
def slice (s : List α) (n len : Nat) : List α := (s.drop n).take len

/-- The length of a slice inside the list. -/
theorem length_slice {s : List α} {n len : Nat} (within : n + len ≤ s.length) :
    (slice s n len).length = len := by
  unfold slice
  rw [length_take, length_drop]
  omega

/-- A slice of no elements. -/
@[simp] theorem slice_zero (s : List α) (n : Nat) : slice s n 0 = [] := by
  simp [slice]

/-- A slice at the start of the list. -/
theorem slice_from_start (s : List α) (len : Nat) : slice s 0 len = s.take len := by
  simp [slice]

/-- The front of a slice. -/
theorem take_slice (s : List α) (n : Nat) {len m : Nat} (shorter : m ≤ len) :
    (slice s n len).take m = slice s n m := by
  unfold slice
  rw [take_take, Nat.min_eq_left shorter]

/-- The back of a slice. -/
theorem drop_slice (s : List α) (n len m : Nat) :
    (slice s n len).drop m = slice s (n + m) (len - m) := by
  unfold slice
  rw [drop_take, drop_drop]

/-- Slices that adjoin. -/
theorem slice_append (s : List α) (n len more : Nat) :
    slice s n len ++ slice s (n + len) more = slice s n (len + more) := by
  unfold slice
  rw [take_add, drop_drop]

end Slice
