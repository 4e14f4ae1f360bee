import Mathlib.Data.List.Basic

/-!
# Overwriting a part of a sequence

Elements of a list are replaced from a place on. A replacement inside one of two parts leaves the
other part alone, a replacement across the border is one in each part, and replacements that
adjoin are one replacement.
-/

namespace Overwrite

open List

variable {α : Type}
variable {n : Nat} {front : List α}

/-- The sequence with `data` in the place of what stands from `n` on. -/
def overwrite (s : List α) (n : Nat) (data : List α) : List α :=
  s.take n ++ data ++ s.drop (n + data.length)

/-- Nothing is replaced by nothing. -/
@[simp] theorem overwrite_nil (s : List α) (n : Nat) : overwrite s n [] = s := by
  simp [overwrite]

/-- A replacement that fits keeps the length. -/
theorem length_overwrite {s : List α} {data : List α} (within : n + data.length ≤ s.length) :
    (overwrite s n data).length = s.length := by
  simp only [overwrite, length_append, length_take, length_drop]
  omega

/-- A replacement inside the first part. -/
theorem overwrite_append_left (back : List α) {data : List α}
    (within : n + data.length ≤ front.length) :
    overwrite (front ++ back) n data = overwrite front n data ++ back := by
  unfold overwrite
  rw [take_append_of_le_length (by omega), drop_append_of_le_length within]
  simp only [append_assoc]

/-- A replacement inside the second part. -/
theorem overwrite_append_right (back : List α) (data : List α) (behind : front.length ≤ n) :
    overwrite (front ++ back) n data = front ++ overwrite back (n - front.length) data := by
  unfold overwrite
  rw [take_append, drop_append, take_of_length_le behind,
    drop_of_length_le (by omega), nil_append, append_assoc, append_assoc,
    append_assoc]
  congr 4
  omega

/-- A replacement by two parts is a replacement by each of them. -/
theorem overwrite_append (s : List α) (first second : List α)
    (within : n + first.length ≤ s.length) :
    overwrite s n (first ++ second) = overwrite (overwrite s n first) (n + first.length)
      second := by
  have front : (s.take n ++ first).length = n + first.length := by
    simp only [length_append, length_take]
    omega
  have gone : (s.take n ++ first).drop (n + first.length + second.length) = [] :=
    drop_of_length_le (by omega)
  unfold overwrite
  rw [take_append_of_le_length (Nat.le_of_eq front.symm),
    take_of_length_le (Nat.le_of_eq front), drop_append, gone, front, nil_append,
    drop_drop, length_append]
  simp only [append_assoc]
  congr 4
  omega

/-- A replacement across the border of two parts. -/
theorem overwrite_across (back : List α) (first second : List α)
    (border : n + first.length = front.length) :
    overwrite (front ++ back) n (first ++ second) =
      overwrite front n first ++ overwrite back 0 second := by
  have within : n + first.length ≤ (front ++ back).length := by
    rw [length_append]
    omega
  have inside : n + first.length ≤ front.length := Nat.le_of_eq border
  have length := length_overwrite inside
  rw [overwrite_append _ _ _ within, overwrite_append_left _ inside,
    overwrite_append_right _ _ (by omega), length, border, Nat.sub_self]

end Overwrite
