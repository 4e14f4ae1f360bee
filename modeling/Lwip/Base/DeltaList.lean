import Mathlib.Tactic.Abel

/-!
# Delta-encoded lists

A delta-encoded list stores each value as its difference to the value before it; the first
one is stored relative to a base. `absolute` reads the values back. The lemmas say what the
three edits of such a list do to the values: an insertion in front of an entry whose
difference is shortened, an insertion behind the last entry, and a removal whose difference
is given to the successor. Values live in an arbitrary commutative additive group, so the
same statements serve unbounded time and machine words.
-/

namespace DeltaList

variable {K M : Type} [AddCommGroup M]

/-- Keys with their values, read from the differences starting at `base`. -/
def absolute (base : M) : List (K × M) → List (K × M)
  | [] => []
  | (key, delta) :: rest => (key, base + delta) :: absolute (base + delta) rest

/-- Sum of all differences. -/
def total : List (K × M) → M
  | [] => 0
  | (_, delta) :: rest => delta + total rest

/-- The second part of a list is read from the value the first part ends at. -/
theorem absolute_append (base : M) (left right : List (K × M)) :
    absolute base (left ++ right) = absolute base left ++ absolute (base + total left) right := by
  induction left generalizing base with
  | nil => simp [absolute, total]
  | cons entry rest ih =>
    obtain ⟨key, delta⟩ := entry
    simp only [List.cons_append, absolute, ih, total, add_assoc]

/-- The keys stay as they are. -/
theorem absolute_keys (base : M) (entries : List (K × M)) :
    (absolute base entries).map Prod.fst = entries.map Prod.fst := by
  induction entries generalizing base with
  | nil => rfl
  | cons entry rest ih =>
    obtain ⟨key, delta⟩ := entry
    simp only [absolute, List.map_cons, ih]

/-- An entry put in front of a successor whose difference it shortens leaves every other
value as it was. -/
theorem absolute_insert (base : M) (left right : List (K × M)) (key next : K) (delta step : M) :
    absolute base (left ++ (key, delta) :: (next, step - delta) :: right) =
      absolute base left ++ (key, base + total left + delta) ::
        absolute (base + total left) ((next, step) :: right) := by
  rw [absolute_append]
  have rejoined : base + total left + delta + (step - delta) = base + total left + step := by
    abel
  simp only [absolute, rejoined]

/-- Removing an entry and adding its difference to the successor leaves every other value
as it was. -/
theorem absolute_remove (base : M) (key next : K) (delta step : M) (right : List (K × M)) :
    absolute base ((key, delta) :: (next, step) :: right) =
      (key, base + delta) :: absolute base ((next, step + delta) :: right) := by
  have regrouped : base + delta + step = base + (step + delta) := by abel
  simp only [absolute, regrouped]

/-- Moving the base moves every value, so a nonempty list reads the same from two bases only
when they are equal. -/
theorem absolute_base_injective {base other : M} {entries : List (K × M)}
    (nonempty : entries ≠ []) (same : absolute base entries = absolute other entries) :
    base = other := by
  cases entries with
  | nil => contradiction
  | cons entry rest =>
    obtain ⟨key, delta⟩ := entry
    simp only [absolute, List.cons.injEq, Prod.mk.injEq, true_and] at same
    exact add_right_cancel same.1

end DeltaList
