import Mathlib.Algebra.GroupWithZero.Nat
import Mathlib.Data.List.Basic

/-!
# Spans of positions

Each element of a list occupies the positions from its start up to its stop. Elements in order
adjoin when each starts where the one before stops. For elements sorted by their starts this is
the same as covering every position exactly once, provided that no element reaches over an
empty one.
-/

namespace Spans

open List

variable {α : Type} (start stop : α → Nat)
variable {lo hi n : Nat} {xs : List α}

/-- The elements fill the positions from `lo` to `hi` one after the other. -/
def Adjoining : Nat → List α → Nat → Prop
  | lo, [], hi => lo = hi
  | lo, x :: xs, hi => start x = lo ∧ start x ≤ stop x ∧ Adjoining (stop x) xs hi

/-- Every position below `n` is occupied by exactly one element. -/
def CoversOnce (xs : List α) (n : Nat) : Prop :=
  ∀ b, b < n → xs.countP (fun x => start x ≤ b ∧ b < stop x) = 1

/-- No element reaches over the place of an empty one. -/
def ReachesOverNone (xs : List α) : Prop :=
  ∀ x ∈ xs, ∀ y ∈ xs, start y = stop y → start x < start y → stop x ≤ start y

variable {start stop}

/-- Adjoining elements end at or behind their start. -/
theorem Adjoining.le (adjoining : Adjoining start stop lo xs hi) : lo ≤ hi := by
  induction xs generalizing lo with
  | nil => exact Nat.le_of_eq adjoining
  | cons x xs ih =>
    obtain ⟨first, ordered, rest⟩ := adjoining
    have := ih rest
    omega

/-- Adjoining elements lie between the beginning and the end. -/
theorem Adjoining.mem (adjoining : Adjoining start stop lo xs hi) {x : α} (member : x ∈ xs) :
    lo ≤ start x ∧ start x ≤ stop x ∧ stop x ≤ hi := by
  induction xs generalizing lo with
  | nil => simp at member
  | cons y ys ih =>
    obtain ⟨first, ordered, rest⟩ := adjoining
    have bound := rest.le
    rcases mem_cons.mp member with rfl | deeper
    · omega
    · have := ih rest deeper
      omega

/-- The end is that of an element. -/
theorem Adjoining.reached (adjoining : Adjoining start stop lo xs hi) (nonempty : xs ≠ []) :
    ∃ x ∈ xs, stop x = hi := by
  induction xs generalizing lo with
  | nil => exact absurd rfl nonempty
  | cons x xs ih =>
    by_cases single : xs = []
    · subst single
      exact ⟨x, mem_cons_self, adjoining.2.2⟩
    · obtain ⟨y, member, ends⟩ := ih adjoining.2.2 single
      exact ⟨y, mem_cons_of_mem x member, ends⟩

/-- Two lists in a row adjoin when both do and meet. -/
theorem adjoining_append {ys : List α} :
    Adjoining start stop lo (xs ++ ys) hi ↔
      ∃ mid, Adjoining start stop lo xs mid ∧ Adjoining start stop mid ys hi := by
  induction xs generalizing lo with
  | nil => exact ⟨fun rest => ⟨lo, rfl, rest⟩, fun ⟨_, same, rest⟩ => same ▸ rest⟩
  | cons x xs ih =>
    simp only [cons_append, Adjoining, ih]
    constructor
    · rintro ⟨first, ordered, mid, front, back⟩
      exact ⟨mid, ⟨first, ordered, front⟩, back⟩
    · rintro ⟨mid, ⟨first, ordered, front⟩, back⟩
      exact ⟨first, ordered, mid, front, back⟩

/-- The lengths of adjoining elements add up. -/
theorem Adjoining.sum (adjoining : Adjoining start stop lo xs hi) :
    hi = lo + (xs.map fun x => stop x - start x).sum := by
  induction xs generalizing lo with
  | nil => exact (show lo = hi from adjoining).symm
  | cons x xs ih =>
    obtain ⟨first, ordered, rest⟩ := adjoining
    have total := ih rest
    simp only [map_cons, sum_cons]
    omega

/-- Adjoining elements lie one behind the other. -/
theorem Adjoining.apart (adjoining : Adjoining start stop lo xs hi) :
    xs.Pairwise fun x y => stop x ≤ start y := by
  induction xs generalizing lo with
  | nil => exact List.Pairwise.nil
  | cons x xs ih =>
    have rest := adjoining.2.2
    exact List.Pairwise.cons (fun y member => (rest.mem member).1) (ih rest)

/-- Elements that adjoin occupy each position between the ends once. -/
theorem Adjoining.countP (adjoining : Adjoining start stop lo xs hi) (b : Nat) :
    xs.countP (fun x => start x ≤ b ∧ b < stop x) = if lo ≤ b ∧ b < hi then 1 else 0 := by
  induction xs generalizing lo with
  | nil =>
    have same : lo = hi := adjoining
    rw [if_neg (by omega)]
    rfl
  | cons x xs ih =>
    obtain ⟨first, ordered, rest⟩ := adjoining
    have bound := rest.le
    rw [countP_cons, ih rest]
    by_cases inside : start x ≤ b ∧ b < stop x
    · rw [if_neg (by omega), if_pos (by simpa using inside), if_pos (by omega)]
    · rw [if_neg (c := decide (start x ≤ b ∧ b < stop x) = true) (by simpa using inside)]
      by_cases behind : stop x ≤ b ∧ b < hi
      · rw [if_pos behind, if_pos (by omega)]
      · rw [if_neg behind, if_neg (by omega)]

/-- Elements that adjoin from zero on cover every position once. -/
theorem Adjoining.coversOnce (adjoining : Adjoining start stop 0 xs n) :
    CoversOnce start stop xs n := by
  intro b below
  rw [adjoining.countP, if_pos ⟨Nat.zero_le b, below⟩]

/-- The step of the converse: an element that starts first in a list that covers everything
from `lo` on starts at `lo`. -/
theorem first_starts {x : α} (sorted : (x :: xs).Pairwise fun a b => start a < start b)
    (above : lo ≤ start x) (ordered : start x ≤ stop x) (bounded : stop x ≤ n)
    (once : ∀ b, lo ≤ b → b < n → (x :: xs).countP (fun x => start x ≤ b ∧ b < stop x) = 1) :
    start x = lo := by
  by_contra later
  have covered := once lo (Nat.le_refl lo) (by omega)
  have some : 0 < (x :: xs).countP (fun x => start x ≤ lo ∧ lo < stop x) := by omega
  obtain ⟨y, member, holds⟩ := countP_pos_iff.mp some
  have reached : start y ≤ lo ∧ lo < stop y := by simpa using holds
  rcases mem_cons.mp member with rfl | deeper
  · omega
  · have := rel_of_pairwise_cons sorted deeper
    omega

/-- Sorted elements that cover every position from `lo` to `n` once adjoin, if one of them
ends at `n` and none reaches over an empty one. -/
theorem adjoining_of_once (sorted : xs.Pairwise fun a b => start a < start b)
    (ordered : ∀ x ∈ xs, start x ≤ stop x) (bounded : ∀ x ∈ xs, stop x ≤ n)
    (crossing : ReachesOverNone start stop xs) (above : ∀ x ∈ xs, lo ≤ start x)
    (reached : lo = n ∨ ∃ x ∈ xs, stop x = n)
    (once : ∀ b, lo ≤ b → b < n → xs.countP (fun x => start x ≤ b ∧ b < stop x) = 1) :
    Adjoining start stop lo xs n := by
  induction xs generalizing lo with
  | nil => simpa [Adjoining] using reached
  | cons x xs ih =>
    have first := first_starts sorted (above x mem_cons_self) (ordered x mem_cons_self)
      (bounded x mem_cons_self) once
    have order := ordered x mem_cons_self
    have bound := bounded x mem_cons_self
    have apart : ∀ y ∈ xs, stop x ≤ start y := by
      intro y member
      have later := rel_of_pairwise_cons sorted member
      have inner := ordered y (mem_cons_of_mem x member)
      by_contra overlap
      by_cases empty : start y = stop y
      · exact overlap (crossing x mem_cons_self y (mem_cons_of_mem x member) empty later)
      · -- the position where `y` starts is occupied by both
        have twice := once (start y) (by omega) (by omega)
        rw [countP_cons, if_pos (by simp; omega)] at twice
        have again : 0 < xs.countP fun x => start x ≤ start y ∧ start y < stop x :=
          countP_pos_iff.mpr ⟨y, member, by simp; omega⟩
        omega
    refine ⟨first, order, ih (pairwise_cons.mp sorted).2
      (fun y member => ordered y (mem_cons_of_mem x member))
      (fun y member => bounded y (mem_cons_of_mem x member))
      (fun y member z other => crossing y (mem_cons_of_mem x member) z
        (mem_cons_of_mem x other)) apart ?_ ?_⟩
    · rcases reached with same | ⟨y, member, ends⟩
      · exact .inl (by omega)
      · rcases mem_cons.mp member with rfl | deeper
        · exact .inl ends
        · exact .inr ⟨y, deeper, ends⟩
    · intro b behind below
      have whole := once b (by omega) below
      rwa [countP_cons, if_neg (by simp; omega)] at whole

/-- Covering every position once is adjoining, for sorted elements that end at `n`. -/
theorem coversOnce_iff (sorted : xs.Pairwise fun a b => start a < start b)
    (ordered : ∀ x ∈ xs, start x ≤ stop x) (bounded : ∀ x ∈ xs, stop x ≤ n)
    (crossing : ReachesOverNone start stop xs) (reached : ∃ x ∈ xs, stop x = n) :
    CoversOnce start stop xs n ↔ Adjoining start stop 0 xs n :=
  ⟨fun once => adjoining_of_once sorted ordered bounded crossing (fun _ _ => Nat.zero_le _)
    (Or.inr reached) fun b _ below => once b below, Adjoining.coversOnce⟩

end Spans
