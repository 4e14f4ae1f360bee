import Mathlib.Data.List.Sort

/-!
# Insertion into a queue

An element goes in front of the first one that is not below it, as with `List.orderedInsert`, or
to the end unless it is below the last one. The comparison need not be an order. A map that keeps
the comparison commutes with insertion, so that a queue can be followed by its keys.
-/

namespace Insertion

open List

variable {α β : Type} {below : α → α → Prop} [DecidableRel below] {x : α} {queue : List α}

/-- `x` in front of the first element that is not below it. -/
def insertSorted (below : α → α → Prop) [DecidableRel below] (x : α) (queue : List α) : List α :=
  queue.orderedInsert (fun x y => ¬below y x) x

/-- `x` at the end, unless it is below the last element. -/
def insertBehind (below : α → α → Prop) [DecidableRel below] (x : α) (queue : List α) : List α :=
  match queue.getLast? with
  | none => [x]
  | some y => if below x y then insertSorted below x queue else queue ++ [x]

/-- One step of the search for the place. -/
theorem insertSorted_cons (y : α) (more : List α) : insertSorted below x (y :: more) =
    if below y x then y :: insertSorted below x more else x :: y :: more := by
  rw [insertSorted, orderedInsert_cons, ite_not]
  rfl

/-- Insertion adds the element and keeps the others. -/
theorem perm_insertSorted : (insertSorted below x queue).Perm (x :: queue) :=
  perm_orderedInsert _ x queue

/-- Insertion adds the element and keeps the others. -/
theorem perm_insertBehind : (insertBehind below x queue).Perm (x :: queue) := by
  unfold insertBehind
  cases last : queue.getLast? with
  | none => rw [getLast?_eq_none_iff.mp last]
  | some y =>
    dsimp only
    split
    · exact perm_insertSorted
    · exact perm_append_singleton x queue

/-- An element above the first one is inserted behind it. -/
theorem insertBehind_cons {y : α} {more : List α} (lower : below y x) :
    ∃ rest, insertBehind below x (y :: more) = y :: rest ∧ rest.Perm (x :: more) := by
  unfold insertBehind
  rw [getLast?_cons]
  dsimp only
  split
  · exact ⟨_, by rw [insertSorted_cons, if_pos lower], perm_insertSorted⟩
  · exact ⟨more ++ [x], rfl, perm_append_singleton x more⟩

/-- The last element stays the last one unless all are below the new one. -/
theorem getLast?_insertSorted (above : ∃ y ∈ queue, ¬below y x) :
    (insertSorted below x queue).getLast? = queue.getLast? := by
  induction queue with
  | nil => simp at above
  | cons y more ih =>
    rw [insertSorted_cons]
    split
    · rename_i lower
      have above' : ∃ z ∈ more, ¬below z x := by
        obtain ⟨z, member, higher⟩ := above
        cases member with
        | head => exact absurd lower higher
        | tail _ deeper => exact ⟨z, deeper, higher⟩
      have nonempty : more ≠ [] := ne_nil_of_mem above'.choose_spec.1
      have inserted : insertSorted below x more ≠ [] :=
        ne_nil_of_mem (perm_insertSorted.symm.subset mem_cons_self)
      rw [getLast?_cons_of_ne_nil inserted, getLast?_cons_of_ne_nil nonempty, ih above']
    · rw [getLast?_cons_cons]

/-- A relation of the elements in their order holds behind an insertion. -/
theorem pairwise_insertSorted {R : α → α → Prop} (pairwise : queue.Pairwise R)
    (before : ∀ y ∈ queue, below y x → R y x) (behind : ∀ y ∈ queue, ¬below y x → R x y)
    (further : ∀ y z, ¬below y x → R y z → R x z) : (insertSorted below x queue).Pairwise R := by
  induction queue with
  | nil => exact pairwise_singleton R x
  | cons y more ih =>
    obtain ⟨first, rest⟩ := pairwise_cons.mp pairwise
    rw [insertSorted_cons]
    split
    · rename_i lower
      apply List.Pairwise.cons
      · intro z member
        cases mem_cons.mp (perm_insertSorted.subset member) with
        | inl new =>
          rw [new]
          exact before y mem_cons_self lower
        | inr old => exact first z old
      · exact ih rest (fun z member => before z (mem_cons_of_mem y member))
          (fun z member => behind z (mem_cons_of_mem y member))
    · rename_i higher
      apply List.Pairwise.cons _ pairwise
      intro z member
      cases member with
      | head => exact behind y mem_cons_self higher
      | tail _ deeper => exact further y z higher (first z deeper)

section Map

variable (below' : β → β → Prop) [DecidableRel below'] (f : α → β)

/-- A map that keeps the comparison commutes with insertion. -/
theorem map_insertSorted (same : ∀ y ∈ queue, below y x ↔ below' (f y) (f x)) :
    (insertSorted below x queue).map f = insertSorted below' (f x) (queue.map f) := by
  induction queue with
  | nil => rfl
  | cons y more ih =>
    have first := same y mem_cons_self
    have rest := ih fun z member => same z (mem_cons_of_mem y member)
    rw [map_cons, insertSorted_cons, insertSorted_cons]
    by_cases lower : below y x
    · rw [if_pos lower, if_pos (first.mp lower), map_cons, rest]
    · rw [if_neg lower, if_neg (fun given => lower (first.mpr given)), map_cons, map_cons]

/-- A map that keeps the comparison commutes with insertion. -/
theorem map_insertBehind (same : ∀ y ∈ queue, below y x ↔ below' (f y) (f x))
    (same' : ∀ y ∈ queue, below x y ↔ below' (f x) (f y)) :
    (insertBehind below x queue).map f = insertBehind below' (f x) (queue.map f) := by
  unfold insertBehind
  rw [getLast?_map]
  cases last : queue.getLast? with
  | none => rfl
  | some y =>
    have order := same' y (mem_of_getLast? last)
    dsimp only [Option.map_some]
    by_cases lower : below x y
    · rw [if_pos lower, if_pos (order.mp lower), map_insertSorted below' f same]
    · rw [if_neg lower, if_neg (fun given => lower (order.mpr given)), map_append, map_cons,
        map_nil]

end Map

end Insertion
