import Mathlib.Data.List.Basic

/-!
# The oldest candidate of a scan

A scan offers candidates one after the other, each with its age. It keeps the last one that is at
least as old as those before it, beginning with the age zero.
-/

namespace Oldest

open List

variable {ι : Type}

/-- The candidate kept so far. -/
structure Best (ι : Type) where
  /-- The candidate, if there has been one. -/
  pick : Option ι
  age : Nat
  deriving DecidableEq, Repr

/-- No candidate yet. -/
def Best.none : Best ι := ⟨Option.none, 0⟩

/-- One more candidate. -/
def Best.offer (best : Best ι) (i : ι) (age : Nat) : Best ι :=
  if age ≥ best.age then ⟨some i, age⟩ else best

/-- The candidate kept is an oldest one of a kind among those that have been seen. -/
structure Keeps (kind : ι → Prop) (age : ι → Nat) (seen : List ι) (best : Best ι) : Prop where
  /-- It is a candidate, and its age is known. -/
  picked : ∀ i, best.pick = some i → i ∈ seen ∧ kind i ∧ age i = best.age
  /-- There is an age only if there is a candidate. -/
  fresh : best.pick = none → best.age = 0
  /-- No candidate is older, and one is kept if there is one. -/
  oldest : ∀ j ∈ seen, kind j → best.pick ≠ none ∧ age j ≤ best.age

section Scan

variable {kind : ι → Prop} {age : ι → Nat} {seen : List ι} {best : Best ι} {i : ι}

/-- Nothing has been seen. -/
theorem keeps_nil : Keeps kind age [] Best.none where
  picked _ picked := absurd picked.symm (Option.some_ne_none _)
  fresh _ := rfl
  oldest _ inside := absurd inside List.not_mem_nil

/-- A candidate is offered. -/
theorem Keeps.offer (keeps : Keeps kind age seen best) (isKind : kind i) :
    Keeps kind age (seen ++ [i]) (best.offer i (age i)) := by
  unfold Best.offer
  split
  · rename_i older
    constructor
    · intro k picked
      cases Option.some.inj picked
      exact ⟨mem_append_right seen (mem_singleton_self i), isKind, rfl⟩
    · exact fun missing => absurd missing (Option.some_ne_none i)
    · intro j inside kindJ
      refine ⟨Option.some_ne_none i, ?_⟩
      cases mem_append.1 inside with
      | inl before => exact Nat.le_trans (keeps.oldest j before kindJ).2 older
      | inr last => exact Nat.le_of_eq (congrArg age (mem_singleton.1 last))
  · rename_i younger
    constructor
    · intro k picked
      have kept := keeps.picked k picked
      exact ⟨mem_append_left _ kept.1, kept.2⟩
    · exact keeps.fresh
    intro j inside kindJ
    cases mem_append.1 inside with
    | inl before => exact keeps.oldest j before kindJ
    | inr last =>
      rw [mem_singleton.1 last]
      refine ⟨fun missing => ?_, by omega⟩
      have zero := keeps.fresh missing
      omega

/-- An element of another kind is passed over. -/
theorem Keeps.skip (keeps : Keeps kind age seen best) (other : ¬kind i) :
    Keeps kind age (seen ++ [i]) best where
  picked k picked := by
    have kept := keeps.picked k picked
    exact ⟨List.mem_append_left _ kept.1, kept.2⟩
  fresh := keeps.fresh
  oldest j inside kindJ := by
    cases List.mem_append.1 inside with
    | inl before => exact keeps.oldest j before kindJ
    | inr last =>
      rw [List.mem_singleton.1 last] at kindJ
      exact absurd kindJ other

end Scan

end Oldest
