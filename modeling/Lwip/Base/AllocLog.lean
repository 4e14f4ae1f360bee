import Mathlib.Data.Multiset.AddSub

/-!
# Logs of allocations

The blocks of memory that a computation allocates and frees, in order. Replaying a log gives the
blocks that are live at its end; it fails at a block that is freed without being live.
-/

namespace AllocLog

open List

/-- One access to the allocator. -/
inductive Event (ι : Type) where
  | alloc (block : ι)
  | free (block : ι)
  deriving DecidableEq, Repr

variable {ι : Type} [DecidableEq ι]

/-- The blocks that are live behind a log. -/
def live : List (Event ι) → Multiset ι → Option (Multiset ι)
  | [], blocks => some blocks
  | .alloc block :: log, blocks => live log (block ::ₘ blocks)
  | .free block :: log, blocks =>
    if block ∈ blocks then live log (blocks.erase block) else none

/-- A log of two parts is replayed part by part. -/
theorem live_append (first second : List (Event ι)) (blocks : Multiset ι) :
    live (first ++ second) blocks = (live first blocks).bind (live second) := by
  induction first generalizing blocks with
  | nil => rfl
  | cons event log ih =>
    cases event with
    | alloc block => exact ih (block ::ₘ blocks)
    | free block =>
      by_cases here : block ∈ blocks
      · simp only [cons_append, live, if_pos here, ih]
      · simp only [cons_append, live, if_neg here, Option.bind_none]

/-- The second part is replayed from where a known first part ends. -/
theorem live_append_of {first second : List (Event ι)} {before middle : Multiset ι}
    (known : live first before = some middle) :
    live (first ++ second) before = live second middle := by
  rw [live_append, known, Option.bind_some]

/-- Freeing live blocks leaves the others. -/
theorem live_frees (freed : List ι) (others : Multiset ι) :
    live (freed.map Event.free) (↑freed + others) = some others := by
  induction freed with
  | nil => rw [map_nil, live, Multiset.coe_nil, Multiset.zero_add]
  | cons block rest ih =>
    have here : block ∈ (↑(block :: rest) : Multiset ι) + others := by simp
    have left : ((↑(block :: rest) : Multiset ι) + others).erase block = ↑rest + others := by
      rw [← Multiset.cons_coe, Multiset.cons_add, Multiset.erase_cons_head]
    rw [map_cons, live, if_pos here, left, ih]

end AllocLog
