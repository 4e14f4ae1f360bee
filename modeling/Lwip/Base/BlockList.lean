import Mathlib.Data.List.Chain

/-!
# Block lists of an allocator

An allocator cuts an interval into adjoining blocks, each of them used or free. The lemmas say
how such a tiling is taken apart and put together, where its first free block is, how much of
it is used, and when no two free blocks adjoin. Sizes and alignment are parameters.
-/

namespace BlockList

open List

/-- A block `[start, stop)`. -/
structure Block where
  start : Nat
  stop : Nat
  used : Bool
  deriving DecidableEq, Repr

/-- Blocks of at least `size` positions with aligned ends that adjoin from `lo` to `hi`. -/
def Tiles (size align : Nat) (lo : Nat) : List Block → Nat → Prop
  | [], hi => lo = hi
  | b :: rest, hi => b.start = lo ∧ b.start + size ≤ b.stop ∧ b.stop % align = 0 ∧
      Tiles size align b.stop rest hi

/-- Start of the first free block, or `hi` if there is none. -/
def firstFree (hi : Nat) : List Block → Nat
  | [] => hi
  | b :: rest => if b.used then firstFree hi rest else b.start

/-- Number of positions in used blocks. -/
def usedSize : List Block → Nat
  | [] => 0
  | b :: rest => (if b.used then b.stop - b.start else 0) + usedSize rest

/-- No two neighbours are both free. -/
def Separated (blocks : List Block) : Prop :=
  blocks.IsChain fun left right => left.used ∨ right.used

variable {size align lo hi : Nat} {left right : List Block} {b : Block}

/-! ## Tilings -/

/-- A tiling of two parts is cut at the position where they meet. -/
theorem tiles_append : Tiles size align lo (left ++ right) hi ↔
    ∃ mid, Tiles size align lo left mid ∧ Tiles size align mid right hi := by
  induction left generalizing lo with
  | nil => simp [Tiles]
  | cons b rest ih =>
    simp only [cons_append, Tiles, ih]
    constructor
    · rintro ⟨start, wide, aligned, mid, first, second⟩
      exact ⟨mid, ⟨start, wide, aligned, first⟩, second⟩
    · rintro ⟨mid, ⟨start, wide, aligned, first⟩, second⟩
      exact ⟨start, wide, aligned, mid, first, second⟩

/-- A tiling is cut before and behind one of its blocks. -/
theorem tiles_append_cons : Tiles size align lo (left ++ b :: right) hi ↔
    Tiles size align lo left b.start ∧ b.start + size ≤ b.stop ∧ b.stop % align = 0 ∧
      Tiles size align b.stop right hi := by
  rw [tiles_append]
  constructor
  · rintro ⟨mid, first, rfl, rest⟩
    exact ⟨first, rest⟩
  · rintro ⟨first, rest⟩
    exact ⟨b.start, first, rfl, rest⟩

section

variable (tiles : Tiles size align lo left hi)

include tiles

/-- A tiling ends at or behind its start. -/
theorem Tiles.le : lo ≤ hi := by
  induction left generalizing lo with
  | nil => exact Nat.le_of_eq tiles
  | cons b rest ih =>
    obtain ⟨rfl, wide, _, behind⟩ := tiles
    have := ih behind
    omega

/-- Every block lies inside the tiled interval. -/
theorem Tiles.mem (member : b ∈ left) : lo ≤ b.start ∧ b.start + size ≤ b.stop ∧ b.stop ≤ hi := by
  induction left generalizing lo with
  | nil => cases member
  | cons first rest ih =>
    obtain ⟨rfl, wide, _, behind⟩ := tiles
    rcases mem_cons.mp member with rfl | deeper
    · exact ⟨Nat.le_refl _, wide, behind.le⟩
    · obtain ⟨low, own, high⟩ := ih behind deeper
      exact ⟨by omega, own, high⟩

/-- The first block begins where the tiling does. -/
theorem Tiles.head (member : b ∈ left.head?) : b.start = lo := by
  cases left with
  | nil => cases member
  | cons first rest =>
    obtain rfl : first = b := by simpa using member
    exact tiles.1

/-- All other blocks begin behind the first one. -/
theorem Tiles.tail (member : b ∈ left.tail) : lo + size ≤ b.start := by
  cases left with
  | nil => cases member
  | cons first rest =>
    obtain ⟨rfl, wide, _, behind⟩ := tiles
    have := (behind.mem member).1
    omega

/-- A tiling is empty or has room for one block. -/
theorem Tiles.room (short : lo ≠ hi) : lo + size ≤ hi := by
  cases left with
  | nil => exact absurd tiles short
  | cons first rest =>
    obtain ⟨rfl, wide, _, behind⟩ := tiles
    have := behind.le
    omega

/-- A tiling that begins aligned ends aligned. -/
theorem Tiles.end_aligned (begins : lo % align = 0) : hi % align = 0 := by
  induction left generalizing lo with
  | nil => exact tiles ▸ begins
  | cons first rest ih => exact ih tiles.2.2.2 tiles.2.2.1

/-- A tiling has no more blocks than positions. -/
theorem Tiles.length_le (positive : 0 < size) : left.length ≤ hi - lo := by
  induction left generalizing lo with
  | nil => simp
  | cons b rest ih =>
    obtain ⟨rfl, wide, _, behind⟩ := tiles
    have := ih behind
    have := behind.le
    simp only [length_cons]
    omega

/-- Two blocks of a tiling are the same or apart. -/
theorem Tiles.apart {c : Block} (first : b ∈ left) (second : c ∈ left) :
    b = c ∨ b.stop ≤ c.start ∨ c.stop ≤ b.start := by
  induction left generalizing lo with
  | nil => cases first
  | cons head rest ih =>
    obtain ⟨rfl, _, _, behind⟩ := tiles
    rcases mem_cons.mp first with rfl | firstDeeper <;>
      rcases mem_cons.mp second with rfl | secondDeeper
    · exact .inl rfl
    · exact .inr (.inl (behind.mem secondDeeper).1)
    · exact .inr (.inr (behind.mem firstDeeper).1)
    · exact ih behind firstDeeper secondDeeper

/-- The size of the used blocks is at most that of the interval. -/
theorem Tiles.usedSize_le : usedSize left ≤ hi - lo := by
  induction left generalizing lo with
  | nil => simp [usedSize]
  | cons b rest ih =>
    obtain ⟨rfl, wide, _, behind⟩ := tiles
    have := ih behind
    have := behind.le
    rw [usedSize]
    split <;> omega

end

/-! ## The first free block -/

/-- The first free block of two parts is that of the first part, if it has one. -/
theorem firstFree_append : firstFree hi (left ++ right) = firstFree (firstFree hi right) left := by
  induction left with
  | nil => rfl
  | cons b rest ih => simp only [cons_append, firstFree, ih]

/-- There is no free block among used ones. -/
theorem firstFree_eq_of_used (used : ∀ c ∈ left, c.used = true) : firstFree hi left = hi := by
  induction left with
  | nil => rfl
  | cons b rest ih =>
    rw [firstFree, if_pos (used b mem_cons_self)]
    exact ih fun c member => used c (mem_cons_of_mem b member)

/-- All blocks are used, or one is the first free one, wherever the search would end otherwise. -/
theorem firstFree_split (blocks : List Block) : (∀ c ∈ blocks, c.used = true) ∨
    ∃ before free after, blocks = before ++ free :: after ∧ (∀ c ∈ before, c.used = true) ∧
      ∀ x, firstFree x blocks = free.start := by
  induction blocks with
  | nil => exact .inl (forall_mem_nil _)
  | cons b rest ih =>
    by_cases here : b.used
    · rcases ih with all | ⟨before, free, after, split, used, found⟩
      · exact .inl (forall_mem_cons.mpr ⟨here, all⟩)
      · refine .inr ⟨b :: before, free, after, by rw [split]; rfl,
          forall_mem_cons.mpr ⟨here, used⟩, fun x => ?_⟩
        rw [firstFree, if_pos here, found]
    · exact .inr ⟨[], b, rest, rfl, forall_mem_nil _, fun x => if_neg here⟩

/-- In front of a block, the first free block does not depend on what follows, unless the
part is all used. -/
theorem firstFree_append_cons_free (free : b.used = false) :
    firstFree hi (left ++ b :: right) = firstFree b.start left := by
  rw [firstFree_append, firstFree]
  simp [free]

/-- A used block is passed over. -/
theorem firstFree_append_cons_used (used : b.used = true) :
    firstFree hi (left ++ b :: right) = firstFree (firstFree hi right) left := by
  rw [firstFree_append, firstFree]
  simp [used]

/-- The first free block of a tiled part lies in it or is its end. -/
theorem Tiles.firstFree_range (tiles : Tiles size align lo left hi) :
    lo ≤ firstFree hi left ∧ firstFree hi left ≤ hi := by
  rcases firstFree_split left with all | ⟨before, free, after, split, _, found⟩
  · rw [firstFree_eq_of_used all]
    exact ⟨tiles.le, Nat.le_refl hi⟩
  · have place := tiles.mem (b := free) (by simp [split])
    rw [found]
    omega

/-- In a tiled part either all blocks are used, or the first free one does not depend on
where the search would end otherwise. -/
theorem Tiles.firstFree_cases (tiles : Tiles size align lo left hi) (positive : 0 < size) :
    (∀ x, firstFree x left = x) ∨
      firstFree hi left < hi ∧ ∀ x, firstFree x left = firstFree hi left := by
  rcases firstFree_split left with all | ⟨before, free, after, split, _, found⟩
  · exact .inl fun x => firstFree_eq_of_used all
  · have place := tiles.mem (b := free) (by simp [split])
    exact .inr ⟨by rw [found]; omega, fun x => by rw [found, found]⟩

/-! ## Used sizes -/

/-- The used sizes of two parts add up. -/
theorem usedSize_append : usedSize (left ++ right) = usedSize left + usedSize right := by
  induction left with
  | nil => simp [usedSize]
  | cons b rest ih => simp only [cons_append, usedSize, ih, Nat.add_assoc]

/-! ## Separation -/

/-- Separation around one block. -/
theorem separated_append_cons : Separated (left ++ b :: right) ↔
    Separated left ∧ Separated right ∧ (∀ l ∈ left.getLast?, l.used ∨ b.used) ∧
      (∀ r ∈ right.head?, b.used ∨ r.used) := by
  simp only [Separated, isChain_append, isChain_cons, head?_cons, Option.mem_def,
    Option.some.injEq, forall_eq']
  tauto

/-- The used blocks, in order. -/
def usedBlocks (blocks : List Block) : List Block := blocks.filter fun b => b.used

/-- A free block is not among the used ones. -/
theorem usedBlocks_append_cons_free (free : b.used = false) :
    usedBlocks (left ++ b :: right) = usedBlocks left ++ usedBlocks right := by
  simp [usedBlocks, filter_append, free]

/-- A used block is among the used ones. -/
theorem usedBlocks_append_cons_used (used : b.used = true) :
    usedBlocks (left ++ b :: right) = usedBlocks left ++ b :: usedBlocks right := by
  simp [usedBlocks, filter_append, used]

/-- A free block adds nothing to the used size. -/
theorem usedSize_append_cons_free (free : b.used = false) :
    usedSize (left ++ b :: right) = usedSize left + usedSize right := by
  simp [usedSize_append, usedSize, free]

/-- A used block adds its own size. -/
theorem usedSize_append_cons_used (used : b.used = true) :
    usedSize (left ++ b :: right) = usedSize left + (b.stop - b.start) + usedSize right := by
  simp [usedSize_append, usedSize, used, Nat.add_assoc]

end BlockList
