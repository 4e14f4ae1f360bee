import Lwip.Verif.Mem

/-!
# Runs of the heap

Sequences of `mem_malloc`, `mem_free` and `mem_trim`, with writes of the application into its
live blocks between them. The heap stays a block list throughout. What `mem_malloc` and
`mem_calloc` return is right up to sizes of 65532 bytes; larger ones wrap around in
`mem_size_t` before they are compared with anything.
-/

namespace Lwip.Mem

open BlockList List

variable {blocks : List Block} {h : Heap} {s : HeapState} {size : Nat}

/-! ## The chain in memory -/

/-- The blocks found in memory by following `next` from an offset. -/
def walk (ram : Nat → UInt8) : Nat → Nat → List Block
  | 0, _ => []
  | fuel + 1, ptr =>
    if ptr < memSizeAligned then
      ⟨ptr, memNext ram ptr, memUsed ram ptr != 0⟩ :: walk ram fuel (memNext ram ptr)
    else []

/-- The `struct mem` chain of the heap, from offset 0. -/
def heapBlocks (h : Heap) : List Block := walk h.ram (memSizeAligned + 1) 0

/-- Following `next` finds the blocks the headers describe. -/
theorem walk_eq {ram : Nat → UInt8} {prev ptr fuel : Nat} (tiles : Tiles 20 4 ptr blocks 10240)
    (linked : Linked ram prev blocks) (enough : blocks.length < fuel) :
    walk ram fuel ptr = blocks := by
  refine linked.search_induction ?_ ?_ tiles enough
  · intro fuel
    rw [walk, if_neg (by simp only [memSizeAligned]; omega)]
  · intro fuel b rest _ wide upper next mark ih
    rw [walk, if_pos (by simp only [memSizeAligned]; omega), next, mark, ih]

/-- The chain in memory is the block list that the heap represents. -/
theorem Represents.heapBlocks_eq (rep : Represents h blocks) : heapBlocks h = blocks := by
  have length := rep.shape.tiles.length_le (by decide)
  exact walk_eq rep.shape.tiles rep.shape.linked (by omega)

/-! ## Runs -/

/-- The heap and the pointers that were returned and not freed yet. -/
structure HeapState where
  heap : Heap
  live : List Nat

/-- A call on the heap, or a write of the application. -/
inductive HeapCall where
  | malloc (size : Nat)
  | free (p : Nat)
  | trim (p newsize : Nat)
  | write (p i : Nat) (v : UInt8)

/-- Sizes are of type `mem_size_t`; only live pointers are freed, trimmed and written to. -/
def HeapStep (s : HeapState) (call : HeapCall) (s' : HeapState) : Prop :=
  match call with
  | .malloc size => size < 65536 ∧ ∃ result h', memMalloc size s.heap = .ok (result, h') ∧
      s' = ⟨h', result.toList ++ s.live⟩
  | .free p => p ∈ s.live ∧ ∃ h', memFree (some p) s.heap = .ok h' ∧ s' = ⟨h', s.live.erase p⟩
  | .trim p newsize => p ∈ s.live ∧ newsize < 65536 ∧ ∃ result h',
      memTrim p newsize s.heap = .ok (result, h') ∧ s' = ⟨h', s.live⟩
  | .write p i v => p ∈ s.live ∧ p ≤ i ∧ i < memNext s.heap.ram (p - sizeofStructMem) ∧
      s' = ⟨{ s.heap with ram := setByte s.heap.ram i v }, s.live⟩

/-- States reached from `mem_init`. -/
def Reachable (h : Heap) (s : HeapState) : Prop :=
  Transition.Run HeapStep (fun _ _ => True) ⟨memInit h, []⟩ s

/-- The pointers to the data of the used blocks. -/
def dataPointers (blocks : List Block) : List Nat :=
  ((usedBlocks blocks).map Block.start).map (· + sizeofStructMem)

/-- The heap is a block list, and the live pointers are those of its used blocks. -/
structure HeapSound (s : HeapState) : Prop where
  represents : Represents s.heap (heapBlocks s.heap)
  /-- Live pointers belong to the used blocks. -/
  live : s.live.Perm (dataPointers (heapBlocks s.heap))

/-- A heap that represents some block list is sound with the pointers of its used blocks. -/
theorem HeapSound.of_represents {live : List Nat} (rep : Represents h blocks)
    (owned : live.Perm (dataPointers blocks)) : HeapSound ⟨h, live⟩ := by
  have same := rep.heapBlocks_eq
  exact ⟨same.symm ▸ rep, same.symm ▸ owned⟩

/-- A live pointer belongs to a used block. -/
theorem HeapSound.block (sound : HeapSound s) {p : Nat} (live : p ∈ s.live) :
    ∃ left b right, heapBlocks s.heap = left ++ b :: right ∧ b.used = true ∧
      p = b.start + sizeofStructMem := by
  obtain ⟨start, starts, rfl⟩ := mem_map.mp (sound.live.mem_iff.mp live)
  obtain ⟨b, member, rfl⟩ := mem_map.mp starts
  obtain ⟨listed, used⟩ := mem_filter.mp member
  obtain ⟨left, right, split⟩ := append_of_mem listed
  exact ⟨left, b, right, split, used, rfl⟩

/-- A write into the data of a block does not touch any header. -/
theorem Represents.write {left right : List Block} {b : Block}
    (rep : Represents h (left ++ b :: right)) {i : Nat} (v : UInt8) (low : b.start + 8 ≤ i)
    (high : i < b.stop) : Represents { h with ram := setByte h.ram i v } (left ++ b :: right) := by
  obtain ⟨first, wide, ends, second, linkedLeft, own, linkedRight, ramEnd⟩ :=
    shape_append_cons_iff.mp rep.shape
  have upper := second.le
  have elsewhere (p : Nat) (apart : p + 5 ≤ i ∨ i < p) :
      header (setByte h.ram i v) p = header h.ram p := by
    apply header_congr
    intro j lower higher
    rw [setByte_eq, if_neg (by omega)]
  refine ⟨shape_append_cons_iff.mpr ⟨first, wide, ends, second, ?_, ?_, ?_, ?_⟩, rep.separated,
    rep.lfree, rep.used⟩
  · apply linkedLeft.of_same
    intro c member
    have := first.mem member
    exact elsewhere c.start (by omega)
  · rw [elsewhere b.start (by omega), own]
  · apply linkedRight.of_same
    intro c member
    have := second.mem member
    exact elsewhere c.start (by omega)
  · rw [elsewhere 10240 (by omega), ramEnd]

theorem heapStep_sound {s' : HeapState} {call : HeapCall} (sound : HeapSound s)
    (step : HeapStep s call s') : HeapSound s' := by
  have owned := sound.live
  unfold dataPointers at owned
  cases call with
  | malloc size =>
    obtain ⟨_, result, h', done, rfl⟩ := step
    by_cases zero : size = 0
    · rw [memMalloc, if_pos zero] at done
      cases done
      exact sound
    rcases memMalloc_spec sound.represents (Nat.pos_of_ne_zero zero) with
      ⟨none, _⟩ | ⟨left, b, right, e, rest, h'', split, free, _, _, _, restShape, found, rep⟩
    · rw [none] at done
      cases done
      exact sound
    rw [found] at done
    cases done
    refine HeapSound.of_represents rep ?_
    rw [split, usedBlocks_append_cons_free free] at owned
    have noMore : usedBlocks (rest ++ right) = usedBlocks right := by
      rcases restShape with rfl | rfl <;> simp [usedBlocks]
    rw [dataPointers, usedBlocks_append_cons_used rfl, noMore]
    simp only [map_append, map_cons] at owned ⊢
    exact (List.Perm.cons _ owned).trans perm_middle.symm
  | free p =>
    obtain ⟨live, h', done, rfl⟩ := step
    obtain ⟨left, b, right, split, used, rfl⟩ := sound.block live
    have rep := sound.represents
    rw [split] at rep owned
    obtain ⟨h'', blocks, freed, rep', same⟩ := memFree_represents rep used
    rw [freed] at done
    cases done
    refine HeapSound.of_represents rep' ?_
    rw [usedBlocks_append_cons_used used] at owned
    rw [dataPointers, same]
    simp only [map_append, map_cons] at owned ⊢
    have split := (perm_cons_erase live).symm.trans (owned.trans perm_middle)
    exact split.cons_inv
  | trim p newsize =>
    obtain ⟨live, _, result, h', done, rfl⟩ := step
    obtain ⟨left, b, right, split, used, rfl⟩ := sound.block live
    have rep := sound.represents
    rw [split] at rep owned
    obtain ⟨blocks, rep', same⟩ := memTrim_represents rep used done
    exact HeapSound.of_represents rep' (by rw [dataPointers, same]; exact owned)
  | write p i v =>
    obtain ⟨live, low, high, rfl⟩ := step
    obtain ⟨left, b, right, split, used, rfl⟩ := sound.block live
    have rep := sound.represents
    rw [split] at rep owned
    have next : memNext s.heap.ram b.start = b.stop :=
      congrArg Header.next (shape_append_cons_iff.mp rep.shape).2.2.2.2.2.1
    rw [Nat.add_sub_cancel, next] at high
    exact HeapSound.of_represents (rep.write v low high) owned

theorem Reachable.sound (reachable : Reachable h s) (unused : h.used = 0) : HeapSound s := by
  refine Transition.Run.invariant reachable ?_ fun _ _ _ sound _ step => heapStep_sound sound step
  exact HeapSound.of_represents (memInit_represents h unused) (by simp [dataPointers, usedBlocks])

/-- After `mem_init` and any calls, the chain in memory tiles the heap with aligned blocks,
`prev` inverts `next`, no two neighbours are free, `lfree` is the lowest free block and the
statistic is the size of the used blocks. -/
theorem heap_run_invariant (h : Heap) (s : HeapState) (unused : h.used = 0)
    (reachable : Reachable h s) : Represents s.heap (heapBlocks s.heap) :=
  (reachable.sound unused).represents

/-- A heap of zeros before `mem_init`. -/
def zeroHeap : Heap := { ram := fun _ => 0, lfree := 0, used := 0 }

/-- The first call of `mem_malloc` succeeds for a size that fits. -/
theorem malloc_zeroHeap {size : Nat} (positive : 0 < size) (word : size < 65536)
    (fits : roundedSize size ≤ 10232) :
    ∃ p h', memMalloc size (memInit zeroHeap) = .ok (some p, h') ∧ Reachable zeroHeap
      ⟨h', [p]⟩ := by
  rcases memMalloc_spec (memInit_represents zeroHeap rfl) positive with
    ⟨_, none⟩ | ⟨left, b, right, e, rest, h', _, _, _, _, _, _, found, _⟩
  · rcases none ⟨0, memSizeAligned, false⟩ (by simp) with used | small
    · cases used
    · simp only [memSizeAligned] at small
      omega
  · exact ⟨_, h', found, Transition.Run.refl.tail (.malloc size) trivial
      ⟨word, _, h', found, rfl⟩⟩

/-- The invariant after one allocation. -/
theorem heap_run_invariant_malloc :
    ∃ s, Reachable zeroHeap s ∧ s.live ≠ [] ∧ Represents s.heap (heapBlocks s.heap) := by
  obtain ⟨p, h', _, reachable⟩ := @malloc_zeroHeap 100 (by decide) (by decide) (by decide)
  exact ⟨⟨h', [p]⟩, reachable, by simp, heap_run_invariant zeroHeap _ rfl reachable⟩

/-- When everything is freed, the heap is one free block again, as `mem_init` has left it. -/
theorem heap_recovers (h : Heap) (s : HeapState) (unused : h.used = 0)
    (reachable : Reachable h s) (freed : s.live = []) :
    Represents s.heap [⟨0, memSizeAligned, false⟩] := by
  obtain ⟨rep, owned⟩ := reachable.sound unused
  rw [freed, dataPointers, nil_perm, map_eq_nil_iff, map_eq_nil_iff] at owned
  generalize heapBlocks s.heap = blocks at rep owned
  have free : ∀ b ∈ blocks, b.used = false := by simpa [usedBlocks] using owned
  have tiles := rep.shape.tiles
  cases blocks with
  | nil => cases tiles
  | cons b rest =>
    cases rest with
    | nil =>
      have same : b = ⟨0, memSizeAligned, false⟩ := by
        cases b
        simp_all [Tiles]
      rwa [same] at rep
    | cons c more =>
      -- two neighbours are not both free
      have apart := rep.separated
      simp [Separated, free] at apart

/-- The theorem after one block has been allocated and freed. -/
theorem heap_recovers_freed :
    ∃ s, Reachable zeroHeap s ∧ Represents s.heap [⟨0, memSizeAligned, false⟩] := by
  obtain ⟨p, h', _, reachable⟩ := @malloc_zeroHeap 100 (by decide) (by decide) (by decide)
  have sound := reachable.sound rfl
  obtain ⟨left, b, right, split, used, rfl⟩ := sound.block mem_cons_self
  have rep := sound.represents
  rw [split] at rep
  obtain ⟨h'', _, freed, _⟩ := memFree_represents rep used
  have after : Reachable zeroHeap ⟨h'', []⟩ :=
    reachable.tail (.free _) trivial ⟨mem_cons_self, h'', freed, by simp⟩
  exact ⟨_, after, heap_recovers zeroHeap _ rfl after rfl⟩

/-! ## What is returned -/

/-- A size rounded up to the alignment and the minimum, without wrap-around. -/
def roundUp (size : Nat) : Nat := max minSizeAligned (memAlignSize size)

/-- Some unused block has room for `n` bytes of data. -/
def CanHold (h : Heap) (n : Nat) : Prop :=
  ∃ b ∈ heapBlocks h, b.used = false ∧ n ≤ b.stop - b.start - sizeofStructMem

/-- The pointer `p` that a heap with the given live pointers returned is a block with room for
`n` bytes up to its next header, and apart from all live blocks. -/
structure GoodBlock (s : HeapState) (h' : Heap) (p n : Nat) : Prop where
  usable : p + n ≤ memNext h'.ram (p - sizeofStructMem)
  /-- No live block overlaps it, headers included. -/
  disjoint : ∀ q ∈ s.live, memNext h'.ram (p - sizeofStructMem) ≤ q - sizeofStructMem ∨
    memNext s.heap.ram (q - sizeofStructMem) ≤ p - sizeofStructMem

/-- `mem_malloc` returns a good block exactly when some unused block can hold the rounded-up
size, and `NULL` otherwise. -/
def MallocMeets (s : HeapState) (size : Nat) : Prop :=
  (CanHold s.heap (roundUp size) →
    ∃ p h', memMalloc size s.heap = .ok (some p, h') ∧ GoodBlock s h' p size) ∧
  (¬CanHold s.heap (roundUp size) → ∃ h', memMalloc size s.heap = .ok (none, h'))

/-- `mem_calloc` returns `NULL`, or a good block for all objects that is zeroed, with nothing
written outside of it after it was allocated. -/
def CallocMeets (s : HeapState) (count size : Nat) : Prop :=
  (∃ h', memCalloc count size s.heap = .ok (none, h')) ∨
  ∃ p allocated h', memMalloc (u16 (count * size)) s.heap = .ok (some p, allocated) ∧
    memCalloc count size s.heap = .ok (some p, h') ∧ GoodBlock s allocated p (count * size) ∧
    (∀ i, i < count * size → h'.ram (p + i) = 0) ∧
    ∀ i, i < p ∨ memNext allocated.ram (p - sizeofStructMem) ≤ i → h'.ram i = allocated.ram i

theorem roundedSize_eq (small : size ≤ 65532) : roundedSize size = roundUp size := by
  have fits : u16 (memAlignSize size) = memAlignSize size :=
    u16_of_lt (by simp only [memAlignSize]; omega)
  rw [roundedSize, roundUp]
  split <;> omega

/-- Above 65532 bytes the rounded size is zero and replaced by the minimum. -/
theorem roundedSize_wrapped (large : 65532 < size) (word : size < 65536) :
    roundedSize size = minSizeAligned := by
  have wrapped : u16 (memAlignSize size) = 0 := by
    simp only [memAlignSize, u16]
    omega
  rw [roundedSize, wrapped]
  rfl

theorem le_roundUp (size : Nat) : size ≤ roundUp size := by
  simp only [roundUp, memAlignSize]
  omega

/-- In a sound heap `mem_malloc` returns `NULL` exactly when no unused block can hold the size
as it rounds it, and otherwise a good block for that size. -/
theorem HeapSound.malloc (sound : HeapSound s) (positive : 0 < size) :
    (¬CanHold s.heap (roundedSize size) ∧ memMalloc size s.heap = .ok (none, s.heap)) ∨
      CanHold s.heap (roundedSize size) ∧ ∃ p h', memMalloc size s.heap = .ok (some p, h') ∧
        GoodBlock s h' p (roundedSize size) ∧
        memNext h'.ram (p - sizeofStructMem) ≤ memSizeAligned := by
  rcases memMalloc_spec sound.represents positive with
    ⟨none, all⟩ | ⟨left, b, right, e, rest, h', split, free, fits, big, within, _, found, rep⟩
  · refine .inl ⟨?_, none⟩
    rintro ⟨b, member, free, fits⟩
    rcases all b member with used | small
    · rw [free] at used
      cases used
    · simp only [sizeofStructMem] at fits
      omega
  · obtain ⟨first, _, _, _, _, own, _, _⟩ := shape_append_cons_iff.mp rep.shape
    have next : memNext h'.ram b.start = e := congrArg Header.next own
    refine .inr ⟨⟨b, by rw [split]; simp, free, fits⟩, _, h', found, ⟨?_, ?_⟩, ?_⟩
    · rw [Nat.add_sub_cancel, next]
      exact big
    · intro q live
      obtain ⟨left', c, right', split', used, rfl⟩ := sound.block live
      have tiles := sound.represents.shape.tiles
      have listedB : b ∈ heapBlocks s.heap := by rw [split]; simp
      have listedC : c ∈ heapBlocks s.heap := by rw [split']; simp
      have shape := sound.represents.shape
      rw [split'] at shape
      have nextC : memNext s.heap.ram c.start = c.stop :=
        congrArg Header.next (shape_append_cons_iff.mp shape).2.2.2.2.2.1
      rw [Nat.add_sub_cancel, Nat.add_sub_cancel, nextC]
      rcases tiles.apart listedB listedC with rfl | before | behind
      · rw [free] at used
        cases used
      · exact .inl (by omega)
      · exact .inr behind
    · rw [Nat.add_sub_cancel, next]
      exact (rep.shape.tiles.mem (b := ⟨b.start, e, true⟩) (by simp)).2.2

theorem HeapSound.canHold_min (sound : HeapSound s) :
    CanHold s.heap minSizeAligned ↔ ∃ b ∈ heapBlocks s.heap, b.used = false := by
  constructor
  · rintro ⟨b, member, free, _⟩
    exact ⟨b, member, free⟩
  · rintro ⟨b, member, free⟩
    have wide := (sound.represents.shape.tiles.mem member).2.1
    exact ⟨b, member, free, by simp only [minSizeAligned, sizeofStructMem] at wide ⊢; omega⟩

/-- `mem_malloc` does what it should exactly for sizes up to 65532, or when nothing is free. -/
theorem HeapSound.mallocMeets_iff (sound : HeapSound s) (positive : 0 < size)
    (word : size < 65536) :
    MallocMeets s size ↔ size ≤ 65532 ∨ ∀ b ∈ heapBlocks s.heap, b.used = true := by
  by_cases small : size ≤ 65532
  · refine iff_of_true ?_ (Or.inl small)
    rw [MallocMeets, ← roundedSize_eq small]
    rcases sound.malloc positive with ⟨cannot, none⟩ | ⟨can, p, h', found, good, _⟩
    · exact ⟨fun can => absurd can cannot, fun _ => ⟨_, none⟩⟩
    · refine ⟨fun _ => ⟨p, h', found, ⟨?_, good.disjoint⟩⟩, fun cannot => absurd can cannot⟩
      have room := le_roundUp size
      have usable := good.usable
      rw [roundedSize_eq small] at usable
      omega
  · have impossible : ¬CanHold s.heap (roundUp size) := by
      rintro ⟨b, member, _, fits⟩
      have inside := (sound.represents.shape.tiles.mem member).2.2
      have large := le_roundUp size
      simp only [memSizeAligned] at inside
      omega
    have wrapped := sound.malloc positive
    rw [roundedSize_wrapped (by omega) word, sound.canHold_min] at wrapped
    have noneFree : (¬∃ b ∈ heapBlocks s.heap, b.used = false) ↔
        ∀ b ∈ heapBlocks s.heap, b.used = true := by simp
    simp only [MallocMeets, small, false_or, impossible, false_implies, true_and,
      not_false_eq_true, forall_const, ← noneFree]
    rcases wrapped with ⟨cannot, none⟩ | ⟨can, p, h', found, _⟩
    · exact iff_of_true ⟨_, none⟩ cannot
    · refine iff_of_false ?_ (fun cannot => cannot can)
      rintro ⟨h'', none⟩
      rw [found] at none
      cases none

/-- `mem_calloc` does what it should exactly when the product does not wrap around, when it
wraps around to zero, or when the wrapped size cannot be allocated. -/
theorem HeapSound.callocMeets_iff (sound : HeapSound s) (count size : Nat) :
    CallocMeets s count size ↔ count * size ≤ 65532 ∨ count * size % 65536 = 0 ∨
      ¬CanHold s.heap (roundedSize (count * size % 65536)) := by
  generalize product : count * size = n
  have wrap : u16 (count * size) = n % 65536 := by rw [product]; rfl
  by_cases zero : n % 65536 = 0
  · refine iff_of_true (Or.inl ⟨s.heap, ?_⟩) (Or.inr (Or.inl zero))
    rw [memCalloc, wrap, zero]
    rfl
  rcases sound.malloc (Nat.pos_of_ne_zero zero) with
    ⟨cannot, none⟩ | ⟨can, p, allocated, found, good, inside⟩
  · refine iff_of_true (Or.inl ⟨s.heap, ?_⟩) (Or.inr (Or.inr cannot))
    rw [memCalloc, wrap, none]
    rfl
  have called : memCalloc count size s.heap =
      .ok (some p, { allocated with ram := memsetZero allocated.ram p n }) := by
    rw [memCalloc, wrap, found, product]
    rfl
  simp only [zero, can, not_true_eq_false, or_false]
  constructor
  · rintro (⟨h', none⟩ | ⟨p', allocated', h', found', _, good', _, _⟩)
    · rw [called] at none
      cases none
    · rw [wrap, found] at found'
      cases found'
      have usable := good'.usable
      simp only [memSizeAligned, product] at inside usable
      omega
  · intro small
    have same : n % 65536 = n := Nat.mod_eq_of_lt (by omega)
    rw [same] at found good
    have room := le_roundUp n
    have usable := good.usable
    rw [roundedSize_eq small] at usable
    refine .inr ⟨p, allocated, _, by rw [wrap, same]; exact found, called, ⟨?_, good.disjoint⟩,
      ?_, ?_⟩
    · omega
    · intro i below
      simp only [memsetZero]
      rw [if_pos (by omega)]
    · intro i outside
      simp only [memsetZero]
      rw [if_neg (by omega)]

/-- In every reachable heap, `mem_malloc` of any size above zero and `mem_calloc` of any
numbers do what they should exactly under these conditions on the sizes. -/
theorem malloc_calloc_meet_iff (h : Heap) (s : HeapState) (size count objectSize : Nat)
    (unused : h.used = 0) (reachable : Reachable h s) (positive : 0 < size)
    (word : size < 65536) :
    (MallocMeets s size ↔ size ≤ 65532 ∨ ∀ b ∈ heapBlocks s.heap, b.used = true) ∧
    (CallocMeets s count objectSize ↔ count * objectSize ≤ 65532 ∨
      count * objectSize % 65536 = 0 ∨
      ¬CanHold s.heap (roundedSize (count * objectSize % 65536))) :=
  ⟨(reachable.sound unused).mallocMeets_iff positive word,
    (reachable.sound unused).callocMeets_iff count objectSize⟩

/-- The first allocations of a heap, of 100 bytes and of ten objects of 10 bytes. -/
theorem malloc_calloc_meet_iff_first :
    MallocMeets ⟨memInit zeroHeap, []⟩ 100 ∧ CallocMeets ⟨memInit zeroHeap, []⟩ 10 10 := by
  obtain ⟨malloc, calloc⟩ := malloc_calloc_meet_iff zeroHeap ⟨memInit zeroHeap, []⟩ 100 10 10 rfl
    Transition.Run.refl (by decide) (by decide)
  exact ⟨malloc.mpr (Or.inl (by decide)), calloc.mpr (Or.inl (by decide))⟩

/-- In a fresh heap, 65533 bytes are allocated as a block of 12, and 256 objects of 257 bytes
as a block of 256 that `memset` runs out of. -/
theorem malloc_calloc_wrap_around :
    ¬MallocMeets ⟨memInit zeroHeap, []⟩ 65533 ∧ ¬CallocMeets ⟨memInit zeroHeap, []⟩ 256 257 := by
  have sound : HeapSound ⟨memInit zeroHeap, []⟩ :=
    Reachable.sound (h := zeroHeap) Transition.Run.refl rfl
  have blocks : heapBlocks (memInit zeroHeap) = [⟨0, memSizeAligned, false⟩] :=
    (memInit_represents zeroHeap rfl).heapBlocks_eq
  constructor
  · rw [sound.mallocMeets_iff (by decide) (by decide)]
    simp [blocks]
  · rw [sound.callocMeets_iff]
    simp only [CanHold, blocks]
    simp [roundedSize, memAlignSize, u16, minSizeAligned, memSizeAligned, sizeofStructMem]

end Lwip.Mem
