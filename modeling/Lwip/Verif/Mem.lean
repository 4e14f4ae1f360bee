import Lwip.Base.BlockList
import Lwip.Base.Transition
import Lwip.Core.Mem

/-!
# The heap is a block list

The headers in the memory of the heap describe a list of adjoining blocks. Every operation on
live blocks keeps this: the writes of `mem_malloc`, `mem_free` and `mem_trim` replace a few
neighbouring blocks by others over the same memory, and no header overlaps what they change.
-/

namespace Lwip.Mem

open BlockList List

variable {prev hi size fuel : Nat} {left right blocks : List Block} {b : Block} {h : Heap}

/-! ## Headers -/

/-- The fields of a `struct mem`, as the functions read them. -/
structure Header where
  next : Nat
  prev : Nat
  used : Bool

/-- The header at an offset. -/
def header (ram : Nat → UInt8) (p : Nat) : Header :=
  { next := memNext ram p, prev := memPrev ram p, used := memUsed ram p != 0 }

variable {ram ram' : Nat → UInt8} {p q v : Nat}

theorem header_congr (same : ∀ i, p ≤ i → i < p + 5 → ram' i = ram i) :
    header ram' p = header ram p := by
  have at0 := same p (by omega) (by omega)
  have at1 := same (p + 1) (by omega) (by omega)
  have at2 := same (p + 2) (by omega) (by omega)
  have at3 := same (p + 2 + 1) (by omega) (by omega)
  have at4 := same (p + 4) (by omega) (by omega)
  simp only [header, memNext, memPrev, memUsed, hostU16, at0, at1, at2, at3, at4]

theorem setByte_eq (ram : Nat → UInt8) (i : Nat) (v : UInt8) (j : Nat) :
    setByte ram i v j = if j = i then v else ram j := rfl

/-- Storing `next` does not touch a header apart from it. -/
theorem header_setNext_apart (apart : p + 5 ≤ q ∨ q + 5 ≤ p) :
    header (setNext ram q v) p = header ram p := by
  apply header_congr
  intro i low high
  simp only [setNext, setU16, setByte_eq]
  rw [if_neg (by omega), if_neg (by omega)]

theorem header_setPrev_apart (apart : p + 5 ≤ q ∨ q + 5 ≤ p) :
    header (setPrev ram q v) p = header ram p := by
  apply header_congr
  intro i low high
  simp only [setPrev, setU16, setByte_eq]
  rw [if_neg (by omega), if_neg (by omega)]

theorem header_setUsed_apart {u : UInt8} (apart : p + 5 ≤ q ∨ q + 5 ≤ p) :
    header (setUsed ram q u) p = header ram p := by
  apply header_congr
  intro i low high
  simp only [setUsed, setByte_eq]
  rw [if_neg (by omega)]

theorem hostU16_setU16 (word : v < 65536) : hostU16 (setU16 ram p v) p = v := by
  simp only [hostU16, setU16, setByte_eq, ↓reduceIte]
  rw [if_neg (by omega)]
  simp only [UInt8.toNat_ofNat']
  omega

/-- A 16-bit value is not touched by storing another one. -/
theorem hostU16_setU16_apart (apart : p + 2 ≤ q ∨ q + 2 ≤ p) :
    hostU16 (setU16 ram q v) p = hostU16 ram p := by
  simp only [hostU16, setU16, setByte_eq]
  rw [if_neg (by omega), if_neg (by omega), if_neg (by omega), if_neg (by omega)]

/-- A byte is not touched by storing a 16-bit value elsewhere. -/
theorem setU16_apart {i : Nat} (apart : i < q ∨ q + 2 ≤ i) : setU16 ram q v i = ram i := by
  simp only [setU16, setByte_eq]
  rw [if_neg (by omega), if_neg (by omega)]

theorem header_setNext (word : v < 65536) :
    header (setNext ram p v) p = { header ram p with next := v } := by
  simp only [header, memNext, memPrev, memUsed, setNext]
  rw [hostU16_setU16 word, hostU16_setU16_apart (by omega), setU16_apart (by omega)]

theorem header_setPrev (word : v < 65536) :
    header (setPrev ram p v) p = { header ram p with prev := v } := by
  simp only [header, memNext, memPrev, memUsed, setPrev]
  rw [hostU16_setU16 word, hostU16_setU16_apart (by omega), setU16_apart (by omega)]

theorem header_setUsed (u : UInt8) :
    header (setUsed ram p u) p = { header ram p with used := u != 0 } := by
  have next : hostU16 (setByte ram (p + 4) u) p = hostU16 ram p := by
    simp only [hostU16, setByte_eq]
    rw [if_neg (by omega), if_neg (by omega)]
  have prev : hostU16 (setByte ram (p + 4) u) (p + 2) = hostU16 ram (p + 2) := by
    simp only [hostU16, setByte_eq]
    rw [if_neg (by omega), if_neg (by omega)]
  simp only [header, memNext, memPrev, memUsed, setUsed, next, prev, setByte_eq, ↓reduceIte]

/-! ## Linked blocks -/

/-- The headers of the blocks hold their ends, their predecessors and their marks. -/
def Linked (ram : Nat → UInt8) (prev : Nat) : List Block → Prop
  | [] => True
  | b :: rest => header ram b.start = ⟨b.stop, prev, b.used⟩ ∧ Linked ram b.start rest

/-- Start of the last block, or the given predecessor. -/
def lastStart (prev : Nat) : List Block → Nat
  | [] => prev
  | b :: rest => lastStart b.start rest

theorem linked_append :
    Linked ram prev (left ++ right) ↔
      Linked ram prev left ∧ Linked ram (lastStart prev left) right := by
  induction left generalizing prev with
  | nil => simp [Linked, lastStart]
  | cons b rest ih => simp only [cons_append, Linked, lastStart, ih, and_assoc]

/-- Blocks stay linked where their headers are not touched. -/
theorem Linked.of_same (linked : Linked ram prev blocks)
    (same : ∀ b ∈ blocks, header ram' b.start = header ram b.start) : Linked ram' prev blocks := by
  induction blocks generalizing prev with
  | nil => trivial
  | cons b rest ih =>
    exact ⟨(same b mem_cons_self).trans linked.1,
      ih linked.2 fun c member => same c (mem_cons_of_mem b member)⟩

theorem Linked.relink {prev' : Nat} (linked : Linked ram prev blocks)
    (first : ∀ b ∈ blocks.head?, header ram' b.start = { header ram b.start with prev := prev' })
    (rest : ∀ b ∈ blocks.tail, header ram' b.start = header ram b.start) :
    Linked ram' prev' blocks := by
  cases blocks with
  | nil => trivial
  | cons b behind => exact ⟨by rw [first b (by simp), linked.1], linked.2.of_same rest⟩

/-- The memory holds a block list over the whole heap, and `ram_end` is marked as used. -/
structure Shape (ram : Nat → UInt8) (blocks : List Block) : Prop where
  /-- The blocks adjoin, are aligned and have room for a header and `MIN_SIZE_ALIGNED`. -/
  tiles : Tiles (sizeofStructMem + minSizeAligned) 4 0 blocks memSizeAligned
  linked : Linked ram 0 blocks
  /-- The last header is never free. -/
  ramEnd : (header ram memSizeAligned).used = true

/-- The three parts of a shape around a group of blocks, in numbers. -/
theorem shape_append_cons_iff :
    Shape ram (left ++ b :: right) ↔
      Tiles 20 4 0 left b.start ∧ b.start + 20 ≤ b.stop ∧ b.stop % 4 = 0 ∧
        Tiles 20 4 b.stop right 10240 ∧ Linked ram 0 left ∧
        header ram b.start = ⟨b.stop, lastStart 0 left, b.used⟩ ∧ Linked ram b.start right ∧
        (header ram 10240).used = true := by
  constructor
  · rintro ⟨tiles, linked, ramEnd⟩
    obtain ⟨first, wide, aligned, second⟩ := tiles_append_cons.mp tiles
    obtain ⟨linkedLeft, own, linkedRight⟩ := linked_append.mp linked
    exact ⟨first, wide, aligned, second, linkedLeft, own, linkedRight, ramEnd⟩
  · rintro ⟨first, wide, aligned, second, linkedLeft, own, linkedRight, ramEnd⟩
    exact ⟨tiles_append_cons.mpr ⟨first, wide, aligned, second⟩,
      linked_append.mpr ⟨linkedLeft, own, linkedRight⟩, ramEnd⟩

theorem Shape.setUsed (shape : Shape ram (left ++ b :: right)) (u : UInt8) :
    Shape (setUsed ram b.start u) (left ++ { b with used := u != 0 } :: right) := by
  obtain ⟨first, wide, aligned, second, linkedLeft, own, linkedRight, ramEnd⟩ :=
    shape_append_cons_iff.mp shape
  have upper := second.le
  refine shape_append_cons_iff.mpr ⟨first, wide, aligned, second, ?_, ?_, ?_, ?_⟩
  · apply linkedLeft.of_same
    intro c member
    have := first.mem member
    exact header_setUsed_apart (by omega)
  · rw [header_setUsed, own]
  · apply linkedRight.of_same
    intro c member
    have := second.mem member
    exact header_setUsed_apart (by omega)
  · rw [header_setUsed_apart (by omega), ramEnd]

theorem Shape.merge {n : Block} (shape : Shape ram (left ++ b :: n :: right)) :
    Shape (setPrev (setNext ram b.start n.stop) n.stop b.start)
      (left ++ { b with stop := n.stop } :: right) := by
  obtain ⟨first, wide, aligned, ⟨adjoins, wideN, alignedN, second⟩, linkedLeft, own,
    ⟨ownN, linkedRight⟩, ramEnd⟩ := shape_append_cons_iff.mp shape
  have upper := second.le
  refine shape_append_cons_iff.mpr ⟨first, by dsimp only; omega, alignedN, second, ?_, ?_, ?_, ?_⟩
  · apply linkedLeft.of_same
    intro c member
    have := first.mem member
    rw [header_setPrev_apart (by omega), header_setNext_apart (by omega)]
  · dsimp only
    rw [header_setPrev_apart (by omega), header_setNext (by omega), own]
  · apply linkedRight.relink
    · intro c member
      rw [second.head member, header_setPrev (by omega), header_setNext_apart (by omega)]
    · intro c member
      have := second.tail member
      rw [header_setPrev_apart (by omega), header_setNext_apart (by omega)]
  · by_cases last : n.stop = 10240
    · rw [last, header_setPrev (by omega), header_setNext_apart (by omega)]
      exact ramEnd
    · have := second.room last
      rw [header_setPrev_apart (by omega), header_setNext_apart (by omega), ramEnd]

/-! ## Cutting a block -/

/-- The headers that cutting a block at `q` makes. -/
theorem header_cutBlock {s : Nat} (mark : Bool) (ram : Nat → UInt8) (before : s + 5 ≤ q)
    (behind : q + 5 ≤ hi) (word : hi < 65536) :
    header (cutBlock mark ram s q hi) s =
        { header ram s with next := q, used := mark || (header ram s).used } ∧
      header (cutBlock mark ram s q hi) q = ⟨hi, s, false⟩ ∧
      header (cutBlock mark ram s q hi) hi =
        { header ram hi with
          prev := if hi = memSizeAligned then (header ram hi).prev else q } ∧
      ∀ p, (p + 5 ≤ s ∨ s + 5 ≤ p) → (p + 5 ≤ q ∨ q + 5 ≤ p) → (p + 5 ≤ hi ∨ hi + 5 ≤ p) →
        header (cutBlock mark ram s q hi) p = header ram p := by
  -- all but the last write, which only concerns the header at `hi`
  let written := setNext (setPrev (setNext (setUsed ram q 0) q hi) q s) s q
  let marked := if mark then setUsed written s 1 else written
  have atS : header marked s =
      { header ram s with next := q, used := mark || (header ram s).used } := by
    have plain : header written s = { header ram s with next := q } := by
      rw [header_setNext (by omega), header_setPrev_apart (by omega),
        header_setNext_apart (by omega), header_setUsed_apart (by omega)]
    cases mark with
    | false => simp [marked, plain]
    | true => simp [marked, header_setUsed, plain]
  have atQ : header marked q = ⟨hi, s, false⟩ := by
    have plain : header written q = ⟨hi, s, false⟩ := by
      rw [header_setNext_apart (by omega), header_setPrev (by omega), header_setNext word,
        header_setUsed]
      rfl
    cases mark with
    | false => exact plain
    | true => exact (header_setUsed_apart (by omega)).trans plain
  have elsewhere : ∀ p, (p + 5 ≤ s ∨ s + 5 ≤ p) → (p + 5 ≤ q ∨ q + 5 ≤ p) →
      header marked p = header ram p := by
    intro p apartS apartQ
    have plain : header written p = header ram p := by
      rw [header_setNext_apart apartS, header_setPrev_apart apartQ, header_setNext_apart apartQ,
        header_setUsed_apart apartQ]
    cases mark with
    | false => exact plain
    | true => exact (header_setUsed_apart apartS).trans plain
  have next : memNext marked q = hi := congrArg Header.next atQ
  have unfolded : cutBlock mark ram s q hi =
      if memNext marked q ≠ memSizeAligned then setPrev marked (memNext marked q) q
      else marked := rfl
  rw [unfolded, next]
  by_cases last : hi = memSizeAligned
  · rw [if_neg (by simpa using last), if_pos last]
    exact ⟨atS, atQ, elsewhere hi (by omega) (by omega), fun p apartS apartQ _ =>
      elsewhere p apartS apartQ⟩
  · rw [if_pos last, if_neg last]
    refine ⟨?_, ?_, ?_, fun p apartS apartQ apartHi => ?_⟩
    · rw [header_setPrev_apart (by omega), atS]
    · rw [header_setPrev_apart (by omega), atQ]
    · rw [header_setPrev (by omega), elsewhere hi (by omega) (by omega)]
    · rw [header_setPrev_apart apartHi, elsewhere p apartS apartQ]

/-- Cutting a block, together with the blocks up to `hi` behind it. -/
theorem Shape.cut (mark : Bool) (middle : List Block)
    (shape : Shape ram (left ++ b :: (middle ++ right))) (covered : Tiles 20 4 b.stop middle hi)
    (rest : Tiles 20 4 hi right 10240) (before : b.start + 20 ≤ q) (behind : q + 20 ≤ hi)
    (aligned : q % 4 = 0) :
    Shape (cutBlock mark ram b.start q hi)
      (left ++ ⟨b.start, q, mark || b.used⟩ :: ⟨q, hi, false⟩ :: right) := by
  obtain ⟨first, wide, ends, _, linkedLeft, own, linkedMiddle, ramEnd⟩ :=
    shape_append_cons_iff.mp shape
  have upper := rest.le
  obtain ⟨atB, atQ, atHi, elsewhere⟩ := header_cutBlock mark ram (s := b.start) (q := q) (by omega)
    (by omega) (by omega : hi < 65536)
  refine shape_append_cons_iff.mpr ⟨first, before, aligned,
    ⟨rfl, behind, covered.end_aligned ends, rest⟩, ?_, ?_, ⟨atQ, ?_⟩, ?_⟩
  · apply linkedLeft.of_same
    intro c member
    have := first.mem member
    exact elsewhere c.start (by omega) (by omega) (by omega)
  · dsimp only
    rw [atB, own]
  · have linkedRight := (linked_append.mp linkedMiddle).2
    apply linkedRight.relink
    · intro c member
      have start := rest.head member
      have room : hi ≠ memSizeAligned := by
        intro last
        have := rest.mem (mem_of_mem_head? member)
        simp only [memSizeAligned] at last
        omega
      rw [start, atHi, if_neg room]
    · intro c member
      have := rest.tail member
      exact elsewhere c.start (by omega) (by omega) (by omega)
  · by_cases last : hi = 10240
    · rw [last] at atHi
      rw [last, atHi]
      exact ramEnd
    · have := rest.room last
      rw [elsewhere 10240 (by omega) (by omega) (by omega), ramEnd]

/-! ## Whole states of the heap -/

/-- The heap holds a block list: no two neighbours are free, `lfree` is the lowest free block
or `ram_end`, and the statistic counts the used blocks. -/
structure Represents (h : Heap) (blocks : List Block) : Prop where
  shape : Shape h.ram blocks
  separated : Separated blocks
  lfree : h.lfree = firstFree memSizeAligned blocks
  used : h.used = usedSize blocks

theorem memInit_represents (h : Heap) (unused : h.used = 0) :
    Represents (memInit h) [⟨0, memSizeAligned, false⟩] := by
  have first : header (memInit h).ram 0 = ⟨memSizeAligned, 0, false⟩ := by
    simp only [memInit]
    rw [header_setPrev_apart (by decide), header_setNext_apart (by decide),
      header_setUsed_apart (by decide), header_setUsed, header_setPrev (by decide),
      header_setNext (by decide)]
    rfl
  have last : (header (memInit h).ram memSizeAligned).used = true := by
    simp only [memInit]
    rw [header_setPrev (by decide), header_setNext (by decide), header_setUsed]
    rfl
  refine ⟨⟨⟨rfl, by decide, by decide, rfl⟩, ⟨first, trivial⟩, last⟩, ?_, rfl, ?_⟩
  · exact isChain_singleton _
  · simp [usedSize, memInit, unused]

/-! ## `mem_free` -/

/-- A block has just been freed: its neighbours may be free as well. -/
structure Freed (h : Heap) (left : List Block) (b : Block) (right : List Block) : Prop where
  shape : Shape h.ram (left ++ b :: right)
  free : b.used = false
  lfree : h.lfree = firstFree b.start left
  used : h.used = usedSize left + usedSize right
  separatedLeft : Separated left
  separatedRight : Separated right

/-- `plug_holes` forward: afterwards the successor is used. -/
theorem Freed.plugForward (freed : Freed h left b right) :
    ∃ b' right', Freed (plugForward b.start h) left b' right' ∧ b'.start = b.start ∧
      (∀ n ∈ right'.head?, n.used = true) ∧ usedBlocks right' = usedBlocks right := by
  obtain ⟨shape, free, lfree, used, separatedLeft, separatedRight⟩ := freed
  obtain ⟨first, wide, _, second, _, own, linkedRight, ramEnd⟩ := shape_append_cons_iff.mp shape
  have next : memNext h.ram b.start = b.stop := congrArg Header.next own
  have low := first.firstFree_range.2
  unfold Mem.plugForward
  rw [next]
  cases right with
  | nil =>
    have last : b.stop = memSizeAligned := second
    rw [if_neg (by simp [last])]
    exact ⟨b, [], ⟨shape, free, lfree, used, separatedLeft, separatedRight⟩, rfl, by simp, rfl⟩
  | cons n rest =>
    obtain ⟨adjoins, wideN, _, behind⟩ := second
    have upper := behind.le
    have mark : (memUsed h.ram b.stop != 0) = n.used := by
      rw [← adjoins]
      exact congrArg Header.used linkedRight.1
    cases usedN : n.used with
    | true =>
      rw [usedN] at mark
      rw [if_neg (by simp_all)]
      exact ⟨b, n :: rest, ⟨shape, free, lfree, used, separatedLeft, separatedRight⟩, rfl,
        by simpa using usedN, rfl⟩
    | false =>
      rw [usedN] at mark
      have nextN : memNext h.ram b.stop = n.stop := by
        rw [← adjoins]
        exact congrArg Header.next linkedRight.1
      have nextN' : memNext (setNext h.ram b.start n.stop) b.stop = n.stop := by
        rw [← nextN]
        exact congrArg Header.next (header_setNext_apart (by omega))
      have free' : memUsed h.ram b.stop = 0 := by simpa using mark
      rw [if_pos ⟨by omega, free', by simp only [memSizeAligned]; omega⟩]
      simp only [nextN, nextN']
      refine ⟨{ b with stop := n.stop }, rest, ⟨shape.merge, free, ?_, ?_, separatedLeft, ?_⟩, rfl,
        ?_, ?_⟩
      · rw [if_neg (by omega)]
        exact lfree
      · simpa [usedSize, usedN] using used
      · exact (isChain_cons.mp separatedRight).2
      · intro m member
        have := (isChain_cons.mp separatedRight).1 m member
        simpa [usedN] using this
      · simp [usedBlocks, usedN]

/-- The predecessor of a block that is not the first one. -/
theorem lastStart_append (prev : Nat) (left : List Block) (p : Block) :
    lastStart prev (left ++ [p]) = p.start := by
  induction left generalizing prev with
  | nil => rfl
  | cons b rest ih => exact ih b.start

/-- `plug_holes` backward: afterwards the heap is in order again. -/
theorem Freed.plugBackward (freed : Freed h left b right)
    (closed : ∀ n ∈ right.head?, n.used = true) :
    ∃ blocks, Represents (plugBackward b.start h) blocks ∧
      usedBlocks blocks = usedBlocks left ++ usedBlocks right := by
  obtain ⟨shape, free, lfree, used, separatedLeft, separatedRight⟩ := freed
  obtain ⟨first, wide, _, second, linkedLeft, own, _, _⟩ := shape_append_cons_iff.mp shape
  have prev : memPrev h.ram b.start = lastStart 0 left := congrArg Header.prev own
  have next : memNext h.ram b.start = b.stop := congrArg Header.next own
  have plain (before : ∀ p ∈ left.getLast?, p.used = true) :
      Represents h (left ++ b :: right) := by
    refine ⟨shape, separated_append_cons.mpr ⟨separatedLeft, separatedRight, ?_, ?_⟩, ?_, ?_⟩
    · exact fun l member => .inl (before l member)
    · exact fun r member => .inr (closed r member)
    · rw [lfree, firstFree_append_cons_free free]
    · rw [used, usedSize_append_cons_free free]
  unfold Mem.plugBackward
  rw [prev]
  rcases eq_nil_or_concat left with rfl | ⟨before, p, rfl⟩
  · have start : b.start = 0 := first.symm
    rw [if_neg (by simp [lastStart, start])]
    exact ⟨_, plain (by simp), usedBlocks_append_cons_free free⟩
  rw [concat_eq_append] at *
  rw [lastStart_append]
  obtain ⟨firstP, wideP, _, adjoins⟩ := tiles_append_cons.mp first
  have meets : p.stop = b.start := adjoins
  have ownP : header h.ram p.start = ⟨p.stop, lastStart 0 before, p.used⟩ :=
    (linked_append.mp linkedLeft).2.1
  have mark : (memUsed h.ram p.start != 0) = p.used := congrArg Header.used ownP
  cases usedP : p.used with
  | true =>
    rw [usedP] at mark
    rw [if_neg (by simp_all)]
    exact ⟨_, plain (by simpa using usedP), usedBlocks_append_cons_free free⟩
  | false =>
    rw [usedP] at mark
    have free' : memUsed h.ram p.start = 0 := by simpa using mark
    have next' : memNext (setNext h.ram p.start b.stop) b.start = b.stop := by
      rw [← next]
      exact congrArg Header.next (header_setNext_apart (by omega))
    have lowest := lfree.trans (firstFree_append_cons_free usedP)
    have low := firstP.firstFree_range.2
    rw [if_pos ⟨by omega, free'⟩]
    simp only [next, next']
    rw [if_neg (by omega)]
    have merged : Shape h.ram (before ++ p :: b :: right) := by simpa using shape
    obtain ⟨separatedBefore, _, usedBefore, _⟩ := separated_append_cons.mp separatedLeft
    refine ⟨before ++ { p with stop := b.stop } :: right, ⟨merged.merge, ?_, ?_, ?_⟩, ?_⟩
    · refine separated_append_cons.mpr ⟨separatedBefore, separatedRight, ?_, ?_⟩
      · intro l member
        exact .inl (by simpa [usedP] using usedBefore l member)
      · exact fun r member => .inr (closed r member)
    · rw [firstFree_append_cons_free (b := { p with stop := b.stop }) usedP]
      exact lowest
    · rw [usedSize_append_cons_free (b := { p with stop := b.stop }) usedP]
      rw [usedSize_append_cons_free usedP] at used
      exact used
    · rw [usedBlocks_append_cons_free (b := { p with stop := b.stop }) usedP,
        usedBlocks_append_cons_free usedP]
      simp [usedBlocks]

/-- `mem_free` of a used block succeeds, and the block is no longer used. -/
theorem memFree_represents (rep : Represents h (left ++ b :: right)) (used : b.used = true) :
    ∃ h' blocks, memFree (some (b.start + sizeofStructMem)) h = .ok h' ∧ Represents h' blocks ∧
      usedBlocks blocks = usedBlocks left ++ usedBlocks right := by
  obtain ⟨shape, separated, lfree, statistic⟩ := rep
  obtain ⟨first, wide, aligned, second, _, own, _, _⟩ := shape_append_cons_iff.mp shape
  have upper := second.le
  have begins := first.end_aligned (by decide)
  obtain ⟨separatedLeft, separatedRight, _, _⟩ := separated_append_cons.mp separated
  have total := shape.tiles.usedSize_le
  rw [usedSize_append_cons_used used] at statistic total
  have mark : memUsed h.ram b.start ≠ 0 := by
    have := congrArg Header.used own
    simpa [header, used] using this
  have next : memNext (setUsed h.ram b.start 0) b.start = b.stop :=
    (congrArg Header.next (header_setUsed 0)).trans (congrArg Header.next own)
  have counted : toU16 ((h.used : Int) - ((b.stop : Int) - b.start)) =
      usedSize left + usedSize right := by
    simp only [memSizeAligned] at total
    exact toU16_eq (by omega) (by omega)
  have lowest : (if b.start < h.lfree then b.start else h.lfree) = firstFree b.start left := by
    rw [lfree, firstFree_append_cons_used used]
    have behind := second.firstFree_range.1
    rcases first.firstFree_cases (by decide) with all | ⟨low, same⟩
    · rw [all, all]
      exact if_pos (by simp only [memSizeAligned]; omega)
    · rw [same (firstFree memSizeAligned right), if_neg (by omega)]
  have freed : Freed
      { ram := setUsed h.ram b.start 0
        lfree := if b.start < h.lfree then b.start else h.lfree
        used := toU16 ((h.used : Int) - ((b.stop : Int) - b.start)) }
      left { b with used := false } right :=
    ⟨shape.setUsed 0, rfl, lowest, counted, separatedLeft, separatedRight⟩
  obtain ⟨b', right', freed', start, closed, same⟩ := freed.plugForward
  obtain ⟨blocks, represents, kept⟩ := freed'.plugBackward closed
  rw [same] at kept
  rw [start] at represents
  refine ⟨_, blocks, ?_, represents, kept⟩
  have cleared : memUsed (setUsed h.ram b.start 0) b.start = 0 := by
    simp [memUsed, setUsed, setByte_eq]
  simp only [memFree, Nat.add_sub_cancel, plugHoles]
  rw [lwipAssert_pos (by simp only [sizeofStructMem]; omega), ok_bind,
    lwipAssert_pos (by simp only [sizeofStructMem, memSizeAligned]; omega), ok_bind,
    lwipAssert_pos mark, ok_bind, lwipAssert_pos (by simp only [memSizeAligned]; omega), ok_bind,
    lwipAssert_pos cleared, ok_bind, next, lwipAssert_pos (by simpa [memSizeAligned] using upper),
    ok_bind]

/-! ## `mem_malloc` -/

/-- A rounded size is aligned and not below the minimum. -/
theorem roundedSize_spec (size : Nat) : 12 ≤ roundedSize size ∧ roundedSize size % 4 = 0 := by
  have aligned : u16 (memAlignSize size) % 4 = 0 := by
    simp only [u16, memAlignSize]
    omega
  rw [roundedSize]
  split
  · decide
  · rename_i large
    exact ⟨Nat.le_of_not_lt large, aligned⟩

theorem userSize_eq (next : (header ram b.start).next = b.stop) (wide : b.start + 20 ≤ b.stop)
    (upper : b.stop ≤ 10240) : userSize ram b.start = b.stop - b.start - 8 := by
  have read : memNext ram b.start = b.stop := next
  rw [userSize, read, toU32_of_range (by simp only [sizeofStructMem]; omega)
    (by simp only [sizeofStructMem]; omega)]
  simp only [sizeofStructMem]
  omega

/-- Induction along the blocks that a search with enough fuel comes by. -/
@[elab_as_elim]
theorem Linked.search_induction {motive : Nat → Nat → List Block → Prop}
    (nil : ∀ fuel, motive (fuel + 1) 10240 [])
    (cons : ∀ fuel b rest, Tiles 20 4 b.start (b :: rest) 10240 → b.start + 20 ≤ b.stop →
      b.stop ≤ 10240 → memNext ram b.start = b.stop → (memUsed ram b.start != 0) = b.used →
      motive fuel b.stop rest → motive (fuel + 1) b.start (b :: rest))
    {ptr : Nat} {rest : List Block} (linked : Linked ram prev rest)
    (tiles : Tiles 20 4 ptr rest 10240) (enough : rest.length < fuel) : motive fuel ptr rest := by
  induction rest generalizing ptr prev fuel with
  | nil =>
    obtain ⟨more, rfl⟩ : ∃ more, fuel = more + 1 := ⟨fuel - 1, by simp at enough; omega⟩
    rw [show ptr = 10240 from tiles]
    exact nil more
  | cons b rest ih =>
    obtain ⟨more, rfl⟩ : ∃ more, fuel = more + 1 := ⟨fuel - 1, by simp at enough; omega⟩
    simp only [length_cons, Nat.add_lt_add_iff_right] at enough
    have whole := tiles
    obtain ⟨rfl, wide, _, behind⟩ := tiles
    exact cons more b rest whole wide behind.le (congrArg Header.next linked.1)
      (congrArg Header.used linked.1) (ih linked.2 behind enough)

/-- The search finds a free block that is big enough, if there is one from `ptr` on. -/
theorem mallocSearch_spec {ptr : Nat} {rest : List Block} (tiles : Tiles 20 4 ptr rest 10240)
    (linked : Linked ram prev rest) (enough : rest.length < fuel) :
    (mallocSearch ram size fuel ptr = .ok none ∧
        ∀ b ∈ rest, b.used = true ∨ b.stop - b.start - 8 < size) ∨
      ∃ before b after, rest = before ++ b :: after ∧ b.used = false ∧
        size ≤ b.stop - b.start - 8 ∧ mallocSearch ram size fuel ptr = .ok (some b.start) := by
  refine linked.search_induction ?_ ?_ tiles enough
  · intro fuel
    left
    refine ⟨?_, by simp⟩
    rw [mallocSearch, if_neg (by simp only [memSizeAligned]; omega)]
  · intro fuel b rest whole wide upper next mark ih
    rw [mallocSearch]
    by_cases inRange : b.start < memSizeAligned - size
    · rw [if_pos inRange, userSize_eq next wide upper]
      by_cases found : memUsed ram b.start = 0 ∧ b.stop - b.start - 8 ≥ size
      · rw [if_pos found]
        have free : b.used = false := by simpa [found.1] using mark.symm
        exact .inr ⟨[], b, rest, rfl, free, found.2, rfl⟩
      rw [if_neg found, next]
      have skipped : b.used = true ∨ b.stop - b.start - 8 < size := by
        by_cases zero : memUsed ram b.start = 0
        · exact .inr (Nat.lt_of_not_ge fun big => found ⟨zero, big⟩)
        · exact .inl (by rw [← mark]; simpa using zero)
      rcases ih with ⟨none, all⟩ | ⟨before, c, after, split, found⟩
      · exact .inl ⟨none, forall_mem_cons.mpr ⟨skipped, all⟩⟩
      · exact .inr ⟨b :: before, c, after, by rw [split]; rfl, found⟩
    · rw [if_neg inRange]
      refine .inl ⟨rfl, fun c member => .inr ?_⟩
      have := whole.mem member
      simp only [memSizeAligned] at inRange
      omega

theorem nextFree_spec {cur : Nat} {rest : List Block} (tiles : Tiles 20 4 cur rest 10240)
    (linked : Linked ram prev rest) (enough : rest.length < fuel) :
    nextFree ram fuel cur = .ok (firstFree memSizeAligned rest) := by
  refine linked.search_induction ?_ ?_ tiles enough
  · intro fuel
    rw [nextFree, if_neg (by simp [memSizeAligned]), firstFree]
    rfl
  · intro fuel b rest _ wide upper next mark ih
    have inside : b.start ≠ memSizeAligned := by
      simp only [memSizeAligned]
      omega
    rw [nextFree, firstFree]
    cases used : b.used with
    | true =>
      rw [used] at mark
      rw [if_pos ⟨by simpa using mark, inside⟩, next, ih]
      rfl
    | false =>
      rw [used] at mark
      rw [if_neg (by simp_all)]
      rfl

/-- The search for the next free block ends at a free block or at `ram_end`. -/
theorem nextFree_free {cur found : Nat} (done : nextFree ram fuel cur = .ok found) :
    found = memSizeAligned ∨ memUsed ram found = 0 := by
  induction fuel generalizing cur with
  | zero => cases done
  | succ fuel ih =>
    rw [nextFree] at done
    split at done
    · exact ih done
    · rename_i stops
      cases done
      by_cases last : found = memSizeAligned
      · exact .inl last
      · exact .inr (by simpa [last] using stops)

/-- Taking a free block that is big enough: it is used up to `e`, and a free rest of it may
follow. -/
theorem mallocTake_spec (shape : Shape h.ram (left ++ b :: right))
    (fits : size ≤ b.stop - b.start - 8) (low : 12 ≤ size) (aligned : size % 4 = 0)
    (bound : h.used + (b.stop - b.start) ≤ 10240) :
    ∃ e rest, (rest = [] ∨ rest = [⟨e, b.stop, false⟩]) ∧ b.start + 8 + size ≤ e ∧
      e ≤ b.stop ∧
      Shape (mallocTake b.start size h).ram (left ++ ⟨b.start, e, true⟩ :: (rest ++ right)) ∧
      (mallocTake b.start size h).used = h.used + (e - b.start) := by
  obtain ⟨first, wide, ends, second, _, own, _, _⟩ := shape_append_cons_iff.mp shape
  have upper := second.le
  have begins := first.end_aligned (by decide)
  have next : memNext h.ram b.start = b.stop := congrArg Header.next own
  unfold mallocTake
  rw [userSize_eq next wide upper]
  by_cases room : b.stop - b.start - 8 ≥ size + sizeofStructMem + minSizeAligned
  · rw [if_pos room]
    simp only [sizeofStructMem, minSizeAligned] at room ⊢
    have ptr2 : u16 (b.start + 8 + size) = b.start + 8 + size := u16_of_lt (by omega)
    rw [ptr2, next]
    have cut := Shape.cut true [] shape rfl second (q := b.start + 8 + size) (by omega)
      (by omega) (by omega)
    refine ⟨b.start + 8 + size, [⟨b.start + 8 + size, b.stop, false⟩], Or.inr rfl, Nat.le_refl _,
      by omega, by simpa using cut, ?_⟩
    rw [u16_of_lt (by omega)]
    omega
  · rw [if_neg room]
    have marked := shape.setUsed 1
    have next' : memNext (setUsed h.ram b.start 1) b.start = b.stop :=
      (congrArg Header.next (header_setUsed 1)).trans next
    refine ⟨b.stop, [], Or.inl rfl, by omega, Nat.le_refl _, marked, ?_⟩
    simp only [next']
    exact toU16_eq (by omega) (by omega)

/-- After a free block was taken, `lfree` is the lowest free block again. -/
theorem mallocAdjustLfree_spec {new : List Block} (right : List Block)
    (first : Tiles 20 4 0 left b.start) (free : b.used = false) (shape : Shape ram (left ++ new))
    (begins : Tiles 20 4 b.start new 10240) :
    mallocAdjustLfree ram b.start (firstFree memSizeAligned (left ++ b :: right)) =
      .ok (firstFree memSizeAligned (left ++ new)) := by
  rw [firstFree_append_cons_free free, mallocAdjustLfree]
  have length := shape.tiles.length_le (by decide)
  simp only [memSizeAligned, length_append] at length
  rcases first.firstFree_cases (by decide) with all | ⟨low, same⟩
  · rw [all, if_pos rfl]
    have next : nextFree ram (memSizeAligned + 1) b.start = .ok (firstFree memSizeAligned new) :=
      nextFree_spec begins (linked_append.mp shape.linked).2
        (by simp only [memSizeAligned]; omega)
    rw [next, ok_bind, lwipAssert_pos (nextFree_free next), ok_bind, firstFree_append, all]
  · rw [if_neg (by omega), firstFree_append, same (firstFree memSizeAligned new)]

/-- `mem_malloc` with a size above zero fails exactly when no free block can hold the size as
it rounds it; otherwise it takes such a block. -/
theorem memMalloc_spec (rep : Represents h blocks) (positive : 0 < size) :
    (memMalloc size h = .ok (none, h) ∧
        ∀ b ∈ blocks, b.used = true ∨ b.stop - b.start - 8 < roundedSize size) ∨
      ∃ left b right e rest h', blocks = left ++ b :: right ∧ b.used = false ∧
        roundedSize size ≤ b.stop - b.start - 8 ∧ b.start + 8 + roundedSize size ≤ e ∧ e ≤ b.stop ∧
        (rest = [] ∨ rest = [⟨e, b.stop, false⟩]) ∧
        memMalloc size h = .ok (some (b.start + sizeofStructMem), h') ∧
        Represents h' (left ++ ⟨b.start, e, true⟩ :: (rest ++ right)) := by
  obtain ⟨shape, separated, lfree, statistic⟩ := rep
  obtain ⟨low, aligned⟩ := roundedSize_spec size
  have length := shape.tiles.length_le (by decide)
  simp only [memSizeAligned] at length
  unfold memMalloc
  rw [if_neg (by omega)]
  by_cases large : roundedSize size > memSizeAligned
  · left
    refine ⟨by simp only [large, ↓reduceIte], fun b member => .inr ?_⟩
    have := shape.tiles.mem member
    simp only [memSizeAligned] at this large
    omega
  simp only [large, ↓reduceIte]
  -- the search starts at `lfree`, before which every block is used
  obtain ⟨skipped, from', split, allUsed, begins⟩ : ∃ skipped from', blocks = skipped ++ from' ∧
      (∀ c ∈ skipped, c.used = true) ∧ Tiles 20 4 h.lfree from' 10240 := by
    rcases firstFree_split blocks with all | ⟨before, free, after, split, used, found⟩
    · exact ⟨blocks, [], by simp, all, lfree.trans (firstFree_eq_of_used all)⟩
    · refine ⟨before, free :: after, split, used, ?_⟩
      have tiles := shape.tiles
      rw [split] at tiles
      obtain ⟨_, wide, ends, behind⟩ := tiles_append_cons.mp tiles
      exact ⟨(lfree.trans (found _)).symm, wide, ends, behind⟩
  have linked := shape.linked
  rw [split] at linked
  have lengthFrom : from'.length < memSizeAligned + 1 := by
    have := congrArg List.length split
    simp only [length_append] at this
    simp only [memSizeAligned]
    omega
  rcases mallocSearch_spec begins (linked_append.mp linked).2 lengthFrom with
    ⟨none, all⟩ | ⟨before, b, after, splitFrom, free, fits, found⟩
  · left
    refine ⟨by rw [none]; rfl, fun c member => ?_⟩
    rw [split] at member
    rcases mem_append.mp member with early | late
    · exact .inl (allUsed c early)
    · exact all c late
  right
  have whole : blocks = (skipped ++ before) ++ b :: after := by
    rw [split, splitFrom, append_assoc]
  generalize skipped ++ before = left at whole
  subst whole
  obtain ⟨first, wide, ends, second, _, _, _, _⟩ := shape_append_cons_iff.mp shape
  have upper := second.le
  have beginsAligned := first.end_aligned (by decide)
  have bound : h.used + (b.stop - b.start) ≤ 10240 := by
    have usedLeft := first.usedSize_le
    have usedRight := second.usedSize_le
    rw [statistic, usedSize_append_cons_free free]
    omega
  obtain ⟨e, rest, restShape, big, within, taken, counted⟩ := mallocTake_spec shape fits low
    aligned bound
  obtain ⟨separatedLeft, separatedRight, _, usedRight⟩ := separated_append_cons.mp separated
  obtain ⟨tilesLeft, _, _, tilesRest, _, _, linkedRest, _⟩ := shape_append_cons_iff.mp taken
  have represents : ∀ cur,
      cur = firstFree memSizeAligned (left ++ ⟨b.start, e, true⟩ :: (rest ++ after)) →
      Represents { mallocTake b.start (roundedSize size) h with lfree := cur }
        (left ++ ⟨b.start, e, true⟩ :: (rest ++ after)) := by
    intro cur lowest
    refine ⟨taken, ?_, lowest, ?_⟩
    · refine separated_append_cons.mpr ⟨separatedLeft, ?_, fun _ _ => .inr rfl,
        fun _ _ => .inl rfl⟩
      rcases restShape with rfl | rfl
      · exact separatedRight
      · exact isChain_cons.mpr ⟨fun r member => by simpa [free] using usedRight r member,
          separatedRight⟩
    · rw [usedSize_append_cons_used rfl]
      rw [usedSize_append_cons_free free] at statistic
      have noMore : usedSize (rest ++ after) = usedSize after := by
        rcases restShape with rfl | rfl <;> simp [usedSize]
      dsimp only
      omega
  have adjusted := mallocAdjustLfree_spec after first free taken
    ⟨rfl, by dsimp only; omega, (shape_append_cons_iff.mp taken).2.2.1, tilesRest⟩
  refine ⟨left, b, after, e, rest, _, rfl, free, fits, big, within, restShape, ?_, represents _ rfl⟩
  rw [found, ok_bind]
  dsimp only
  rw [lfree, adjusted, ok_bind, lwipAssert_pos
    (by simp only [sizeofStructMem, memSizeAligned]; omega),
    ok_bind, lwipAssert_pos (by simp only [sizeofStructMem]; omega), ok_bind,
    lwipAssert_pos beginsAligned, ok_bind]

/-! ## `mem_trim` -/

/-- A heap in which a used block is followed by a free one up to a used one. -/
theorem represents_cut {s q : Nat}
    (shape : Shape h.ram (left ++ ⟨s, q, true⟩ :: ⟨q, hi, false⟩ :: right))
    (separatedLeft : Separated left) (separatedRight : Separated right)
    (closed : ∀ r ∈ right.head?, r.used = true) (lowest : h.lfree = firstFree q left)
    (counted : h.used = usedSize left + (q - s) + usedSize right) :
    Represents h (left ++ ⟨s, q, true⟩ :: ⟨q, hi, false⟩ :: right) := by
  refine ⟨shape, ?_, ?_, ?_⟩
  · refine separated_append_cons.mpr ⟨separatedLeft, ?_, fun _ _ => .inr rfl,
      fun _ _ => .inl rfl⟩
    exact isChain_cons.mpr ⟨fun r member => .inr (closed r member), separatedRight⟩
  · rw [firstFree_append_cons_used rfl, lowest]
    rfl
  · rw [usedSize_append_cons_used rfl, counted]
    simp [usedSize]

/-- `mem_trim` of a used block keeps the heap in order and every block in its place. -/
theorem memTrim_represents {h' : Heap} {newsize : Nat} {result : Option Nat}
    (rep : Represents h (left ++ b :: right)) (used : b.used = true)
    (done : memTrim (b.start + sizeofStructMem) newsize h = .ok (result, h')) :
    ∃ blocks, Represents h' blocks ∧
      (usedBlocks blocks).map Block.start = (usedBlocks (left ++ b :: right)).map Block.start := by
  obtain ⟨low, aligned⟩ := roundedSize_spec newsize
  have kept : ∃ blocks, Represents h blocks ∧
      (usedBlocks blocks).map Block.start = (usedBlocks (left ++ b :: right)).map Block.start :=
    ⟨_, rep, rfl⟩
  obtain ⟨shape, separated, lfree, statistic⟩ := rep
  obtain ⟨first, wide, ends, second, _, own, linkedRight, ramEnd⟩ := shape_append_cons_iff.mp shape
  obtain ⟨separatedLeft, separatedRight, _, _⟩ := separated_append_cons.mp separated
  have upper := second.le
  have begins := first.end_aligned (by decide)
  have total := shape.tiles.usedSize_le
  rw [usedSize_append_cons_used used] at statistic total
  have next : memNext h.ram b.start = b.stop := congrArg Header.next own
  have size : toU16 ((b.stop : Int) - b.start - sizeofStructMem) = b.stop - b.start - 8 := by
    simp only [sizeofStructMem]
    exact toU16_eq (by omega) (by omega)
  simp only [memTrim, Nat.add_sub_cancel, next, size] at done
  split at done
  · cases done
    exact kept
  rw [lwipAssert_bind_ok, lwipAssert_bind_ok] at done
  obtain ⟨_, smaller, done⟩ := done
  split at done
  · cases done
    exact kept
  have cutAligned : (b.start + 8 + roundedSize newsize) % 4 = 0 := by omega
  have ptr2 : u16 (b.start + sizeofStructMem + roundedSize newsize) =
      b.start + 8 + roundedSize newsize := u16_of_lt (by simp only [sizeofStructMem]; omega)
  have counted : toU16 ((h.used : Int) - ((b.stop - b.start - 8 : Nat) -
    (roundedSize newsize : Int))) =
      usedSize left + (b.start + 8 + roundedSize newsize - b.start) + usedSize right := by
    simp only [memSizeAligned] at total
    exact toU16_eq (by omega) (by omega)
  rw [ptr2] at done
  split at done
  · rename_i nextFree
    cases done
    cases right with
    | nil =>
      have last : b.stop = 10240 := second
      rw [last] at nextFree
      simp [header, nextFree] at ramEnd
    | cons m rest =>
      obtain ⟨adjoins, wideM, endsM, behind⟩ := second
      obtain ⟨ownM, _⟩ := linkedRight
      have nextM : memNext h.ram b.stop = m.stop := by
        rw [← adjoins]
        exact congrArg Header.next ownM
      have freeM : m.used = false := by
        have mark : (memUsed h.ram m.start != 0) = m.used := congrArg Header.used ownM
        rw [adjoins, nextFree] at mark
        exact mark.symm
      obtain ⟨usedRest, separatedRest⟩ := isChain_cons.mp separatedRight
      have cut := Shape.cut false [m] shape ⟨adjoins, wideM, endsM, rfl⟩ behind
        (q := b.start + 8 + roundedSize newsize) (by omega) (by omega) cutAligned
      rw [used, ← nextM] at cut
      refine ⟨_, represents_cut cut separatedLeft separatedRest
        (fun r member => by simpa [freeM] using usedRest r member) ?_ ?_, ?_⟩
      · rw [lfree, firstFree_append_cons_used used, firstFree, freeM]
        simp only [Bool.false_eq_true, ↓reduceIte]
        rcases first.firstFree_cases (by decide) with all | ⟨below, same⟩
        · rw [all, all, if_pos adjoins]
        · rw [same, same (b.start + 8 + roundedSize newsize), if_neg (by omega)]
      · simp only [usedSize, freeM] at counted
        simpa using counted
      · rw [usedBlocks_append_cons_used rfl, usedBlocks_append_cons_used used]
        simp [usedBlocks, freeM]
  · rename_i nextUsed
    split at done
    · rename_i room
      cases done
      simp only [sizeofStructMem, minSizeAligned] at room
      have cut := Shape.cut false [] shape rfl second (q := b.start + 8 + roundedSize newsize)
        (by omega) (by omega) cutAligned
      rw [used] at cut
      have closed : ∀ r ∈ right.head?, r.used = true := by
        intro r member
        have start := second.head member
        cases right with
        | nil => cases member
        | cons m rest =>
          obtain rfl : m = r := by simpa using member
          have mark : (memUsed h.ram m.start != 0) = m.used := congrArg Header.used linkedRight.1
          rw [← mark, start]
          simpa using nextUsed
      refine ⟨_, represents_cut cut separatedLeft separatedRight closed ?_ counted, ?_⟩
      · rw [lfree, firstFree_append_cons_used used]
        have behind := second.firstFree_range.1
        rcases first.firstFree_cases (by decide) with all | ⟨below, same⟩
        · rw [all, all]
          exact if_pos (by simp only [memSizeAligned]; omega)
        · rw [same, same (b.start + 8 + roundedSize newsize)]
          exact if_neg (by omega)
      · rw [usedBlocks_append_cons_used rfl, usedBlocks_append_cons_used used]
        simp [usedBlocks]
    · cases done
      exact kept

end Lwip.Mem
