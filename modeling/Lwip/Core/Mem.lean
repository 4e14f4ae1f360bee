import Lwip.Core.Arch

/-!
# The heap

`core/mem.c` over `ram`, an array of bytes that also holds the `struct mem` headers of the
blocks. Pointers are offsets from `ram`, which is aligned; `ram_end` is the offset
`MEM_SIZE_ALIGNED`. `mem_size_t` has 16 bits; expressions with `SIZEOF_STRUCT_MEM` are
unsigned with 32 bits. Of the statistics only `mem.used` is kept.
-/

namespace Lwip.Mem

def memSizeAligned : Nat := 10240

def sizeofStructMem : Nat := 8

def minSizeAligned : Nat := 12

/-- `LWIP_MEM_ALIGN_SIZE` for an alignment of 4. -/
def memAlignSize (size : Nat) : Nat := (size + 3) / 4 * 4

/-- The heap and its static variables. -/
structure Heap where
  ram : Nat → UInt8
  lfree : Nat
  /-- `lwip_stats.mem.used`. -/
  used : Nat

/-! ## `struct mem` -/

/-- A 16-bit value in host order. -/
def hostU16 (ram : Nat → UInt8) (i : Nat) : Nat := (ram i).toNat + 256 * (ram (i + 1)).toNat

/-- Store one byte. -/
def setByte (ram : Nat → UInt8) (i : Nat) (v : UInt8) : Nat → UInt8 :=
  fun j => if j = i then v else ram j

/-- Store a 16-bit value in host order. -/
def setU16 (ram : Nat → UInt8) (i v : Nat) : Nat → UInt8 :=
  setByte (setByte ram i (UInt8.ofNat v)) (i + 1) (UInt8.ofNat (v / 256))

/-- `mem->next`. -/
def memNext (ram : Nat → UInt8) (mem : Nat) : Nat := hostU16 ram mem

/-- `mem->prev`. -/
def memPrev (ram : Nat → UInt8) (mem : Nat) : Nat := hostU16 ram (mem + 2)

/-- `mem->used`. -/
def memUsed (ram : Nat → UInt8) (mem : Nat) : UInt8 := ram (mem + 4)

/-- `mem->next = v`. -/
def setNext (ram : Nat → UInt8) (mem v : Nat) : Nat → UInt8 := setU16 ram mem v

/-- `mem->prev = v`. -/
def setPrev (ram : Nat → UInt8) (mem v : Nat) : Nat → UInt8 := setU16 ram (mem + 2) v

/-- `mem->used = v`. -/
def setUsed (ram : Nat → UInt8) (mem : Nat) (v : UInt8) : Nat → UInt8 := setByte ram (mem + 4) v

/-! ## Functions -/

/-- `mem_init`: one free block and the header of `ram_end`. -/
def memInit (h : Heap) : Heap :=
  let ram := setUsed (setPrev (setNext h.ram 0 memSizeAligned) 0 0) 0 0
  let ram := setUsed ram memSizeAligned 1
  let ram := setPrev (setNext ram memSizeAligned memSizeAligned) memSizeAligned memSizeAligned
  { h with ram, lfree := 0 }

/-- First half of `plug_holes`: combine a block with a free successor. -/
def plugForward (mem : Nat) (h : Heap) : Heap :=
  let nmem := memNext h.ram mem
  if mem ≠ nmem ∧ memUsed h.ram nmem = 0 ∧ nmem ≠ memSizeAligned then
    let ram := setNext h.ram mem (memNext h.ram nmem)
    { h with
      ram := setPrev ram (memNext ram nmem) mem
      lfree := if h.lfree = nmem then mem else h.lfree }
  else h

/-- Second half of `plug_holes`: combine a block with a free predecessor. -/
def plugBackward (mem : Nat) (h : Heap) : Heap :=
  let pmem := memPrev h.ram mem
  if pmem ≠ mem ∧ memUsed h.ram pmem = 0 then
    let ram := setNext h.ram pmem (memNext h.ram mem)
    { h with
      ram := setPrev ram (memNext ram mem) pmem
      lfree := if h.lfree = mem then pmem else h.lfree }
  else h

def plugHoles (mem : Nat) (h : Heap) : Asserting Heap := do
  lwipAssert "plug_holes: mem < ram_end" (mem < memSizeAligned)
  lwipAssert "plug_holes: mem->used == 0" (memUsed h.ram mem = 0)
  lwipAssert "plug_holes: mem->next <= MEM_SIZE_ALIGNED" (memNext h.ram mem ≤ memSizeAligned)
  .ok (plugBackward mem (plugForward mem h))

/-- `mem_free`; a `NULL` pointer is ignored. -/
def memFree (rmem : Option Nat) (h : Heap) : Asserting Heap :=
  match rmem with
  | none => .ok h
  | some rmem => do
    lwipAssert "mem_free: sanity check alignment" (rmem % 4 = 0)
    lwipAssert "mem_free: legal memory" (rmem < memSizeAligned)
    let mem := rmem - sizeofStructMem
    lwipAssert "mem_free: mem->used" (memUsed h.ram mem ≠ 0)
    let ram := setUsed h.ram mem 0
    plugHoles mem
      { ram
        lfree := if mem < h.lfree then mem else h.lfree
        used := toU16 (h.used - ((memNext ram mem : Int) - mem)) }

/-- The writes that cut a block at `ptr2`: a free block from there to `next` is created and
linked behind the block at `ptr`, which `mem_malloc` also marks as used. -/
def cutBlock (mark : Bool) (ram : Nat → UInt8) (ptr ptr2 next : Nat) : Nat → UInt8 :=
  let ram := setUsed ram ptr2 0
  let ram := setNext ram ptr2 next
  let ram := setPrev ram ptr2 ptr
  let ram := setNext ram ptr ptr2
  let ram := if mark then setUsed ram ptr 1 else ram
  if memNext ram ptr2 ≠ memSizeAligned then setPrev ram (memNext ram ptr2) ptr2 else ram

/-- The size as `mem_malloc` and `mem_trim` round it, in 16 bits. -/
def roundedSize (size : Nat) : Nat :=
  let size := u16 (memAlignSize size)
  if size < minSizeAligned then minSizeAligned else size

/-- `mem_trim`, with the pointer it returns. -/
def memTrim (rmem newsize : Nat) (h : Heap) : Asserting (Option Nat × Heap) :=
  let newsize := roundedSize newsize
  if newsize > memSizeAligned then .ok (none, h)
  else do
    lwipAssert "mem_trim: legal memory" (rmem < memSizeAligned)
    let mem := rmem - sizeofStructMem
    let ptr := mem
    let size := toU16 ((memNext h.ram mem : Int) - ptr - sizeofStructMem)
    lwipAssert "mem_trim can only shrink memory" (newsize ≤ size)
    if newsize = size then .ok (some rmem, h)
    else
      let mem2 := memNext h.ram mem
      if memUsed h.ram mem2 = 0 then
        -- the next block is free and is moved
        let next := memNext h.ram mem2
        let ptr2 := u16 (ptr + sizeofStructMem + newsize)
        .ok (some rmem,
          { ram := cutBlock false h.ram ptr ptr2 next
            lfree := if h.lfree = mem2 then ptr2 else h.lfree
            used := toU16 (h.used - ((size : Int) - newsize)) })
      else if newsize + sizeofStructMem + minSizeAligned ≤ size then
        let ptr2 := u16 (ptr + sizeofStructMem + newsize)
        .ok (some rmem,
          { ram := cutBlock false h.ram ptr ptr2 (memNext h.ram mem)
            lfree := if ptr2 < h.lfree then ptr2 else h.lfree
            used := toU16 (h.used - ((size : Int) - newsize)) })
      else .ok (some rmem, h)

/-- Space for data in the block at `ptr`, as `mem_malloc` computes it. -/
def userSize (ram : Nat → UInt8) (ptr : Nat) : Nat :=
  toU32 ((memNext ram ptr : Int) - (ptr + sizeofStructMem))

/-- The search of `mem_malloc` for a free block that is big enough. -/
def mallocSearch (ram : Nat → UInt8) (size : Nat) : Nat → Nat → Asserting (Option Nat)
  | 0, _ => .error "no end"
  | fuel + 1, ptr =>
    if ptr < memSizeAligned - size then
      if memUsed ram ptr = 0 ∧ userSize ram ptr ≥ size then .ok (some ptr)
      else mallocSearch ram size fuel (memNext ram ptr)
    else .ok none

/-- The search of `mem_malloc` for the next free block, from `cur` on. -/
def nextFree (ram : Nat → UInt8) : Nat → Nat → Asserting Nat
  | 0, _ => .error "no end"
  | fuel + 1, cur =>
    if memUsed ram cur ≠ 0 ∧ cur ≠ memSizeAligned then nextFree ram fuel (memNext ram cur)
    else .ok cur

/-- What `mem_malloc` does with the block that it found: cut it if the rest is big enough for
another block, and mark it as used. -/
def mallocTake (ptr size : Nat) (h : Heap) : Heap :=
  if userSize h.ram ptr ≥ size + sizeofStructMem + minSizeAligned then
    let ptr2 := u16 (ptr + sizeofStructMem + size)
    { h with
      ram := cutBlock true h.ram ptr ptr2 (memNext h.ram ptr)
      used := u16 (h.used + (size + sizeofStructMem)) }
  else
    let ram := setUsed h.ram ptr 1
    { h with ram, used := toU16 (h.used + ((memNext ram ptr : Int) - ptr)) }

/-- The end of `mem_malloc`: if the block taken was the lowest free one, find the next. -/
def mallocAdjustLfree (ram : Nat → UInt8) (ptr lfree : Nat) : Asserting Nat :=
  if ptr = lfree then do
    let cur ← nextFree ram (memSizeAligned + 1) lfree
    lwipAssert "mem_malloc: !lfree->used" (cur = memSizeAligned ∨ memUsed ram cur = 0)
    .ok cur
  else .ok lfree

/-- `mem_malloc`, with the pointer it returns. -/
def memMalloc (size : Nat) (h : Heap) : Asserting (Option Nat × Heap) :=
  if size = 0 then .ok (none, h)
  else
    let size := roundedSize size
    if size > memSizeAligned then .ok (none, h)
    else do
      match ← mallocSearch h.ram size (memSizeAligned + 1) h.lfree with
      | none => .ok (none, h)
      | some ptr =>
        let taken := mallocTake ptr size h
        let lfree ← mallocAdjustLfree taken.ram ptr h.lfree
        lwipAssert "mem_malloc: allocated memory not above ram_end."
          (ptr + sizeofStructMem + size ≤ memSizeAligned)
        lwipAssert "mem_malloc: allocated memory properly aligned."
          ((ptr + sizeofStructMem) % 4 = 0)
        lwipAssert "mem_malloc: sanity check alignment" (ptr % 4 = 0)
        .ok (some (ptr + sizeofStructMem), { taken with lfree })

/-- `memset(p, 0, n)`. -/
def memsetZero (ram : Nat → UInt8) (p n : Nat) : Nat → UInt8 :=
  fun j => if p ≤ j ∧ j < p + n then 0 else ram j

/-- `mem_calloc`: the product is a `mem_size_t` for `mem_malloc` and a `size_t` for `memset`. -/
def memCalloc (count size : Nat) (h : Heap) : Asserting (Option Nat × Heap) := do
  match ← memMalloc (u16 (count * size)) h with
  | (none, h) => .ok (none, h)
  | (some p, h) => .ok (some p, { h with ram := memsetZero h.ram p (count * size) })

end Lwip.Mem
